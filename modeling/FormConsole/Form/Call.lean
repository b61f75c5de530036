import FormConsole.Form

/-!
# Calls on a form

The calls that change a form, as values, so that a whole use of a form is a list of calls.

* `Form.call`: one call with its answer.
* `Form.run`: the form after a list of calls, refused ones included.
* `Reachable`: the forms that some calls lead to from a freshly opened one.
-/

namespace FormConsole

/-- A call on a form. -/
inductive Call where
  | set (name : String) (v : Value)
  | resetToBaseline (name : String)
  | load (stored : NameMap Value)
  | setChoices (name : String) (choices : List Choice)
  | refresh
  | commit
  | validate
  deriving DecidableEq

/-- What a call that is not refused answers. -/
inductive Answer where
  | changes (cs : ChangeSet)
  | violations (vs : List Violation)
  | done
  deriving DecidableEq

namespace Form

/-- The form that a call leaves, and its answer. -/
def call (f : Form) : Call → Form × Except FormError Answer
  | .set name v => (f.set name v).map id (·.map .changes)
  | .resetToBaseline name => (f.resetToBaseline name).map id (·.map .changes)
  | .load stored => (f.load stored).map id (·.map fun _ => .done)
  | .setChoices name choices => (f.setChoices name choices).map id (·.map .changes)
  | .refresh => f.refresh.map id (·.map .changes)
  | .commit => (f.commit, .ok .done)
  | .validate => f.validate.map id fun vs => .ok (.violations vs)

/-- The form after a list of calls.  A refused call leaves what it left, and the next one follows. -/
def run (f : Form) (calls : List Call) : Form :=
  calls.foldl (fun f c => (f.call c).1) f

section Run

variable (f : Form)

@[simp] theorem run_nil : f.run [] = f := rfl

@[simp] theorem run_cons (c : Call) (calls : List Call) :
    f.run (c :: calls) = (f.call c).1.run calls := rfl

theorem run_append (calls more : List Call) : f.run (calls ++ more) = (f.run calls).run more := by
  simp [run, List.foldl_append]

theorem run_concat (calls : List Call) (c : Call) :
    f.run (calls ++ [c]) = ((f.run calls).call c).1 := by
  simp [run, List.foldl_append]

/-- No call changes what a form is made of. -/
theorem call_static (c : Call) :
    (f.call c).1.title = f.title ∧ (f.call c).1.wiring = f.wiring ∧
      (f.call c).1.checks = f.checks ∧ (f.call c).1.active = f.active := by
  have perform_static : ∀ {α : Type} (e : Edit α),
      (f.perform e).1.title = f.title ∧ (f.perform e).1.wiring = f.wiring ∧
        (f.perform e).1.checks = f.checks ∧ (f.perform e).1.active = f.active := by
    intro α e
    unfold perform
    split <;> exact ⟨rfl, rfl, rfl, rfl⟩
  cases c with
  | set name v => exact perform_static _
  | resetToBaseline name => exact perform_static _
  | load stored => exact perform_static _
  | setChoices name choices => exact perform_static _
  | refresh => exact perform_static _
  | commit => exact ⟨rfl, rfl, rfl, rfl⟩
  | validate => exact ⟨rfl, rfl, rfl, rfl⟩

end Run

end Form

/-- The form of a definition after some calls. -/
def Reachable (d : Definition) (f : Form) : Prop :=
  ∃ form calls, Form.build d = .ok form ∧ f = form.run calls

end FormConsole
