import FormConsole.Field.Table

/-!
# Edits

An edit is a computation on the fields of a form that may be refused; what it had written before stays.  A write that
changes nothing records nothing.

* `Edit.ask`, `Edit.put`, `Edit.takeChanges`: the edits of which all others are made.
* `Edit.setValue`, `Edit.override`, `Edit.replaceChoices`, `Edit.resetToBaseline`: the writes.
* `Edit.run_put`: a write as a function on the fields, with the three facts that say when it changes nothing.
-/

namespace FormConsole

/-- A computation on the fields of a form that may be refused.  What it had written before stays. -/
abbrev Edit (α : Type) := EStateM FormError FieldTable α

namespace Edit

/-! ## The edits -/

section Edits

/-- What a question about the fields answers. -/
def ask {α : Type} (question : FieldTable → Except FormError α) : Edit α := do
  match question (← get) with
  | .ok a => pure a
  | .error e => throw e

/-- The field of that name, for writing. -/
def target (name : String) : Edit Field := do
  match (← get).field? name with
  | some f => pure f
  | none => throw (.unknownField name .update)

/-- Applies a function to the field of that name, unless the field is as it would be afterwards; says whether it was
applied. -/
def put (name : String) (kind : ChangeKind) (g : Field → Field) : Edit Bool := do
  let f ← target name
  if g f = f then
    pure false
  else
    modify fun t => t.change name kind g
    pure true

/-- Gives a field a value. -/
def setValue (name : String) (v : Value) : Edit Bool :=
  put name .value fun f => { f with value := v }

/-- Gives one effective property a state. -/
def override (name : String) (p : Property) (b : Bool) : Edit Bool :=
  put name .constraints fun f => { f with effective := f.effective.set p b }

/-- Gives a field other choices. -/
def replaceChoices (name : String) (choices : List Choice) : Edit Bool :=
  put name .choices fun f => { f with choices := choices }

/-- Gives a field its default value and its baseline constraints. -/
def resetToBaseline (name : String) : Edit Unit := do
  let _ ← put name .value fun f => { f with value := f.decl.default }
  let _ ← put name .constraints fun f => { f with effective := f.decl.baseline }

/-- The changes nobody has reacted to, which are then forgotten. -/
def takeChanges : Edit (List Change) :=
  modifyGet fun t => (t.pending, { t with pending := [] })

end Edits

/-! ## Edits as functions on the fields -/

section Run

variable (t : FieldTable) (name : String)

@[simp] theorem run_ask {α : Type} (question : FieldTable → Except FormError α) :
    (ask question).run t =
      match question t with
      | .ok a => .ok a t
      | .error e => .error e t := by
  simp only [ask, EStateM.run_bind, EStateM.run_get]
  cases question t <;> rfl

@[simp] theorem run_target :
    (target name).run t =
      match t.field? name with
      | some f => .ok f t
      | none => .error (.unknownField name .update) t := by
  simp only [target, EStateM.run_bind, EStateM.run_get]
  cases t.field? name <;> rfl

/-- A write is refused for an undeclared name only, and then nothing is written. -/
theorem run_put (kind : ChangeKind) (g : Field → Field) :
    (put name kind g).run t =
      match t.field? name with
      | none => .error (.unknownField name .update) t
      | some f => if g f = f then .ok false t else .ok true (t.change name kind g) := by
  simp only [put, EStateM.run_bind, run_target]
  cases t.field? name with
  | none => rfl
  | some f =>
    by_cases h : g f = f
    · simp only [if_pos h]
      rfl
    · simp only [if_neg h]
      rfl

/-- A field is left as it is by a write of the value that it has. -/
theorem with_value_eq_self_iff {f : Field} {v : Value} :
    ({ f with value := v } : Field) = f ↔ f.value = v := by
  cases f
  simp [eq_comm]

/-- A field is left as it is by a write of the choices that it has. -/
theorem with_choices_eq_self_iff {f : Field} {choices : List Choice} :
    ({ f with choices := choices } : Field) = f ↔ f.choices = choices := by
  cases f
  simp [eq_comm]

/-- A field is left as it is by an override with the state that the property has. -/
theorem with_effective_eq_self_iff {f : Field} {p : Property} {b : Bool} :
    ({ f with effective := f.effective.set p b } : Field) = f ↔ f.effective.get p = b := by
  cases f with
  | mk decl value committed effective choices violation =>
    simp only [Field.mk.injEq, and_true, true_and]
    constructor
    · intro h
      rw [← h, Constraints.get_set_self]
    · intro h
      rw [← h, Constraints.set_get_self]

@[simp] theorem run_takeChanges :
    takeChanges.run t = .ok t.pending { t with pending := [] } := rfl

end Run

end Edit

end FormConsole
