import FormConsole.Proofs.Form.Override

/-!
# Forms in use

Between two calls any field may become the active one.  No call reads which field that is, so that what calls
alone lead to and what they lead to in use differ in the active field only.

* `InUse`: the forms that calls and changes of the active field lead to; `InUse.nextField`, `InUse.prevField`.
* `Form.call_focus`: a call does the same whatever field is active.
* `InUse.exists_reachable`: hence what holds after calls holds in use (`InUse.isOf`, `InUse.inForce`).
-/

namespace FormConsole

namespace Form

section Focus

variable (f : Form) (position : Nat)

theorem perform_focus {α : Type} (edit : Edit α) :
    (f.focus position).perform edit = ((f.perform edit).1.focus position, (f.perform edit).2) := by
  unfold perform focus
  dsimp only
  cases edit.run f.table with
  | ok a t => rfl
  | error e t => rfl

/-- A call does the same whatever field is active. -/
theorem call_focus (c : Call) :
    (f.focus position).call c = ((f.call c).1.focus position, (f.call c).2) := by
  cases c with
  | set name v => exact congrArg (Prod.map id (·.map Answer.changes)) (perform_focus f position _)
  | resetToBaseline name =>
    exact congrArg (Prod.map id (·.map Answer.changes)) (perform_focus f position _)
  | load stored => exact congrArg (Prod.map id (·.map fun _ => Answer.done)) (perform_focus f position _)
  | setChoices name choices =>
    exact congrArg (Prod.map id (·.map Answer.changes)) (perform_focus f position _)
  | refresh => exact congrArg (Prod.map id (·.map Answer.changes)) (perform_focus f position _)
  | commit => rfl
  | validate => rfl

variable {f} in
theorem IsOf.focus {d : Definition} (h : IsOf d f) : IsOf d (f.focus position) :=
  ⟨h.wiring, h.declarations, h.nodup, h.fits, h.apart, h.pending⟩

end Focus

end Form

/-- The forms that calls, refused ones included, and changes of the active field between them lead to from a
freshly opened one. -/
inductive InUse (d : Definition) : Form → Prop
  | opened {f : Form} (hbuild : Form.build d = .ok f) : InUse d f
  | called {f : Form} (h : InUse d f) (c : Call) : InUse d (f.call c).1
  | focused {f : Form} (h : InUse d f) (position : Nat) : InUse d (f.focus position)

namespace InUse

variable {d : Definition} {f : Form}

theorem of_reachable (h : Reachable d f) : InUse d f := by
  obtain ⟨form, calls, hbuild, rfl⟩ := h
  have hform : InUse d form := opened hbuild
  clear hbuild
  induction calls generalizing form with
  | nil => exact hform
  | cons c calls ih => exact ih _ (hform.called c)

theorem nextField (h : InUse d f) : InUse d f.nextField := by
  unfold Form.nextField
  split
  · exact h
  · exact h.focused _

theorem prevField (h : InUse d f) : InUse d f.prevField := by
  unfold Form.prevField
  split
  · exact h
  · split
    · exact h.focused _
    · exact h.focused _

/-- The changes of the active field can all be left to the end. -/
theorem exists_reachable (h : InUse d f) : ∃ g position, Reachable d g ∧ f = g.focus position := by
  induction h with
  | @opened f hbuild => exact ⟨f, f.active, ⟨f, [], hbuild, rfl⟩, rfl⟩
  | called _ c ih =>
    obtain ⟨g, position, ⟨form, calls, hbuild, rfl⟩, rfl⟩ := ih
    refine ⟨((form.run calls).call c).1, position, ⟨form, calls ++ [c], hbuild, ?_⟩, ?_⟩
    · exact (Form.run_concat form calls c).symm
    · rw [Form.call_focus]
  | focused _ position ih =>
    obtain ⟨g, _, hreach, rfl⟩ := ih
    exact ⟨g, position, hreach, rfl⟩

theorem isOf (h : InUse d f) : Form.IsOf d f := by
  obtain ⟨g, position, hreach, rfl⟩ := h.exists_reachable
  exact (Form.isOf_of_reachable hreach).focus position

theorem inForce (h : InUse d f) (hdeps : d.wiring.dependents.card < Wiring.maxPasses) :
    d.rules.InForce f.table := by
  obtain ⟨g, position, hreach, rfl⟩ := h.exists_reachable
  have hin : d.rules.InForce g.table := Form.inForce_of_reachable hreach hdeps
  exact hin

/-- No call changes what is checked. -/
theorem checks_eq (h : InUse d f) : f.checks = d.checks := by
  induction h with
  | opened hbuild =>
    obtain ⟨-, -, rfl⟩ := Form.build_eq_ok_iff.mp hbuild
    rfl
  | called _ c ih => exact (Form.call_static _ c).2.2.1.trans ih
  | focused _ _ ih => exact ih

end InUse

end FormConsole
