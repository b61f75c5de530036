import FormConsole.Proofs.Form.Snapshot

/-!
# Marks of violations

A check marks each field with the first message about it and takes all other marks away.  What is found does not depend on
the marks or on what is saved, and no call but a check changes a mark.

* `Checks.firstMessage?`: the first message about a field; `Checks.fields_mark`: the fields after they are marked.
* `Form.Marked`: the marks are those for a list of violations; kept by every call that does not check (`Form.Marked.call`,
  `Form.Marked.load`).
-/

namespace FormConsole

namespace Checks

section Mark

/-- The first message about a field. -/
def firstMessage? (vs : List Violation) (name : String) : Option String :=
  (vs.find? fun v => v.field == name).map (·.message)

variable (vs : List Violation)

/-- One message after the other, of which the first one about a field stays. -/
theorem fields_foldl_markInvalid (u : FieldTable) :
    (vs.foldl (fun t v => t.markInvalid v.field v.message) u).fields =
      u.fields.map fun f => { f with violation := f.violation.or (firstMessage? vs f.name) } := by
  induction vs generalizing u with
  | nil => simp [firstMessage?]
  | cons v vs ih =>
    rw [List.foldl_cons, ih, FieldTable.markInvalid, FieldTable.modify, List.map_map]
    refine List.map_congr_left fun f _ => ?_
    simp only [Function.comp_apply, firstMessage?]
    by_cases hname : f.name = v.field
    · rw [if_pos hname, List.find?_cons_of_pos (by simpa using hname.symm), Option.or_assoc,
        Option.map_some, Option.some_or]
    · rw [if_neg hname, List.find?_cons_of_neg (by simpa using Ne.symm hname)]

/-- The fields after they are marked: earlier marks make no difference. -/
theorem fields_mark (t : FieldTable) :
    (mark t vs).fields = t.fields.map fun f => { f with violation := firstMessage? vs f.name } := by
  rw [mark, fields_foldl_markInvalid, FieldTable.clearViolations, List.map_map]
  rfl

end Mark

end Checks

namespace FieldTable

section Alike

variable {t t' : FieldTable}

theorem Alike.valueOf (h : Alike t t') (name : String) : t'.valueOf name = t.valueOf name := by
  have hlive := h.field? name
  unfold FieldTable.valueOf lookup
  cases hf : t.field? name with
  | none =>
    rw [hf, Option.map_none, Option.map_eq_none_iff] at hlive
    rw [hlive]
  | some f =>
    rw [hf, Option.map_some] at hlive
    obtain ⟨f', hf', hsame⟩ := Option.map_eq_some_iff.mp hlive
    rw [hf']
    exact congrArg (fun live => Except.ok live.2.1) hsame

/-- What is found does not depend on the marks or on what is saved. -/
theorem Alike.violations (h : Alike t t') (c : Checks) : c.violations t' = c.violations t := by
  have hblank : ∀ u : FieldTable, Checks.blankFields u =
      ((u.fields.map Field.live).filter fun l => l.2.2.1.isRequired && l.2.1.isBlank).map
        fun l => ⟨l.1.name, Checks.missing⟩ := by
    intro u
    rw [List.filter_map, List.map_map]
    rfl
  have hcross : c.crossViolations t' = c.crossViolations t := by
    simp only [Checks.crossViolations, Exclusion.isViolated, Confirmation.isViolated, h.valueOf]
  rw [Checks.violations, Checks.violations, hblank, hblank, h.live, hcross]

end Alike

end FieldTable

namespace Form

section Marked

variable {d : Definition} {f f' : Form} {vs : List Violation}

@[simp] theorem violations_focus (f : Form) (position : Nat) :
    (f.focus position).violations = f.violations := rfl

@[simp] theorem violations_commit (f : Form) : f.commit.violations = f.violations :=
  (FieldTable.alike_commit f.table).violations f.checks

@[simp] theorem violations_validate (f : Form) : f.validate.1.violations = f.violations :=
  (FieldTable.alike_mark f.table f.violations).violations f.checks

/-- Each field is marked with the first message about it, or it is not marked if there is none. -/
def Marked (f : Form) (vs : List Violation) : Prop :=
  ∀ field ∈ f.fields, field.violation = Checks.firstMessage? vs field.name

theorem marked_validate (f : Form) : f.validate.1.Marked f.violations := by
  intro field hfield
  have hfields : f.validate.1.fields = _ := Checks.fields_mark f.violations f.table
  rw [hfields] at hfield
  obtain ⟨before, -, rfl⟩ := List.mem_map.mp hfield
  rfl

theorem Marked.focus (h : f.Marked vs) (position : Nat) : (f.focus position).Marked vs := h

theorem Marked.commit (h : f.Marked vs) : f.commit.Marked vs := by
  intro field hfield
  obtain ⟨before, hbefore, rfl⟩ := List.mem_map.mp hfield
  exact h before hbefore

theorem Marked.congr (h : f.Marked vs) (hfixed : f'.fields.map Field.fixed = f.fields.map Field.fixed) :
    f'.Marked vs := by
  intro field' hfield'
  have hmem := List.mem_map_of_mem (f := Field.fixed) hfield'
  rw [hfixed] at hmem
  obtain ⟨field, hfield, hsame⟩ := List.mem_map.mp hmem
  obtain ⟨hdecl, -, hviolation⟩ := by simpa [Field.fixed] using hsame
  rw [Field.name, ← hviolation, ← hdecl]
  exact h field hfield

/-- A call that neither loads, saves nor checks changes no mark. -/
theorem Marked.call (h : f.Marked vs) (hof : IsOf d f) {c : Call} (hload : ∀ stored, c ≠ .load stored)
    (hcommit : c ≠ .commit) (hvalidate : c ≠ .validate) : (f.call c).1.Marked vs :=
  h.congr (fixed_call hof hload hcommit hvalidate)

/-- A reaction of everything changes no mark. -/
theorem Marked.refreshed (h : f.Marked vs) (w : Wiring) (hpending : f.table.pending = []) :
    { f with table := w.refreshed f.table }.Marked vs :=
  h.congr (Wiring.accounts_refreshed hpending).fixed

theorem Marked.load (h : f.Marked vs) (hof : IsOf d f) (stored : NameMap Value) :
    (f.load stored).1.Marked vs := by
  have hrestored : { f with table := f.table.restored stored }.Marked vs := by
    intro field hfield
    obtain ⟨before, hbefore, rfl⟩ := List.mem_map.mp hfield
    exact h before hbefore
  rw [load_eq hof]
  exact (hrestored.refreshed f.wiring rfl).commit

/-- A freshly opened form has no marks. -/
theorem marked_opened (d : Definition) : d.opened.Marked [] := by
  have hdeclared : (initial d d.declared).Marked [] := by
    intro field hfield
    obtain ⟨e, -, rfl⟩ := List.mem_map.mp hfield
    rfl
  exact (hdeclared.refreshed d.wiring rfl).commit

end Marked

end Form

end FormConsole
