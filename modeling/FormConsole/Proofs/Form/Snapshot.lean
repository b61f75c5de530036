import FormConsole.Proofs.Form.Reload

/-!
# What is entered and what is saved

A form has two values for each field: the one that is entered and the one that was saved last.  Every call touches at most
one of the two columns, apart from loading.

* `Form.current`, `Form.saved`: the two columns.
* `Form.saved_call`: only loading and committing change what is saved.
* `Form.current_reset_of_unlinked`: a reset of a field that belongs to no cascade changes what is entered for that field
  only.
-/

namespace FormConsole

namespace FieldTable

/-! ## Marks and resets, field by field -/

section Writes

variable {t : FieldTable} {name other : String}

/-- Marks leave alone what does not look at them. -/
theorem map_mark {α : Type} {g : Field → α} (hg : ∀ f v, g { f with violation := v } = g f)
    (t : FieldTable) (vs : List Violation) :
    (Checks.mark t vs).fields.map g = t.fields.map g := by
  have hclear : t.clearViolations.fields.map g = t.fields.map g := by
    rw [clearViolations, List.map_map]
    exact List.map_congr_left fun f _ => hg f none
  rw [Checks.mark, ← hclear]
  generalize t.clearViolations = u
  induction vs generalizing u with
  | nil => rfl
  | cons v vs ih =>
    rw [List.foldl_cons, ih, markInvalid, modify, List.map_map]
    refine List.map_congr_left fun f _ => ?_
    simp only [Function.comp_apply]
    split
    · exact hg f _
    · rfl

theorem field?_reset (t : FieldTable) (name other : String) :
    (t.reset name).field? other = (t.field? other).map fun f =>
      if other = name then { f with value := f.decl.default, effective := f.decl.baseline } else f := by
  rw [reset, putConstraints, field?_write (by intro f; rfl), field?_write (by intro f; rfl),
    Option.map_map]
  congr 1
  funext f
  simp only [Function.comp_apply]
  split
  · rfl
  · rfl

theorem valueAt_reset_of_ne (h : other ≠ name) : (t.reset name).valueAt other = t.valueAt other := by
  rw [valueAt, field?_reset, valueAt]
  simp only [if_neg h, Option.map_id']

theorem valueAt_reset_self {f : Field} (hf : t.field? name = some f) :
    (t.reset name).valueAt name = f.decl.default := by
  rw [valueAt, field?_reset, hf]
  simp only [if_true, Option.map_some, Option.getD_some]

theorem choicesAt_reset : (t.reset name).choicesAt other = t.choicesAt other := by
  rw [choicesAt, field?_reset, choicesAt, Option.map_map]
  congr 2
  funext f
  simp only [Function.comp_apply]
  split
  · rfl
  · rfl

/-- The news of a reset are of the field that is reset. -/
theorem eq_of_mem_news_reset (hquiet : t.news = []) (hother : other ∈ (t.reset name).news) :
    other = name := by
  rw [reset, news_putConstraints] at hother
  rcases write_eq_or_pending t name .value fun f => { f with value := f.decl.default } with h | h
  · rw [h, hquiet] at hother
    exact absurd hother List.not_mem_nil
  · rw [news, h, Wiring.changedValues, List.filter_append, List.map_append] at hother
    change other ∈ t.news ++ [name] at hother
    rw [hquiet] at hother
    exact List.mem_singleton.mp hother

end Writes

end FieldTable

namespace Wiring

/-! ## Fields that belong to no cascade -/

section Unlinked

variable {w : Wiring} {t u : FieldTable} {name other : String}

variable (hfits : w.Fits t.names) (hquiet : t.news = [])
  (hunlinked : ∀ c ∈ w.cascades, name ≠ c.dependent ∧ name ∉ c.drivers)
include hfits hquiet hunlinked

/-- No cascade reads a field that belongs to none, so that the passes after its reset do nothing. -/
theorem untouched_settled_reset (other : String) :
    (w.settled (t.reset name)).valueAt other = (t.reset name).valueAt other ∧
      (w.settled (t.reset name)).choicesAt other = t.choicesAt other := by
  have hnews : ∀ m ∈ (t.reset name).news, ∀ c ∈ w.cascades, c.dependent = other →
      ∀ n ∈ c.drivers, ¬ w.Reaches m n := by
    intro m hm c hc _ n hn hreach
    have hmname := FieldTable.eq_of_mem_news_reset hquiet hm
    subst hmname
    have hnname := hreach.eq_of_undriven fun e he => (hunlinked e he).2
    exact (hunlinked c hc).2 (hnname ▸ hn)
  have hpasses := untouched_iterate_pass (hfits.congr (FieldTable.declarations_reset t name)) hnews
    maxPasses
  rw [FieldTable.choicesAt_reset] at hpasses
  rw [settled, FieldTable.valueAt_drain, FieldTable.choicesAt_drain]
  exact hpasses

/-- What cascades read and write is as before such a reset, so that the reaction of everything to it does nothing
either. -/
theorem valueAt_refreshed_reset (hcons : w.Consistent t) (other : String) :
    (w.refreshed (w.settled (t.reset name))).valueAt other = (t.reset name).valueAt other := by
  have hpasses := untouched_settled_reset hfits hquiet hunlinked
  have hsettled : w.Consistent (w.settled (t.reset name)) := by
    refine hcons.congr (fun c hc n hn => ?_) fun n => (hpasses n).2
    have hne : n ≠ name := by
      rintro rfl
      rcases List.mem_cons.mp hn with hdep | hdriver
      · exact (hunlinked c hc).1 hdep
      · exact (hunlinked c hc).2 hdriver
    rw [(hpasses n).1, FieldTable.valueAt_reset_of_ne hne]
  have hdecl : (w.settled (t.reset name)).declarations = t.declarations := by
    rw [declarations_settled, FieldTable.declarations_reset]
  have hdrained : (w.settled (t.reset name)).news = [] := FieldTable.news_drain _
  have hrefreshed := refreshed_of_consistent (hfits.congr hdecl) hsettled (fun n => Eq.refl _) hdrained
  rw [hrefreshed.1, (hpasses other).1]

end Unlinked

end Wiring

namespace Form

/-! ## Two columns of values -/

/-- What is entered: the values by name, in the order of the fields. -/
def current (f : Form) : List (String × Value) :=
  f.fields.map fun field => (field.name, field.value)

/-- What is saved: the values that were saved last. -/
def saved (f : Form) : List (String × Value) :=
  f.fields.map fun field => (field.name, field.committed)

section Columns

variable {d : Definition} {f : Form}

@[simp] theorem current_focus (f : Form) (position : Nat) : (f.focus position).current = f.current := rfl

@[simp] theorem saved_focus (f : Form) (position : Nat) : (f.focus position).saved = f.saved := rfl

@[simp] theorem current_validate (f : Form) : f.validate.1.current = f.current :=
  FieldTable.map_mark (by intro f v; rfl) f.table f.violations

@[simp] theorem saved_validate (f : Form) : f.validate.1.saved = f.saved :=
  FieldTable.map_mark (by intro f v; rfl) f.table f.violations

@[simp] theorem current_commit (f : Form) : f.commit.current = f.current := by
  simp [current, commit, fields, FieldTable.commit, Function.comp_def]

@[simp] theorem saved_commit (f : Form) : f.commit.saved = f.current := by
  simp [saved, current, commit, fields, FieldTable.commit, Function.comp_def]

/-- A call that neither loads, saves nor checks leaves alone what no change is about. -/
theorem fixed_call (h : IsOf d f) {c : Call} (hload : ∀ stored, c ≠ .load stored)
    (hcommit : c ≠ .commit) (hvalidate : c ≠ .validate) :
    (f.call c).1.fields.map Field.fixed = f.fields.map Field.fixed := by
  have hanswered : ∀ cs, f.answer c = .ok (.changes cs) →
      (f.call c).1.fields.map Field.fixed = f.fields.map Field.fixed := by
    intro cs hcs
    rw [call_eq_after h]
    exact (accounts_after h hcs).fixed
  cases c with
  | set name v =>
    by_cases hname : name ∈ f.table.names
    · exact hanswered _ (if_pos hname)
    · rw [call_eq_after h, after, if_neg hname]
  | resetToBaseline name =>
    by_cases hname : name ∈ f.table.names
    · exact hanswered _ (if_pos hname)
    · rw [call_eq_after h, after, if_neg hname]
  | setChoices name choices =>
    by_cases hname : name ∈ f.table.names
    · exact hanswered _ (if_pos hname)
    · rw [call_eq_after h, after, if_neg hname]
  | refresh => exact hanswered _ rfl
  | load stored => exact absurd rfl (hload stored)
  | commit => exact absurd rfl hcommit
  | validate => exact absurd rfl hvalidate

/-- Only loading and committing change what is saved. -/
theorem saved_call (h : IsOf d f) {c : Call} (hload : ∀ stored, c ≠ .load stored)
    (hcommit : c ≠ .commit) : (f.call c).1.saved = f.saved := by
  by_cases hvalidate : c = .validate
  · subst hvalidate
    exact saved_validate f
  · have hfixed := congrArg (List.map fun fixed => (fixed.1.name, fixed.2.1))
      (fixed_call h hload hcommit hvalidate)
    rwa [List.map_map, List.map_map] at hfixed

end Columns

/-! ## Resets -/

section Reset

variable {d : Definition} {f : Form} {name : String}

/-- A reset of a field that belongs to no cascade changes what is entered for that field only. -/
theorem current_reset_of_unlinked (h : IsOf d f) (hcons : d.wiring.Consistent f.table)
    (hname : name ∈ f.table.names)
    (hlinked : ∀ c ∈ d.cascades, name ≠ c.dependent ∧ name ∉ c.drivers) :
    (f.resetToBaseline name).1.current = f.fields.map fun field =>
      (field.name, if field.name = name then field.decl.default else field.value) := by
  have hof : IsOf d (f.resetToBaseline name).1 := h.call (.resetToBaseline name)
  have hvalues : ∀ n, (f.resetToBaseline name).1.table.valueAt n = (f.table.reset name).valueAt n := by
    rw [resetToBaseline_of_mem h hname]
    rw [← h.wiring] at hcons
    refine Wiring.valueAt_refreshed_reset h.fits h.news (fun c hc => ?_) hcons
    rw [h.wiring] at hc
    exact hlinked c hc
  have hrelated := FieldTable.forall₂_fields h.nodup
    (hof.declarations.trans h.declarations.symm)
    (R := fun field field' => (field'.name, field'.value) =
      (field.name, if field.name = name then field.decl.default else field.value)) ?_
  · rw [current, fields, ← List.forall₂_eq_eq_eq, List.forall₂_map_left_iff, List.forall₂_map_right_iff]
    exact hrelated.flip
  · intro other field field' hfield hfield' hdecl
    have hother := FieldTable.name_of_field? hfield
    have hvalue := hvalues other
    rw [FieldTable.valueAt_of_field? hfield'] at hvalue
    subst hother
    rw [Field.name, hdecl, hvalue]
    by_cases heq : field.name = name
    · subst heq
      rw [FieldTable.valueAt_reset_self hfield, if_pos rfl]
    · rw [FieldTable.valueAt_reset_of_ne heq, FieldTable.valueAt_of_field? hfield, if_neg heq]

end Reset

end Form

end FormConsole
