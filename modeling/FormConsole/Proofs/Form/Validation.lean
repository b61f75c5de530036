import FormConsole.Proofs.Form.Acceptance
import FormConsole.Proofs.Form.Marks
import Mathlib.Data.List.DropRight

/-!
# What a check finds

A check asks for missing values first, and only if there are none for values that do not go together.  What it finds is
said here without it: which fields are missing, and which exclusions and confirmations are violated.  It reads no marks
and writes nothing else, so that a second check finds and marks the same.

* `Field.Missing`, `Exclusion.Violated`, `Confirmation.Violated`: what can be wrong.
* `Checks.violations_of_missing`, `Checks.violations_of_complete`: the two stages of a check.
* `Form.unmarked`: a form without its marks, which is all that a check reads (`Form.validate_unmarked`) and leaves alone
  (`Form.unmarked_validate`).
* `Form.validation_exact`: the check of any form in use.
-/

namespace FormConsole

/-! ## What can be wrong -/

section Wrong

/-- Nothing is entered: a text of which nothing is left without the white space at its ends, or a list without items. -/
def Value.Blank (v : Value) : Prop :=
  (∃ s : String, v = .text s ∧ Text.trim s.toList = []) ∨ v = .list []

/-- Nothing is left of a text exactly if all of it is white space. -/
theorem Text.trim_eq_nil_iff (cs : List Char) : Text.trim cs = [] ↔ cs.all Text.isWhiteSpace = true := by
  rw [Text.trim, List.reverse_eq_nil_iff, List.dropWhile_eq_nil_iff]
  simp only [List.mem_reverse]
  rw [← List.dropWhile_eq_nil_iff, List.dropWhile_idempotent, List.dropWhile_eq_nil_iff, List.all_eq_true]

theorem Value.isBlank_iff {v : Value} : v.isBlank = true ↔ v.Blank := by
  cases v with
  | text s => simp [isBlank, Blank, Text.isBlank, Text.trim_eq_nil_iff]
  | list items => simp [isBlank, Blank]
  | _ => simp [isBlank, Blank]

/-- The field must not stay blank by its effective constraints, and it is. -/
def Field.Missing (field : Field) : Prop :=
  field.effective.allowBlank = false ∧ field.value.Blank

theorem Field.missing_iff {field : Field} :
    (field.effective.isRequired && field.value.isBlank) = true ↔ field.Missing := by
  rw [Bool.and_eq_true, Constraints.isRequired, Bool.not_eq_true', Value.isBlank_iff]
  rfl

instance (field : Field) : Decidable field.Missing :=
  decidable_of_iff _ Field.missing_iff

/-- The wildcard field holds the sentinel while the flag is set. -/
def Exclusion.Violated (e : Exclusion) (t : FieldTable) : Prop :=
  t.valueAt e.wildcard = e.sentinel ∧ t.valueAt e.flag = .bool true

/-- The two fields hold different values. -/
def Confirmation.Violated (m : Confirmation) (t : FieldTable) : Prop :=
  t.valueAt m.field ≠ t.valueAt m.confirm

theorem Value.isTrue_iff {v : Value} : v.isTrue = true ↔ v = .bool true := by
  cases v <;> simp [isTrue]

end Wrong

/-! ## What a check finds -/

namespace Checks

section Found

variable {c : Checks} {t : FieldTable} {v : Violation}

/-- An exclusion of declared fields answers whether it is violated. -/
theorem answeredYes_exclusion {e : Exclusion} (hw : e.wildcard ∈ t.names) (hflag : e.flag ∈ t.names) :
    answeredYes (e.isViolated t) = true ↔ e.Violated t := by
  unfold Exclusion.isViolated Exclusion.Violated
  rw [FieldTable.valueOf_of_mem hw, FieldTable.valueOf_of_mem hflag, ← Value.isTrue_iff]
  by_cases hsentinel : t.valueAt e.wildcard = e.sentinel
  · simp [bind, Except.bind, hsentinel, pure, Except.pure, answeredYes]
  · simp [bind, Except.bind, hsentinel, pure, Except.pure, answeredYes]

/-- A confirmation of declared fields does as well. -/
theorem answeredYes_confirmation {m : Confirmation} (hfield : m.field ∈ t.names)
    (hconfirm : m.confirm ∈ t.names) : answeredYes (m.isViolated t) = true ↔ m.Violated t := by
  unfold Confirmation.isViolated Confirmation.Violated
  rw [FieldTable.valueOf_of_mem hfield, FieldTable.valueOf_of_mem hconfirm]
  simp [bind, Except.bind, pure, Except.pure, answeredYes]

/-- Across fields, what is wrong are both members of what is violated. -/
theorem mem_crossViolations_iff (hfits : c.Fits t.names) : v ∈ c.crossViolations t ↔
    (∃ e ∈ c.exclusions, e.Violated t ∧ v ∈ e.violations) ∨
      ∃ m ∈ c.confirmations, m.Violated t ∧ v ∈ m.violations := by
  simp only [crossViolations, List.mem_append, List.mem_flatMap, List.mem_filter, and_assoc]
  refine or_congr (exists_congr fun e => and_congr_right fun he => ?_)
    (exists_congr fun m => and_congr_right fun hm => ?_)
  · obtain ⟨hw, hflag⟩ := hfits.exclusions e he
    rw [answeredYes_exclusion hw hflag]
  · obtain ⟨hfield, hconfirm⟩ := hfits.confirmations m hm
    rw [answeredYes_confirmation hfield hconfirm]

/-- A field is named if it is a member of something that is violated. -/
theorem exists_mem_crossViolations_iff (hfits : c.Fits t.names) (name : String) :
    (∃ v ∈ c.crossViolations t, v.field = name) ↔
      (∃ e ∈ c.exclusions, e.Violated t ∧ (name = e.wildcard ∨ name = e.flag)) ∨
        ∃ m ∈ c.confirmations, m.Violated t ∧ (name = m.field ∨ name = m.confirm) := by
  have hexclusion : ∀ e : Exclusion, (∃ v ∈ e.violations, v.field = name) ↔ name = e.wildcard ∨ name = e.flag := by
    intro e
    simp [Exclusion.violations, eq_comm]
  have hconfirmation : ∀ m : Confirmation,
      (∃ v ∈ m.violations, v.field = name) ↔ name = m.field ∨ name = m.confirm := by
    intro m
    simp [Confirmation.violations, eq_comm]
  simp only [mem_crossViolations_iff hfits, ← hexclusion, ← hconfirmation]
  constructor
  · rintro ⟨v, ⟨e, he, hviolated, hv⟩ | ⟨m, hm, hviolated, hv⟩, hname⟩
    · exact Or.inl ⟨e, he, hviolated, v, hv, hname⟩
    · exact Or.inr ⟨m, hm, hviolated, v, hv, hname⟩
  · rintro (⟨e, he, hviolated, v, hv, hname⟩ | ⟨m, hm, hviolated, v, hv, hname⟩)
    · exact ⟨v, Or.inl ⟨e, he, hviolated, hv⟩, hname⟩
    · exact ⟨v, Or.inr ⟨m, hm, hviolated, hv⟩, hname⟩

/-- Nothing is wrong across fields if nothing is violated. -/
theorem crossViolations_eq_nil_iff (hfits : c.Fits t.names) : c.crossViolations t = [] ↔
    (∀ e ∈ c.exclusions, ¬ e.Violated t) ∧ ∀ m ∈ c.confirmations, ¬ m.Violated t := by
  simp only [List.eq_nil_iff_forall_not_mem, mem_crossViolations_iff hfits]
  constructor
  · intro h
    exact ⟨fun e he hviolated => h _ (Or.inl ⟨e, he, hviolated, List.mem_cons_self⟩),
      fun m hm hviolated => h _ (Or.inr ⟨m, hm, hviolated, List.mem_cons_self⟩)⟩
  · rintro ⟨hexclusions, hconfirmations⟩ v (⟨e, he, hviolated, -⟩ | ⟨m, hm, hviolated, -⟩)
    · exact hexclusions e he hviolated
    · exact hconfirmations m hm hviolated

theorem blankFields_eq (t : FieldTable) : blankFields t =
    (t.fields.filter fun field => field.Missing).map fun field => ⟨field.name, missing⟩ := by
  have hfilter : ∀ field ∈ t.fields,
      (field.effective.isRequired && field.value.isBlank) = decide field.Missing :=
    fun field _ => Bool.eq_iff_iff.mpr (Field.missing_iff.trans decide_eq_true_iff.symm)
  rw [blankFields, List.filter_congr hfilter]

theorem blankFields_eq_nil_iff : blankFields t = [] ↔ ∀ field ∈ t.fields, ¬ field.Missing := by
  simp [blankFields_eq, List.filter_eq_nil_iff]

/-- As long as a value is missing, that is all that is found. -/
theorem violations_of_missing (h : ∃ field ∈ t.fields, field.Missing) : c.violations t =
    (t.fields.filter fun field => field.Missing).map fun field => ⟨field.name, missing⟩ := by
  obtain ⟨field, hfield, hmissing⟩ := h
  rw [← blankFields_eq, violations]
  split
  · next hnil => exact absurd hmissing (blankFields_eq_nil_iff.mp hnil field hfield)
  · rfl

/-- If no value is missing, what is found is wrong across fields. -/
theorem violations_of_complete (h : ∀ field ∈ t.fields, ¬ field.Missing) :
    c.violations t = c.crossViolations t := by
  rw [violations, blankFields_eq_nil_iff.mpr h]

/-- Nothing is wrong if no value is missing and nothing is violated. -/
theorem violations_eq_nil_iff (hfits : c.Fits t.names) : c.violations t = [] ↔
    (∀ field ∈ t.fields, ¬ field.Missing) ∧ (∀ e ∈ c.exclusions, ¬ e.Violated t) ∧
      ∀ m ∈ c.confirmations, ¬ m.Violated t := by
  by_cases hmissing : ∃ field ∈ t.fields, field.Missing
  · obtain ⟨field, hfield, hblank⟩ := hmissing
    rw [violations_of_missing ⟨field, hfield, hblank⟩, List.map_eq_nil_iff, List.filter_eq_nil_iff]
    constructor
    · intro hnone
      exact absurd (decide_eq_true hblank) (hnone field hfield)
    · rintro ⟨hcomplete, -⟩
      exact absurd hblank (hcomplete field hfield)
  · have hcomplete : ∀ field ∈ t.fields, ¬ field.Missing := fun field hfield hblank =>
      hmissing ⟨field, hfield, hblank⟩
    rw [violations_of_complete hcomplete, crossViolations_eq_nil_iff hfits]
    exact ⟨fun h => ⟨hcomplete, h⟩, fun h => h.2⟩

end Found

end Checks

/-! ## Forms without their marks -/

theorem FieldTable.clearViolations_mark (t : FieldTable) (vs : List Violation) :
    (Checks.mark t vs).clearViolations = t.clearViolations := by
  have hfields : (Checks.mark t vs).clearViolations.fields = t.clearViolations.fields := by
    rw [clearViolations, clearViolations, Checks.fields_mark, List.map_map]
    rfl
  have hpending : (Checks.mark t vs).pending = t.pending := (alike_mark t vs).pending
  exact congrArg₂ FieldTable.mk hfields hpending

@[simp] theorem FieldTable.clearViolations_clearViolations (t : FieldTable) :
    t.clearViolations.clearViolations = t.clearViolations := by
  rw [clearViolations, clearViolations, List.map_map]
  rfl

/-- The checks of a form in use mention declared fields only. -/
theorem InUse.fits_checks {d : Definition} {f : Form} (h : InUse d f) : d.checks.Fits f.table.names := by
  obtain ⟨g, -, ⟨form, -, hbuild, -⟩, -⟩ := h.exists_reachable
  rw [h.isOf.names]
  exact (Form.build_eq_ok_iff_wellFormed.mp ⟨form, hbuild⟩).checks

namespace Form

section Unmarked

/-- The form without the marks on its fields. -/
def unmarked (f : Form) : Form :=
  { f with table := f.table.clearViolations }

theorem violations_unmarked (f : Form) : f.unmarked.violations = f.violations := by
  have halike : FieldTable.Alike f.table f.table.clearViolations := FieldTable.alike_map fun _ => rfl
  exact halike.violations f.checks

/-- Marks make no difference to a check. -/
theorem validate_unmarked (f : Form) : f.unmarked.validate = f.validate := by
  have hmarked : ∀ vs, Checks.mark f.unmarked.table vs = Checks.mark f.table vs := by
    intro vs
    rw [Checks.mark, Checks.mark, unmarked, FieldTable.clearViolations_clearViolations]
  rw [validate, validate, violations_unmarked, hmarked]
  rfl

/-- A check makes no difference but to marks. -/
theorem unmarked_validate (f : Form) : f.validate.1.unmarked = f.unmarked := by
  rw [unmarked, unmarked, validate, FieldTable.clearViolations_mark]

/-- So forms that differ in their marks only are found and marked the same. -/
theorem validate_congr {f g : Form} (h : g.unmarked = f.unmarked) : g.validate = f.validate := by
  rw [← validate_unmarked g, h, validate_unmarked]

end Unmarked

/-! ## Forms in use -/

section Validation

variable {d : Definition} {f : Form}

/-- Validation is exact, looks at nothing but the form as it is, and leaves no trace but marks.  The checks mention declared
fields only.  Nothing is found exactly if no value is missing, no exclusion has its wildcard field at the sentinel together
with a set flag, and every confirmation has equal values.  If no value is missing, exactly the members of what is violated
are named; otherwise exactly the fields with missing values, once each and in order.  After a check each field is marked
with the first message about it in the list that the check answers, or not marked if there is none; nothing but marks has
changed; forms that differ in their marks only come out the same; and so does a second check. -/
theorem validation_exact (h : InUse d f) :
    d.checks.Fits f.table.names ∧
    (f.violations = [] ↔ (∀ field ∈ f.fields, ¬ field.Missing) ∧
      (∀ e ∈ d.checks.exclusions, ¬ e.Violated f.table) ∧
      ∀ m ∈ d.checks.confirmations, ¬ m.Violated f.table) ∧
    ((∀ field ∈ f.fields, ¬ field.Missing) → ∀ name, (∃ v ∈ f.violations, v.field = name) ↔
      (∃ e ∈ d.checks.exclusions, e.Violated f.table ∧ (name = e.wildcard ∨ name = e.flag)) ∨
        ∃ m ∈ d.checks.confirmations, m.Violated f.table ∧ (name = m.field ∨ name = m.confirm)) ∧
    ((∃ field ∈ f.fields, field.Missing) →
      f.violations.map (·.field) = (f.fields.filter fun field => field.Missing).map (·.name) ∧
        (f.violations.map (·.field)).Nodup) ∧
    f.validate.2 = f.violations ∧
    (∀ field ∈ f.validate.1.fields, field.violation =
      (f.validate.2.find? fun v => v.field == field.name).map (·.message)) ∧
    f.validate.1.unmarked = f.unmarked ∧
    (∀ g : Form, g.unmarked = f.unmarked → g.validate = f.validate) ∧
    f.validate.1.validate = f.validate := by
  have hfits := h.fits_checks
  have hviolations : f.violations = d.checks.violations f.table := by rw [violations, h.checks_eq]
  refine ⟨hfits, ?_, fun hcomplete name => ?_, fun hmissing => ?_, rfl, fun field hfield => ?_,
    unmarked_validate f, fun g hg => validate_congr hg, validate_congr (unmarked_validate f)⟩
  · rw [hviolations]
    exact Checks.violations_eq_nil_iff hfits
  · rw [hviolations, Checks.violations_of_complete hcomplete]
    exact Checks.exists_mem_crossViolations_iff hfits name
  · have hnames : f.violations.map (·.field) = (f.fields.filter fun field => field.Missing).map (·.name) := by
      rw [hviolations, Checks.violations_of_missing hmissing, List.map_map]
      rfl
    have hsublist : ((f.fields.filter fun field => field.Missing).map (·.name)).Sublist f.table.names :=
      List.filter_sublist.map _
    refine ⟨hnames, ?_⟩
    rw [hnames]
    exact h.isOf.nodup.sublist hsublist
  · exact marked_validate f field hfield

/-- A time of day with a rule against ranges and a repeated minute. -/
def timeDefinition : Definition where
  title := "Time"
  declarations := [(Declaration.text "minute" "Minute").required, .checkbox "every" "Every" true,
    .text "again" "Minute again"]
  rules := []
  cascades := []
  checks := ⟨[.between "minute" "every" (.text "*")], [⟨"minute", "again", "Minutes differ"⟩]⟩

/-- The wildcard is entered after a check missed the minute. -/
def timeForm : Form :=
  timeDefinition.opened.run [.validate, .set "minute" (.text "*")]

/-- The minute belongs to both checks; it keeps the message of the first one, and loses that of the earlier run. -/
theorem validation_exact_time : InUse timeDefinition timeForm ∧
    timeForm.fields.map (·.violation) = [some Checks.missing, none, none] ∧
    (∀ field ∈ timeForm.fields, ¬ field.Missing) ∧ (∃ v ∈ timeForm.violations, v.field = "again") ∧
    timeForm.validate.1.fields.map (·.violation) =
      [some "Ranges of numbers are not allowed", some "Ranges of numbers are not allowed", some "Minutes differ"] ∧
    timeForm.validate.1.validate = timeForm.validate := by
  have hbuild : build timeDefinition = .ok timeDefinition.opened :=
    build_of_checkParts (by decide +kernel) (by decide +kernel)
  have huse : InUse timeDefinition timeForm := .of_reachable ⟨_, _, hbuild, rfl⟩
  have hcomplete : ∀ field ∈ timeForm.fields, ¬ field.Missing := by decide +kernel
  have hviolated : (⟨"minute", "again", "Minutes differ"⟩ : Confirmation).Violated timeForm.table := by
    unfold Confirmation.Violated
    decide +kernel
  obtain ⟨-, -, hnamed, -, -, -, -, -, hagain⟩ := validation_exact huse
  refine ⟨huse, by decide +kernel, hcomplete, ?_, by decide +kernel, hagain⟩
  exact (hnamed hcomplete "again").mpr (Or.inr ⟨_, List.mem_singleton.mpr rfl, hviolated, Or.inr rfl⟩)

end Validation

end Form

end FormConsole
