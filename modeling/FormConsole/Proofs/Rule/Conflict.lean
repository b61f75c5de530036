import FormConsole.Proofs.Field.Edit

/-!
# Sound rule sets

What a rule set that passes its check promises: its rules mention declared names only, and of two rules that
hold under the same values at most one claims a given property of a given field.

* `Rule.Holds`: the conditions of a rule hold of the values of a table.
* `RuleSet.Fits`: all names that the rules mention are declared.
* `RuleSet.pairwise_apart_of_check`: accepted rules that share a claim cannot apply at once.
-/

namespace FormConsole

namespace Rule

section Holds

variable {r s : Rule} {t : FieldTable}

/-- The values of a table meet all conditions of a rule. -/
def Holds (r : Rule) (t : FieldTable) : Prop :=
  ∀ c ∈ r.conditions, c.spec.accepts (t.valueAt c.field) = true

instance (r : Rule) (t : FieldTable) : Decidable (r.Holds t) :=
  inferInstanceAs (Decidable (∀ c ∈ r.conditions, c.spec.accepts (t.valueAt c.field) = true))

/-- Whether a rule holds depends on the values of the fields that it has conditions on. -/
theorem holds_congr {t' : FieldTable}
    (h : ∀ c ∈ r.conditions, t'.valueAt c.field = t.valueAt c.field) : r.Holds t' ↔ r.Holds t := by
  refine forall₂_congr fun c hc => ?_
  rw [h c hc]

theorem conditionsHold_of_mem {cs : List Condition} (h : ∀ c ∈ cs, c.field ∈ t.names) :
    conditionsHold t cs =
      .ok (decide (∀ c ∈ cs, c.spec.accepts (t.valueAt c.field) = true)) := by
  induction cs with
  | nil => simp [conditionsHold]
  | cons c cs ih =>
    have hrest := ih fun d hd => h d (by simp [hd])
    rw [conditionsHold, FieldTable.valueOf_of_mem (h c (by simp))]
    by_cases hc : c.spec.accepts (t.valueAt c.field) = true
    · simp [bind, Except.bind, hc, hrest]
    · simp [bind, Except.bind, hc, pure, Except.pure]

/-- The library's own test says whether a rule holds. -/
theorem isSatisfied_of_mem (h : ∀ c ∈ r.conditions, c.field ∈ t.names) :
    r.isSatisfied t = .ok (decide (r.Holds t)) :=
  conditionsHold_of_mem h

end Holds

end Rule

/-! ## Rules that can apply at once -/

section Overlap

/-- Conditions that some assignment of values meets are compatible. -/
theorem compatible_of_accepts {cs : List Condition} (assignment : String → Value)
    (h : ∀ c ∈ cs, c.spec.accepts (assignment c.field) = true) : compatible cs = true := by
  rw [compatible, List.all_eq_true]
  intro c hc
  have hmem : c.spec ∈ specsOn c.field cs :=
    List.mem_map.mpr ⟨c, List.mem_filter.mpr ⟨hc, by simp⟩, rfl⟩
  refine (satisfiable_iff (List.ne_nil_of_mem hmem)).mpr ⟨assignment c.field, ?_⟩
  intro s hs
  obtain ⟨d, hd, rfl⟩ := List.mem_map.mp hs
  obtain ⟨hd, hfield⟩ := List.mem_filter.mp hd
  have hfield : d.field = c.field := by simpa using hfield
  rw [← hfield]
  exact h d hd

theorem canOverlap_of_holds {r s : Rule} {t : FieldTable} (hr : r.Holds t) (hs : s.Holds t) :
    r.canOverlap s = true := by
  refine compatible_of_accepts t.valueAt ?_
  intro c hc
  rcases List.mem_append.mp hc with hc | hc
  · exact hr c hc
  · exact hs c hc

/-- The rules share no claim, or they cannot apply at once. -/
def Rule.Apart (r s : Rule) : Prop :=
  ∀ c ∈ r.claims, c ∈ s.claims → r.canOverlap s = false

end Overlap

/-! ## The check -/

namespace RuleSet

/-- All names that the rules mention are among these. -/
structure Fits (rules : RuleSet) (names : List String) : Prop where
  targets : ∀ r ∈ rules, ∀ n ∈ r.targets, n ∈ names
  conditions : ∀ r ∈ rules, ∀ c ∈ r.conditions, c.field ∈ names

section Check

variable {rules : RuleSet} {t : FieldTable}

theorem conflictWith?_eq_none_iff {first second : Rule × Nat} :
    conflictWith? first second = none ↔ first.1.Apart second.1 := by
  unfold conflictWith? Rule.Apart
  split
  · next c hc =>
    have hsecond := List.mem_of_find?_eq_some hc
    have hfirst : c ∈ first.1.claims := by simpa using List.find?_some hc
    by_cases h : first.1.canOverlap second.1 = true
    · simp only [h, if_true, reduceCtorEq, false_iff]
      exact fun hapart => absurd (hapart c hfirst hsecond) (by simp)
    · simp [h]
  · next hc =>
    rw [List.find?_eq_none] at hc
    simp only [true_iff]
    intro c hfirst hsecond
    exact absurd hfirst (by simpa using hc c hsecond)

theorem firstConflict?_eq_none_iff {numbered : List (Rule × Nat)} :
    firstConflict? numbered = none ↔ numbered.Pairwise fun r s => r.1.Apart s.1 := by
  induction numbered with
  | nil => simp [firstConflict?]
  | cons r rs ih =>
    rw [firstConflict?, Option.or_eq_none_iff, List.findSome?_eq_none_iff, List.pairwise_cons, ih]
    simp only [conflictWith?_eq_none_iff]

theorem conflict?_eq_none_iff : rules.conflict? = none ↔ rules.Pairwise Rule.Apart := by
  rw [conflict?, firstConflict?_eq_none_iff, ← List.pairwise_map (f := Prod.fst),
    List.zipIdx_map_fst]

theorem check_eq_ok_iff : rules.check t = .ok () ↔
    (∀ r ∈ rules.zipIdx, checkRule t r.2 r.1 = .ok ()) ∧ rules.conflict? = none := by
  rw [check, ← forM_eq_ok_iff]
  cases hnames : rules.zipIdx.forM fun r => checkRule t r.2 r.1 with
  | error e => simp [bind, Except.bind]
  | ok u =>
    cases hconflict : rules.conflict? with
    | none => simp [bind, Except.bind, pure, Except.pure]
    | some e => simp [bind, Except.bind, throw, throwThe, MonadExceptOf.throw]

/-- Accepted rules mention declared names only. -/
theorem fits_of_check (h : rules.check t = .ok ()) : rules.Fits t.names := by
  have hnames : ∀ r ∈ rules, ∀ n ∈ r.targets ++ r.conditions.map (·.field), n ∈ t.names := by
    intro r hr n hn
    rw [← List.zipIdx_map_fst 0 rules] at hr
    obtain ⟨numbered, hmem, rfl⟩ := List.mem_map.mp hr
    have hrule := (check_eq_ok_iff.mp h).1 numbered hmem
    unfold checkRule at hrule
    split at hrule
    · simp at hrule
    · exact FieldTable.require_eq_ok_iff.mp (forM_eq_ok_iff.mp hrule n hn)
  refine ⟨?_, ?_⟩
  · intro r hr n hn
    exact hnames r hr n (List.mem_append_left _ hn)
  · intro r hr c hc
    exact hnames r hr c.field (List.mem_append_right _ (List.mem_map.mpr ⟨c, hc, rfl⟩))

/-- Accepted rules that share a claim cannot apply at once. -/
theorem pairwise_apart_of_check (h : rules.check t = .ok ()) : rules.Pairwise Rule.Apart :=
  conflict?_eq_none_iff.mp (check_eq_ok_iff.mp h).2

end Check

end RuleSet

end FormConsole
