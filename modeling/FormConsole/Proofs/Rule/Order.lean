import FormConsole.Proofs.Rule.Exactness
import FormConsole.Proofs.Rule.Evaluation

/-!
# Rules are declarative

An evaluation lets later writes win, but among accepted rules at most one that holds writes a claim, and its
operations keep their order. So it does not matter in which order the rules stand, and within a rule the
targets and the conditions.

* `RuleSet.Reordered.check`: the rules in another order are accepted as well.
* `RuleSet.Reordered.evaluated`: they do the same to every table.
-/

namespace FormConsole

/-! ## One rule -/

namespace Rule

/-- The same rule, with its targets and its conditions in another order. -/
structure Reordered (r r' : Rule) : Prop where
  targets : r.targets.Perm r'.targets
  conditions : r.conditions.Perm r'.conditions
  ops : r'.ops = r.ops

/-- The rule with its targets and its conditions backwards. -/
def backward (r : Rule) : Rule :=
  { r with targets := r.targets.reverse, conditions := r.conditions.reverse }

section Reordered

variable {r r' s s' : Rule}

theorem reordered_backward (r : Rule) : r.Reordered r.backward :=
  ⟨(List.reverse_perm _).symm, (List.reverse_perm _).symm, rfl⟩

theorem Collides.symm (h : r.Collides s) : s.Collides r := by
  obtain ⟨⟨c, hr, hs⟩, assignment, hmet, hmet'⟩ := h
  exact ⟨⟨c, hs, hr⟩, assignment, hmet', hmet⟩

theorem Apart.symm (h : r.Apart s) : s.Apart r := by
  rw [apart_iff_not_collides] at h ⊢
  exact fun hcollides => h hcollides.symm

namespace Reordered

theorem symm (h : r.Reordered r') : r'.Reordered r :=
  ⟨h.targets.symm, h.conditions.symm, h.ops.symm⟩

theorem metBy_iff (h : r.Reordered r') (assignment : String → Value) :
    r'.MetBy assignment ↔ r.MetBy assignment := by
  constructor
  · intro hmet c hc
    exact hmet c (h.conditions.mem_iff.mp hc)
  · intro hmet c hc
    exact hmet c (h.conditions.mem_iff.mpr hc)

theorem holds_iff (h : r.Reordered r') (t : FieldTable) : r'.Holds t ↔ r.Holds t :=
  h.metBy_iff t.valueAt

theorem mem_claims_iff (h : r.Reordered r') (c : Claim) : c ∈ r'.claims ↔ c ∈ r.claims := by
  obtain ⟨field, p⟩ := c
  rw [mem_claims, mem_claims, h.targets.mem_iff, h.ops]

theorem collides_iff (hr : r.Reordered r') (hs : s.Reordered s') :
    r'.Collides s' ↔ r.Collides s := by
  simp only [Collides, hr.mem_claims_iff, hs.mem_claims_iff, hr.metBy_iff, hs.metBy_iff]

theorem apart (hr : r.Reordered r') (hs : s.Reordered s') (h : r.Apart s) : r'.Apart s' := by
  rw [apart_iff_not_collides] at h ⊢
  rwa [hr.collides_iff hs]

/-- The last operation on a property is the same, and so is what is written last for it. -/
theorem lastWrite?_writes_eq (h : r.Reordered r') {c : Claim} (hc : c ∈ r.claims) :
    lastWrite? r'.writes c = lastWrite? r.writes c := by
  obtain ⟨field, p⟩ := c
  obtain ⟨htarget, -⟩ := mem_claims.mp hc
  have htarget' : field ∈ r'.targets := h.targets.mem_iff.mp htarget
  rw [lastWrite?_writes htarget, lastWrite?_writes htarget', lastState?, lastState?, h.ops]

end Reordered

end Reordered

end Rule

/-! ## Rule sets -/

namespace RuleSet

/-- The same rules in another order, each of them with its targets and its conditions in another order. -/
def Reordered (rules rules' : RuleSet) : Prop :=
  ∃ between : RuleSet, rules.Perm between ∧ List.Forall₂ Rule.Reordered between rules'

theorem reordered_backward (rules : RuleSet) :
    rules.Reordered (rules.reverse.map Rule.backward) := by
  refine ⟨rules.reverse, (List.reverse_perm _).symm, ?_⟩
  rw [List.forall₂_map_right_iff, List.forall₂_same]
  exact fun r _ => r.reordered_backward

namespace Reordered

variable {rules rules' : RuleSet} {t : FieldTable}

theorem exists_of_mem (h : rules.Reordered rules') {r : Rule} (hr : r ∈ rules) :
    ∃ r' ∈ rules', r.Reordered r' := by
  obtain ⟨between, hperm, hrules⟩ := h
  have hmem : r ∈ between := hperm.mem_iff.mp hr
  clear hperm hr
  induction hrules with
  | nil => exact absurd hmem List.not_mem_nil
  | cons hs _ ih =>
    rcases List.mem_cons.mp hmem with rfl | hmem
    · exact ⟨_, List.mem_cons_self, hs⟩
    · obtain ⟨r', hr', hreordered⟩ := ih hmem
      exact ⟨r', List.mem_cons_of_mem _ hr', hreordered⟩

theorem symm (h : rules.Reordered rules') : rules'.Reordered rules := by
  obtain ⟨between, hperm, hrules⟩ := h
  obtain ⟨between', hrules', hperm'⟩ := List.perm_comp_forall₂ hperm hrules
  refine ⟨between', hperm'.symm, List.Forall₂.flip ?_⟩
  exact hrules'.imp fun r r' hr => hr.symm

theorem exists_of_mem_right (h : rules.Reordered rules') {r' : Rule} (hr' : r' ∈ rules') :
    ∃ r ∈ rules, r.Reordered r' := by
  obtain ⟨r, hr, hreordered⟩ := h.symm.exists_of_mem hr'
  exact ⟨r, hr, hreordered.symm⟩

theorem pairwise_apart (h : rules.Reordered rules') (hapart : rules.Pairwise Rule.Apart) :
    rules'.Pairwise Rule.Apart := by
  obtain ⟨between, hperm, hrules⟩ := h
  have hbetween : between.Pairwise Rule.Apart :=
    (hperm.pairwise_iff fun h => h.symm).mp hapart
  clear hperm
  induction hrules with
  | nil => exact List.Pairwise.nil
  | cons hr hrest ih =>
    obtain ⟨hfirst, hbetween⟩ := List.pairwise_cons.mp hbetween
    refine List.pairwise_cons.mpr ⟨fun s' hs' => ?_, ih hbetween⟩
    obtain ⟨s, hs, hreordered⟩ := exists_of_mem_right ⟨_, List.Perm.refl _, hrest⟩ hs'
    exact hr.apart hreordered (hfirst s hs)

theorem sound (h : rules.Reordered rules') {names : List String} (hsound : rules.Sound names) :
    rules'.Sound names := by
  refine ⟨?_, ⟨?_, ?_⟩, h.pairwise_apart hsound.apart⟩
  · intro r' hr'
    obtain ⟨r, hr, hreordered⟩ := h.exists_of_mem_right hr'
    obtain ⟨htargets, hops⟩ := hsound.complete r hr
    rw [hreordered.ops]
    exact ⟨fun hnil => htargets (List.Perm.eq_nil (hnil ▸ hreordered.targets)), hops⟩
  · intro r' hr' n hn
    obtain ⟨r, hr, hreordered⟩ := h.exists_of_mem_right hr'
    exact hsound.fits.targets r hr n (hreordered.targets.mem_iff.mpr hn)
  · intro r' hr' c hc
    obtain ⟨r, hr, hreordered⟩ := h.exists_of_mem_right hr'
    exact hsound.fits.conditions r hr c (hreordered.conditions.mem_iff.mpr hc)

/-- Accepted rules are accepted in any other order. -/
theorem check (h : rules.Reordered rules') (hcheck : rules.check t = .ok ()) :
    rules'.check t = .ok () :=
  check_eq_ok_iff_sound.mpr (h.sound (check_eq_ok_iff_sound.mp hcheck))

theorem claims_eq (h : rules.Reordered rules') : rules'.claims = rules.claims := by
  refine Claim.sorted_congr fun c => ?_
  rw [List.mem_flatMap, List.mem_flatMap]
  constructor
  · rintro ⟨r', hr', hc⟩
    obtain ⟨r, hr, hreordered⟩ := h.exists_of_mem_right hr'
    exact ⟨r, hr, (hreordered.mem_claims_iff c).mp hc⟩
  · rintro ⟨r, hr, hc⟩
    obtain ⟨r', hr', hreordered⟩ := h.exists_of_mem hr
    exact ⟨r', hr', (hreordered.mem_claims_iff c).mpr hc⟩

theorem watches_eq (h : rules.Reordered rules') (name : String) :
    rules'.watches name = rules.watches name := by
  rw [Bool.eq_iff_iff, watches_iff, watches_iff]
  constructor
  · rintro ⟨r', hr', c, hc, hname⟩
    obtain ⟨r, hr, hreordered⟩ := h.exists_of_mem_right hr'
    exact ⟨r, hr, c, hreordered.conditions.mem_iff.mpr hc, hname⟩
  · rintro ⟨r, hr, c, hc, hname⟩
    obtain ⟨r', hr', hreordered⟩ := h.exists_of_mem hr
    exact ⟨r', hr', c, hreordered.conditions.mem_iff.mp hc, hname⟩

/-- The state that is written last for a claim is that of the one rule that holds and claims it. -/
theorem lastWrite?_applied (h : rules.Reordered rules') (hapart : rules.Pairwise Rule.Apart)
    (t : FieldTable) (c : Claim) :
    lastWrite? (rules'.applied t) c = lastWrite? (rules.applied t) c := by
  by_cases hclaimed : ∃ r ∈ rules, r.Holds t ∧ c ∈ r.claims
  · obtain ⟨r, hr, hholds, hc⟩ := hclaimed
    obtain ⟨r', hr', hreordered⟩ := h.exists_of_mem hr
    have hholds' : r'.Holds t := (hreordered.holds_iff t).mpr hholds
    have hc' : c ∈ r'.claims := (hreordered.mem_claims_iff c).mpr hc
    rw [lastWrite?_of_holds hapart hr hholds hc,
      lastWrite?_of_holds (h.pairwise_apart hapart) hr' hholds' hc',
      hreordered.lastWrite?_writes_eq hc]
  · have hsilent : ∀ r ∈ rules, r.Holds t → c ∉ r.claims :=
      fun r hr hholds hc => hclaimed ⟨r, hr, hholds, hc⟩
    have hsilent' : ∀ r' ∈ rules', r'.Holds t → c ∉ r'.claims := by
      intro r' hr' hholds' hc'
      obtain ⟨r, hr, hreordered⟩ := h.exists_of_mem_right hr'
      exact hsilent r hr ((hreordered.holds_iff t).mp hholds')
        ((hreordered.mem_claims_iff c).mp hc')
    rw [lastWrite?_of_silent hsilent, lastWrite?_of_silent hsilent']

/-- Accepted rules do the same to every table in any other order. -/
theorem evaluated (h : rules.Reordered rules') (hapart : rules.Pairwise Rule.Apart)
    (t : FieldTable) : rules'.evaluated t = rules.evaluated t := by
  have hstate : putState (rules'.applied t) = putState (rules.applied t) := by
    funext u c
    simp only [putState, claimState, h.lastWrite?_applied hapart]
  rw [RuleSet.evaluated, RuleSet.evaluated, h.claims_eq, hstate]

end Reordered

end RuleSet

end FormConsole
