import FormConsole.Proofs.Rule.Conflict

/-!
# The check of a rule set is exact

Whether two rules can apply at once is a question about infinitely many assignments of values to fields, and
the check looks only at the values that the conditions list.  That is enough: a field that is mentioned needs
one value that all conditions on it accept, and the values of different fields are chosen independently.

* `compatible_iff`, `Rule.canOverlap_iff`: the search finds an assignment exactly if there is one.
* `RuleSet.check_eq_ok_iff_sound`: what is accepted, as conditions on the rules.
* `RuleSet.exists_of_conflict?`: the conflict that is reported is the first one.
* `RuleSet.check_exact`: all of this together, for rules that are complete and mention declared names only.
-/

namespace FormConsole

/-! ## Rules that some values meet at once -/

section Overlap

theorem mem_specsOn {field : String} {cs : List Condition} {s : MatchSpec} :
    s ∈ specsOn field cs ↔ ∃ c ∈ cs, c.field = field ∧ c.spec = s := by
  simp only [specsOn, List.mem_map, List.mem_filter, beq_iff_eq, and_assoc]

theorem exists_accepted_of_compatible {cs : List Condition} (h : compatible cs = true)
    (field : String) : ∃ v, ∀ c ∈ cs, c.field = field → c.spec.accepts v = true := by
  by_cases hspecs : specsOn field cs = []
  · refine ⟨default, fun c hc hfield => ?_⟩
    have hmem : c.spec ∈ specsOn field cs := mem_specsOn.mpr ⟨c, hc, hfield, rfl⟩
    rw [hspecs] at hmem
    exact absurd hmem List.not_mem_nil
  · obtain ⟨s, hs⟩ := List.exists_mem_of_ne_nil _ hspecs
    obtain ⟨c, hc, rfl, -⟩ := mem_specsOn.mp hs
    have hsat : satisfiable (specsOn c.field cs) = true := List.all_eq_true.mp h c hc
    obtain ⟨v, hv⟩ := (satisfiable_iff hspecs).mp hsat
    exact ⟨v, fun d hd hfield => hv d.spec (mem_specsOn.mpr ⟨d, hd, hfield, rfl⟩)⟩

/-- Conditions are compatible exactly if some assignment of values meets all of them. -/
theorem compatible_iff {cs : List Condition} : compatible cs = true ↔
    ∃ assignment : String → Value, ∀ c ∈ cs, c.spec.accepts (assignment c.field) = true := by
  constructor
  · intro h
    -- the fields are independent of each other, so that a value is chosen for each on its own
    choose assignment hassignment using exists_accepted_of_compatible h
    exact ⟨assignment, fun c hc => hassignment c.field c hc rfl⟩
  · rintro ⟨assignment, h⟩
    exact compatible_of_accepts assignment h

namespace Rule

variable {r s : Rule}

/-- The values of an assignment meet all conditions of a rule. -/
def MetBy (r : Rule) (assignment : String → Value) : Prop :=
  ∀ c ∈ r.conditions, c.spec.accepts (assignment c.field) = true

theorem canOverlap_iff :
    r.canOverlap s = true ↔ ∃ assignment, r.MetBy assignment ∧ s.MetBy assignment := by
  rw [canOverlap, compatible_iff]
  constructor
  · rintro ⟨assignment, h⟩
    exact ⟨assignment, fun c hc => h c (List.mem_append_left _ hc),
      fun c hc => h c (List.mem_append_right _ hc)⟩
  · rintro ⟨assignment, hr, hs⟩
    refine ⟨assignment, fun c hc => ?_⟩
    rcases List.mem_append.mp hc with hc | hc
    · exact hr c hc
    · exact hs c hc

/-- The rules claim the same property of the same field, and some assignment of values meets both. -/
def Collides (r s : Rule) : Prop :=
  (∃ c ∈ r.claims, c ∈ s.claims) ∧ ∃ assignment, r.MetBy assignment ∧ s.MetBy assignment

theorem apart_iff_not_collides : r.Apart s ↔ ¬ r.Collides s := by
  rw [Collides, ← canOverlap_iff]
  constructor
  · rintro hapart ⟨⟨c, hr, hs⟩, hoverlap⟩
    rw [hapart c hr hs] at hoverlap
    exact absurd hoverlap (by simp)
  · intro hnot c hr hs
    by_contra hoverlap
    exact hnot ⟨⟨c, hr, hs⟩, by simpa using hoverlap⟩

end Rule

end Overlap

namespace RuleSet

/-! ## What is accepted -/

section Sound

variable {rules : RuleSet} {t : FieldTable} {names : List String}

/-- The rules have targets and operations, mention these names only, and do not get into each other's way. -/
structure Sound (rules : RuleSet) (names : List String) : Prop where
  complete : ∀ r ∈ rules, r.targets ≠ [] ∧ r.ops ≠ []
  fits : rules.Fits names
  apart : rules.Pairwise Rule.Apart

theorem checkRule_eq_ok_iff {position : Nat} {r : Rule} : checkRule t position r = .ok () ↔
    (r.targets ≠ [] ∧ r.ops ≠ []) ∧ (∀ n ∈ r.targets, n ∈ t.names) ∧
      ∀ c ∈ r.conditions, c.field ∈ t.names := by
  unfold checkRule
  split
  · next hempty =>
    have hnot : ¬ (r.targets ≠ [] ∧ r.ops ≠ []) := by
      rintro ⟨htargets, hops⟩
      rw [Bool.or_eq_true, List.isEmpty_iff, List.isEmpty_iff] at hempty
      exact hempty.elim htargets hops
    simp [hnot]
  · next hempty =>
    have hcomplete : r.targets ≠ [] ∧ r.ops ≠ [] := by simpa using hempty
    rw [forM_eq_ok_iff]
    simp only [FieldTable.require_eq_ok_iff, List.forall_mem_append, List.forall_mem_map]
    exact ⟨fun h => ⟨hcomplete, h⟩, fun h => h.2⟩

theorem check_eq_ok_iff_sound : rules.check t = .ok () ↔ rules.Sound t.names := by
  have hzip : ∀ P : Rule → Prop, (∀ r ∈ rules.zipIdx, P r.1) ↔ ∀ r ∈ rules, P r := by
    intro P
    rw [← List.forall_mem_map, List.zipIdx_map_fst]
  rw [check_eq_ok_iff, conflict?_eq_none_iff]
  simp only [checkRule_eq_ok_iff]
  rw [hzip fun r => (r.targets ≠ [] ∧ r.ops ≠ []) ∧ (∀ n ∈ r.targets, n ∈ t.names) ∧
    ∀ c ∈ r.conditions, c.field ∈ t.names]
  constructor
  · rintro ⟨h, hapart⟩
    exact ⟨fun r hr => (h r hr).1, ⟨fun r hr => (h r hr).2.1, fun r hr => (h r hr).2.2⟩, hapart⟩
  · rintro ⟨hcomplete, hfits, hapart⟩
    exact ⟨fun r hr => ⟨hcomplete r hr, hfits.targets r hr, hfits.conditions r hr⟩, hapart⟩

end Sound

/-! ## What is reported -/

section First

theorem exists_of_conflictWith? {first second : Rule × Nat} {e : FormError}
    (h : conflictWith? first second = some e) :
    ∃ c, c ∈ first.1.claims ∧ c ∈ second.1.claims ∧ first.1.canOverlap second.1 = true ∧
      e = .conflictingRules c.field c.property first.2 second.2 := by
  unfold conflictWith? at h
  split at h
  · next c hc =>
    split at h
    · next hoverlap =>
      have hfirst : c ∈ first.1.claims := by simpa using List.find?_some hc
      exact ⟨c, hfirst, List.mem_of_find?_eq_some hc, hoverlap, (Option.some.inj h).symm⟩
    · simp at h
  · simp at h

/-- The conflict that is found first is that of the first rule that has one, with the first rule it has one
with. -/
theorem exists_of_firstConflict? {l : List (Rule × Nat)} {e : FormError}
    (h : firstConflict? l = some e) :
    ∃ (i j : Nat) (r s : Rule × Nat), i < j ∧ l[i]? = some r ∧ l[j]? = some s ∧
      conflictWith? r s = some e ∧
      ∀ (i' j' : Nat) (r' s' : Rule × Nat), i' < j' → l[i']? = some r' → l[j']? = some s' →
        conflictWith? r' s' ≠ none → i < i' ∨ i = i' ∧ j ≤ j' := by
  induction l with
  | nil => simp [firstConflict?] at h
  | cons r rs ih =>
    rw [firstConflict?] at h
    cases hhead : rs.findSome? (conflictWith? r) with
    | some e' =>
      rw [hhead, Option.some_or] at h
      obtain ⟨before, s, after, rfl, hs, hnone⟩ := List.findSome?_eq_some_iff.mp hhead
      refine ⟨0, before.length + 1, r, s, by omega, rfl, by simp, hs.trans h, ?_⟩
      intro i' j' r' s' hlt hr' hs' hconflict
      rcases Nat.eq_zero_or_pos i' with rfl | hpos
      · right
        refine ⟨rfl, ?_⟩
        by_contra hj
        -- a partner before the reported one would have been found
        obtain ⟨k, rfl⟩ : ∃ k, j' = k + 1 := ⟨j' - 1, by omega⟩
        have hk : k < before.length := by omega
        rw [List.getElem?_cons_succ, List.getElem?_append_left hk] at hs'
        rw [List.getElem?_cons_zero] at hr'
        rw [← Option.some.inj hr'] at hconflict
        exact hconflict (hnone s' (List.mem_of_getElem? hs'))
      · exact Or.inl hpos
    | none =>
      rw [hhead, Option.none_or] at h
      obtain ⟨i, j, q, s, hlt, hq, hs, hconflict, hleast⟩ := ih h
      refine ⟨i + 1, j + 1, q, s, by omega, hq, hs, hconflict, ?_⟩
      intro i' j' r' s' hlt' hr' hs' hconflict'
      obtain ⟨k, rfl⟩ : ∃ k, j' = k + 1 := ⟨j' - 1, by omega⟩
      rw [List.getElem?_cons_succ] at hs'
      cases i' with
      | zero =>
        -- the first rule has no conflict at all
        rw [List.getElem?_cons_zero] at hr'
        rw [← Option.some.inj hr'] at hconflict'
        exact absurd (List.findSome?_eq_none_iff.mp hhead s' (List.mem_of_getElem? hs')) hconflict'
      | succ i' =>
        rw [List.getElem?_cons_succ] at hr'
        have := hleast i' k r' s' (by omega) hr' hs' hconflict'
        omega

variable {rules : RuleSet} {t : FieldTable}

theorem getElem?_zipIdx_eq_some {i : Nat} {r : Rule} (h : rules[i]? = some r) :
    rules.zipIdx[i]? = some (r, i) := by
  simp [List.getElem?_zipIdx, h]

theorem exists_of_getElem?_zipIdx {i : Nat} {r : Rule × Nat} (h : rules.zipIdx[i]? = some r) :
    rules[i]? = some r.1 ∧ r.2 = i := by
  rw [List.getElem?_zipIdx, Option.map_eq_some_iff] at h
  obtain ⟨q, hq, rfl⟩ := h
  exact ⟨hq, by simp⟩

/-- A conflict that is reported is that of the least positions of two rules that collide, and names something
that both of them claim. -/
theorem exists_of_conflict? {e : FormError} (h : rules.conflict? = some e) :
    ∃ (i j : Nat) (r s : Rule) (c : Claim), i < j ∧ rules[i]? = some r ∧ rules[j]? = some s ∧
      e = .conflictingRules c.field c.property i j ∧ c ∈ r.claims ∧ c ∈ s.claims ∧ r.Collides s ∧
      ∀ (i' j' : Nat) (r' s' : Rule), i' < j' → rules[i']? = some r' → rules[j']? = some s' →
        r'.Collides s' → i < i' ∨ i = i' ∧ j ≤ j' := by
  obtain ⟨i, j, r, s, hlt, hr, hs, hconflict, hleast⟩ := exists_of_firstConflict? h
  obtain ⟨hr, rfl⟩ := exists_of_getElem?_zipIdx hr
  obtain ⟨hs, rfl⟩ := exists_of_getElem?_zipIdx hs
  obtain ⟨c, hcr, hcs, hoverlap, rfl⟩ := exists_of_conflictWith? hconflict
  refine ⟨r.2, s.2, r.1, s.1, c, hlt, hr, hs, rfl, hcr, hcs,
    ⟨⟨c, hcr, hcs⟩, Rule.canOverlap_iff.mp hoverlap⟩, ?_⟩
  intro i' j' r' s' hlt' hr' hs' hcollides
  refine hleast i' j' (r', i') (s', j') hlt' (getElem?_zipIdx_eq_some hr')
    (getElem?_zipIdx_eq_some hs') ?_
  rw [Ne, conflictWith?_eq_none_iff, Rule.apart_iff_not_collides, not_not]
  exact hcollides

theorem check_eq_of_complete (hcomplete : ∀ r ∈ rules, r.targets ≠ [] ∧ r.ops ≠ [])
    (hfits : rules.Fits t.names) :
    rules.check t = match rules.conflict? with
      | some e => .error e
      | none => .ok () := by
  have hrules : (rules.zipIdx.forM fun r => checkRule t r.2 r.1) = .ok () := by
    refine forM_eq_ok_iff.mpr fun r hr => checkRule_eq_ok_iff.mpr ?_
    have hmem : r.1 ∈ rules := by
      rw [← List.zipIdx_map_fst 0 rules]
      exact List.mem_map_of_mem hr
    exact ⟨hcomplete r.1 hmem, hfits.targets r.1 hmem, hfits.conditions r.1 hmem⟩
  rw [check, hrules]
  cases rules.conflict? with
  | none => rfl
  | some e => rfl

theorem pairwise_apart_iff : rules.Pairwise Rule.Apart ↔
    ∀ (i j : Nat) (r s : Rule), i < j → rules[i]? = some r → rules[j]? = some s →
      ¬ r.Collides s := by
  rw [List.pairwise_iff_getElem]
  constructor
  · intro h i j r s hlt hr hs
    obtain ⟨hi, rfl⟩ := List.getElem?_eq_some_iff.mp hr
    obtain ⟨hj, rfl⟩ := List.getElem?_eq_some_iff.mp hs
    exact Rule.apart_iff_not_collides.mp (h i j hi hj hlt)
  · intro h i j hi hj hlt
    exact Rule.apart_iff_not_collides.mpr
      (h i j _ _ hlt (List.getElem?_eq_getElem hi) (List.getElem?_eq_getElem hj))

/-- Complete rules over declared names are accepted exactly if no two of them claim the same property of the
same field and can be met by the same values.  Otherwise the first two that do are reported, with something
that both of them claim. -/
theorem check_exact (hcomplete : ∀ r ∈ rules, r.targets ≠ [] ∧ r.ops ≠ [])
    (hfits : rules.Fits t.names) :
    (rules.check t = .ok () ↔ ∀ (i j : Nat) (r s : Rule), i < j → rules[i]? = some r →
      rules[j]? = some s → ¬ r.Collides s) ∧
    (rules.check t ≠ .ok () → ∃ (i j : Nat) (r s : Rule) (c : Claim), i < j ∧
      rules[i]? = some r ∧ rules[j]? = some s ∧
      rules.check t = .error (.conflictingRules c.field c.property i j) ∧
      c ∈ r.claims ∧ c ∈ s.claims ∧ r.Collides s ∧
      ∀ (i' j' : Nat) (r' s' : Rule), i' < j' → rules[i']? = some r' → rules[j']? = some s' →
        r'.Collides s' → i < i' ∨ i = i' ∧ j ≤ j') := by
  constructor
  · rw [← pairwise_apart_iff, check_eq_ok_iff_sound]
    exact ⟨fun h => h.apart, fun h => ⟨hcomplete, hfits, h⟩⟩
  · intro hrefused
    rw [check_eq_of_complete hcomplete hfits] at hrefused ⊢
    cases hconflict : rules.conflict? with
    | none =>
      rw [hconflict] at hrefused
      exact absurd rfl hrefused
    | some e =>
      obtain ⟨i, j, r, s, c, hlt, hr, hs, rfl, hrest⟩ := exists_of_conflict? hconflict
      exact ⟨i, j, r, s, c, hlt, hr, hs, rfl, hrest⟩

/-- A static and a dynamic method exclude each other; the third rule does not mention the method. -/
def addressRules : RuleSet :=
  [((Rule.on ["address", "netmask"]).when "method" (.text "static")).giving .mandatory,
    ((Rule.on ["address"]).whenAny "method" [.text "dhcp", .text "auto"]).giving .mandatory,
    ((Rule.on ["gateway", "address"]).when "wol" (.bool true)).giving .mandatory]

/-- The fields that the rules mention. -/
def addressTable : FieldTable :=
  ⟨[.text "method" "", .text "address" "", .text "netmask" "", .text "gateway" "",
    .checkbox "wol" "" false].map Field.ofDeclaration, []⟩

theorem check_addressRules : (∀ r ∈ addressRules, r.targets ≠ [] ∧ r.ops ≠ []) ∧
    addressRules.Fits addressTable.names ∧
    addressRules.check addressTable = .error (.conflictingRules "address" .allowBlank 0 2) ∧
    ∃ r s, addressRules[0]? = some r ∧ addressRules[2]? = some s ∧ r.Collides s := by
  have hcomplete : ∀ r ∈ addressRules, r.targets ≠ [] ∧ r.ops ≠ [] := by decide
  have hfits : addressRules.Fits addressTable.names := ⟨by decide, by decide⟩
  have hcheck : addressRules.check addressTable =
      .error (.conflictingRules "address" .allowBlank 0 2) := by decide +kernel
  have hrefused : addressRules.check addressTable ≠ .ok () := by rw [hcheck]; simp
  obtain ⟨i, j, r, s, c, -, hr, hs, heq, -, -, hcollides, -⟩ :=
    (check_exact hcomplete hfits).2 hrefused
  rw [hcheck] at heq
  obtain ⟨-, -, rfl, rfl⟩ := FormError.conflictingRules.inj (Except.error.inj heq)
  exact ⟨hcomplete, hfits, hcheck, r, s, hr, hs, hcollides⟩

end First

end RuleSet

end FormConsole
