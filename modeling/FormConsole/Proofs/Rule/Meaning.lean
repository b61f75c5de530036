import FormConsole.Proofs.Field.Compare
import FormConsole.Proofs.Rule.Evaluation

/-!
# What an evaluation means

An evaluation walks through the claims of all rules in order, asks for each one what the rules that hold write
last, and writes only what is new.  What comes of it can be said without that walk: field by field, from the rules
that hold and the constraints before.  What was recorded, and what it answers with, follows from the comparison
of the constraints before and after.

* `RuleSet.Meant`: a field before and after an evaluation, as the rules mean it.
* `RuleSet.mem_moved_iff`: the claims that an evaluation moves are those whose states it changes.
* `RuleSet.run_evaluate_meant`: an evaluation does what the rules mean, tells and records what it changed, and
  another one does nothing.
-/

namespace FormConsole

namespace RuleSet

/-! ## The meaning of the rules for a field -/

section Meant

variable {rules : RuleSet} {t : FieldTable} {f f' : Field}

/-- What the rules make of a field under the values of a table.  A property has the state of the last operation
on it of the rule that claims it and holds; if no rule that claims it holds, the baseline; and if no rule claims
it, the state that it had.  Nothing else about the field changes. -/
structure Meant (rules : RuleSet) (t : FieldTable) (f f' : Field) : Prop where
  rest : f' = { f with effective := f'.effective }
  holding : ∀ r ∈ rules, r.Holds t → f.name ∈ r.targets → ∀ p b, r.lastState? p = some b →
    f'.effective.get p = b
  silent : ∀ p, (∃ r ∈ rules, (⟨f.name, p⟩ : Claim) ∈ r.claims) →
    (∀ r ∈ rules, (⟨f.name, p⟩ : Claim) ∈ r.claims → ¬ r.Holds t) →
    f'.effective.get p = f.decl.baseline.get p
  unclaimed : ∀ p, (∀ r ∈ rules, (⟨f.name, p⟩ : Claim) ∉ r.claims) →
    f'.effective.get p = f.effective.get p

/-- The rules mean one thing. -/
theorem Meant.unique {g : Field} (h : rules.Meant t f f') (h' : rules.Meant t f g) : f' = g := by
  have heffective : f'.effective = g.effective := by
    refine Constraints.ext_get fun p => ?_
    by_cases hclaimed : ∃ r ∈ rules, (⟨f.name, p⟩ : Claim) ∈ r.claims
    · by_cases hholds : ∃ r ∈ rules, (⟨f.name, p⟩ : Claim) ∈ r.claims ∧ r.Holds t
      · obtain ⟨r, hr, hclaim, hholds⟩ := hholds
        obtain ⟨htarget, b, hb⟩ := Rule.mem_claims_iff.mp hclaim
        rw [h.holding r hr hholds htarget p b hb, h'.holding r hr hholds htarget p b hb]
      · have hsilent : ∀ r ∈ rules, (⟨f.name, p⟩ : Claim) ∈ r.claims → ¬ r.Holds t :=
          fun r hr hclaim hr' => hholds ⟨r, hr, hclaim, hr'⟩
        rw [h.silent p hclaimed hsilent, h'.silent p hclaimed hsilent]
    · have hnone : ∀ r ∈ rules, (⟨f.name, p⟩ : Claim) ∉ r.claims :=
        fun r hr hclaim => hclaimed ⟨r, hr, hclaim⟩
      rw [h.unclaimed p hnone, h'.unclaimed p hnone]
  rw [h.rest, h'.rest, heffective]

/-- An evaluation makes of every field what the rules mean. -/
theorem meant_evaluated (hapart : rules.Pairwise Rule.Apart) {name : String}
    (hf : t.field? name = some f) (hf' : (rules.evaluated t).field? name = some f') :
    rules.Meant t f f' := by
  obtain ⟨g, hg, hrest, hget⟩ := field?_foldl_putState hf'
  obtain rfl : f = g := Option.some.inj (hf.symm.trans hg)
  have hname := FieldTable.name_of_field? hf
  subst hname
  refine ⟨hrest, ?_, ?_, ?_⟩
  · intro r hr hholds htarget p b hb
    have hclaim : (⟨f.name, p⟩ : Claim) ∈ r.claims := Rule.mem_claims_iff.mpr ⟨htarget, b, hb⟩
    rw [hget p, if_pos (mem_claims.mpr ⟨r, hr, hclaim⟩), stateAfter,
      lastWrite?_of_holds hapart hr hholds hclaim, lastWrite?_writes htarget, hb]
    rfl
  · intro p hclaimed hsilent
    rw [hget p, if_pos (mem_claims.mpr hclaimed), stateAfter,
      lastWrite?_of_silent fun r hr hholds hclaim => hsilent r hr hclaim hholds]
    rfl
  · intro p hnone
    rw [hget p, if_neg]
    intro hclaim
    obtain ⟨r, hr, hclaim⟩ := mem_claims.mp hclaim
    exact hnone r hr hclaim

end Meant

/-! ## What moves -/

section Moved

variable {rules : RuleSet} {t : FieldTable}

theorem ascending_moved (rules : RuleSet) (t : FieldTable) : Claim.Ascending (rules.moved t) :=
  (Claim.ascending_sorted _).filter _

/-- The claims that an evaluation moves are those whose states it changes. -/
theorem mem_moved_iff (h : rules.Fits t.names) {c : Claim} : c ∈ rules.moved t ↔
    ∃ f f', t.field? c.field = some f ∧ (rules.evaluated t).field? c.field = some f' ∧
      f'.effective.get c.property ≠ f.effective.get c.property := by
  rw [moved, List.mem_filter, moves, bne_iff_ne]
  constructor
  · rintro ⟨hc, hne⟩
    have hmem := field_mem_of_claim h hc
    obtain ⟨f', hf'⟩ := FieldTable.mem_names_iff.mp ((names_evaluated rules t).symm ▸ hmem)
    obtain ⟨f, hf, -, hget⟩ := field?_foldl_putState hf'
    rw [FieldTable.effectiveAt_of_field? hf, claimState_of_field? hf] at hne
    refine ⟨f, f', hf, hf', ?_⟩
    rw [hget, if_pos hc]
    exact hne.symm
  · rintro ⟨f, f', hf, hf', hne⟩
    obtain ⟨g, hg, -, hget⟩ := field?_foldl_putState hf'
    obtain rfl : f = g := Option.some.inj (hf.symm.trans hg)
    by_cases hc : c ∈ rules.claims
    · rw [hget, if_pos hc] at hne
      refine ⟨hc, ?_⟩
      rw [FieldTable.effectiveAt_of_field? hf, claimState_of_field? hf]
      exact hne.symm
    · rw [hget, if_neg hc] at hne
      exact absurd rfl hne

/-- The fields of the claims that move are those whose constraints change. -/
theorem mem_changed_iff (h : rules.Fits t.names) {name : String} :
    name ∈ Names.ofList ((rules.moved t).map (·.field)) ↔
      ∃ f f', t.field? name = some f ∧ (rules.evaluated t).field? name = some f' ∧
        f'.effective ≠ f.effective := by
  rw [Names.mem_ofList, List.mem_map]
  constructor
  · rintro ⟨c, hc, rfl⟩
    obtain ⟨f, f', hf, hf', hne⟩ := (mem_moved_iff h).mp hc
    exact ⟨f, f', hf, hf', fun heq => hne (by rw [heq])⟩
  · rintro ⟨f, f', hf, hf', hne⟩
    obtain ⟨p, hp⟩ : ∃ p, f'.effective.get p ≠ f.effective.get p := by
      by_contra hall
      push Not at hall
      exact hne (Constraints.ext_get hall)
    exact ⟨⟨name, p⟩, (mem_moved_iff h).mpr ⟨f, f', hf, hf', hp⟩, rfl⟩

/-- Where all claims have their states, an evaluation moves none. -/
theorem moved_of_aligned (h : rules.Fits t.names) (haligned : rules.Aligned t) :
    rules.moved t = [] := by
  refine List.eq_nil_iff_forall_not_mem.mpr fun c hc => ?_
  obtain ⟨f, f', hf, hf', hne⟩ := (mem_moved_iff h).mp hc
  rw [evaluated_of_aligned haligned] at hf'
  exact hne (by rw [Option.some.inj (hf'.symm.trans hf)])

/-- An evaluation after an evaluation does nothing. -/
theorem run_evaluate_evaluated (h : rules.Fits t.names) :
    rules.evaluate.run (rules.evaluated t) = .ok [] (rules.evaluated t) := by
  have h' : rules.Fits (rules.evaluated t).names := by rwa [names_evaluated]
  have haligned := aligned_evaluated rules t
  rw [run_evaluate_moved h', moved_of_aligned h' haligned, evaluated_of_aligned haligned]
  rfl

/-- Accepted rules are evaluated, whatever the constraints and the changes before: every field becomes what the
rules mean; the answer are the names of the fields whose constraints changed, in order; one change is recorded for
each property that changed, in order; and another evaluation does nothing. -/
theorem run_evaluate_meant (hdistinct : t.names.Nodup) (hcheck : rules.check t = .ok ()) :
    ∃ changed moved t', rules.evaluate.run t = .ok changed t' ∧
      List.Forall₂ (rules.Meant t) t.fields t'.fields ∧
      (changed.Pairwise (· < ·) ∧ ∀ name, name ∈ changed ↔ ∃ f f', t.field? name = some f ∧
        t'.field? name = some f' ∧ f'.effective ≠ f.effective) ∧
      (t'.pending = t.pending ++ moved.map (fun c : Claim => ⟨c.field, .constraints⟩) ∧
        Claim.Ascending moved ∧ ∀ c, c ∈ moved ↔ ∃ f f', t.field? c.field = some f ∧
          t'.field? c.field = some f' ∧ f'.effective.get c.property ≠ f.effective.get c.property) ∧
      rules.evaluate.run t' = .ok [] t' := by
  have hfits := fits_of_check hcheck
  have hmeant : List.Forall₂ (rules.Meant t) t.fields (rules.evaluated t).fields :=
    FieldTable.forall₂_fields hdistinct (declarations_evaluated rules t) fun _ _ _ hf hf' _ =>
      meant_evaluated (pairwise_apart_of_check hcheck) hf hf'
  refine ⟨_, rules.moved t, rules.evaluated t, run_evaluate_moved hfits, hmeant, ⟨?_, ?_⟩,
    ⟨pending_evaluated hfits, ascending_moved rules t, fun c => mem_moved_iff hfits⟩,
    run_evaluate_evaluated hfits⟩
  · exact Names.pairwise_ofList _
  · exact fun name => mem_changed_iff hfits

/-- A note and a kind that nothing asks to be mandatory and read-only, but both are. -/
def staleTable : FieldTable where
  fields := [.number "kind" "" 0, .text "note" ""].map fun d =>
    { Field.ofDeclaration d with effective := ⟨false, true⟩ }
  pending := [⟨"kind", .value⟩]

/-- The note is mandatory for one kind; for another one it need not be, and both can be changed. -/
def kindRules : RuleSet :=
  [((Rule.on ["note"]).when "kind" (.number 1)).giving .mandatory,
    (((Rule.on ["note", "kind"]).when "kind" (.number 2)).giving ⟨.allowBlank, true⟩).giving .editable]

theorem run_evaluate_meant_stale : staleTable.names.Nodup ∧ kindRules.check staleTable = .ok () ∧
    ∃ changed t', kindRules.evaluate.run staleTable = .ok changed t' ∧
      List.Forall₂ (fun _ f' => f'.effective = .free) staleTable.fields t'.fields ∧
      kindRules.evaluate.run t' = .ok [] t' := by
  have hdistinct : staleTable.names.Nodup := by decide
  have hcheck : kindRules.check staleTable = .ok () := by decide +kernel
  have hsilent : ∀ r ∈ kindRules, ¬ r.Holds staleTable := by decide +kernel
  have hbaseline : ∀ f ∈ staleTable.fields, f.decl.baseline = .free := by decide
  have hclaimed : ∀ f ∈ staleTable.fields, ∀ p, ∃ r ∈ kindRules, (⟨f.name, p⟩ : Claim) ∈ r.claims := by
    intro f hf p
    cases p with
    | allowBlank => revert f; decide
    | readOnly => revert f; decide
  obtain ⟨changed, -, t', hrun, hmeant, -, -, hagain⟩ := run_evaluate_meant hdistinct hcheck
  refine ⟨hdistinct, hcheck, changed, t', hrun, ?_, hagain⟩
  refine forall₂_imp_of_mem hmeant fun f hf f' _ hff' => Constraints.ext_get fun p => ?_
  rw [hff'.silent p (hclaimed f hf p) fun r hr _ => hsilent r hr, hbaseline f hf]

end Moved

end RuleSet

end FormConsole
