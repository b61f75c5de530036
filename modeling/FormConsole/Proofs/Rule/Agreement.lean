import FormConsole.Proofs.Rule.Evaluation
import FormConsole.Proofs.Rule.Exactness

/-!
# Rules do not contradict each other

Of the rules of an accepted rule set, at most one that holds has operations for a property of a field.  So
whatever the values are, no operation of one rule is overwritten by one of another rule.  Opposite operations
can only stand in one rule, where the last one counts: the check compares rules with each other and accepts
such a rule (`RuleSet.exists_opposite_ops`).

* `RuleSet.Sound.position_eq`: of two rules that hold and claim the same, there is only one.
* `RuleSet.agree_of_check`: what this says about the operations that apply, and about an evaluation.
-/

namespace FormConsole

namespace PropertyOp

/-- Operations on one property that ask for different states are the two operations on it. -/
theorem eq_or_eq_of_state_ne {op op' : PropertyOp} (hp : op.property = op'.property)
    (hstate : op.state ≠ op'.state) (negated : Bool) :
    op = ⟨op.property, negated⟩ ∨ op' = ⟨op.property, negated⟩ := by
  obtain ⟨p, b⟩ := op
  obtain ⟨p', b'⟩ := op'
  have hp : p = p' := hp
  have hstate : (!b) ≠ !b' := hstate
  subst hp
  cases b <;> cases b' <;> cases negated <;> simp_all

end PropertyOp

namespace RuleSet

variable {rules : RuleSet} {t u : FieldTable}

/-- Rules that hold and claim the same property of the same field stand at the same position. -/
theorem Sound.position_eq {names : List String} (h : rules.Sound names) {c : Claim} {i j : Nat}
    {r s : Rule} (hr : rules[i]? = some r) (hs : rules[j]? = some s) (hrholds : r.Holds u)
    (hsholds : s.Holds u) (hcr : c ∈ r.claims) (hcs : c ∈ s.claims) : i = j := by
  have hapart := pairwise_apart_iff.mp h.apart
  rcases Nat.lt_trichotomy i j with hlt | heq | hlt
  · exact absurd ⟨⟨c, hcr, hcs⟩, u.valueAt, hrholds, hsholds⟩ (hapart i j r s hlt hr hs)
  · exact heq
  · exact absurd ⟨⟨c, hcs, hcr⟩, u.valueAt, hsholds, hrholds⟩ (hapart j i s r hlt hs hr)

/-- Whatever values the fields of an accepted rule set have: the operations that apply to a property of a
field all stand in one rule, and they ask for one state unless that rule lists both operations on the
property.  An evaluation gives the property the state of the last operation of that rule on it. -/
theorem agree_of_check (hcheck : rules.check t = .ok ()) (hu : u.names = t.names) (field : String)
    (p : Property) :
    (∀ (i j : Nat) (r s : Rule), rules[i]? = some r → rules[j]? = some s → r.Holds u → s.Holds u →
      field ∈ r.targets → field ∈ s.targets → ∀ op ∈ r.ops, ∀ op' ∈ s.ops,
      op.property = p → op'.property = p →
        i = j ∧ (op.state ≠ op'.state → ∀ negated, ⟨p, negated⟩ ∈ r.ops)) ∧
    ∃ changed u', rules.evaluate.run u = .ok changed u' ∧
      ∀ r ∈ rules, r.Holds u → field ∈ r.targets → ∀ b, r.lastState? p = some b →
        ∀ f, u'.field? field = some f → f.effective.get p = b := by
  have hsound : rules.Sound u.names := by
    rw [hu]
    exact check_eq_ok_iff_sound.mp hcheck
  constructor
  · intro i j r s hr hs hrholds hsholds htr hts op hop op' hop' hp hp'
    have hcr : (⟨field, p⟩ : Claim) ∈ r.claims := Rule.mem_claims.mpr ⟨htr, op, hop, hp⟩
    have hcs : (⟨field, p⟩ : Claim) ∈ s.claims := Rule.mem_claims.mpr ⟨hts, op', hop', hp'⟩
    have hij : i = j := hsound.position_eq hr hs hrholds hsholds hcr hcs
    refine ⟨hij, fun hstate negated => ?_⟩
    subst hij
    have hrs : r = s := Option.some.inj (hr.symm.trans hs)
    subst hrs
    rcases PropertyOp.eq_or_eq_of_state_ne (hp.trans hp'.symm) hstate negated with heq | heq
    · rwa [← hp, ← heq]
    · rwa [← hp, ← heq]
  · obtain ⟨changed, hrun⟩ := run_evaluate hsound.fits
    refine ⟨changed, rules.evaluated u, hrun, ?_⟩
    intro r hr hholds htarget b hb f hf
    have hafter : r.Holds (rules.evaluated u) := by
      intro c hc
      rw [valueAt_evaluated]
      exact hholds c hc
    exact (aligned_evaluated rules u).effective_of_holds hsound.apart hf hr htarget hb hafter

/-- A note is mandatory under either rule, and at most one of them holds. -/
def exclusiveRules : RuleSet :=
  [((Rule.on ["note"]).when "kind" (.number 1)).giving .mandatory,
    (((Rule.on ["note", "kind"]).whenAny "kind" [.text "", .number 2]).giving ⟨.allowBlank, true⟩).giving
      .editable]

/-- A table of a kind and a note. -/
def noteTable (kind : Value) : FieldTable :=
  ⟨[(Declaration.number "kind" "" 0).withDefault kind, .text "note" ""].map Field.ofDeclaration, []⟩

theorem agree_exclusiveRules : exclusiveRules.check (noteTable (.number 0)) = .ok () ∧
    (noteTable (.number 2)).names = (noteTable (.number 0)).names ∧
    ∃ changed u', exclusiveRules.evaluate.run (noteTable (.number 2)) = .ok changed u' ∧
      ∀ f, u'.field? "note" = some f → f.effective.get .allowBlank = false := by
  have hcheck : exclusiveRules.check (noteTable (.number 0)) = .ok () := by decide +kernel
  have hnames : (noteTable (.number 2)).names = (noteTable (.number 0)).names := by decide
  obtain ⟨-, changed, u', hrun, hstate⟩ := agree_of_check hcheck hnames "note" .allowBlank
  refine ⟨hcheck, hnames, changed, u', hrun, ?_⟩
  exact hstate _ (List.mem_cons_of_mem _ List.mem_cons_self) (by decide) (by decide) false (by decide)

/-- A rule that asks for a note to be read-only, and for the opposite. -/
def oppositeOps : Rule :=
  ((Rule.on ["note"]).giving ⟨.readOnly, false⟩).giving ⟨.readOnly, true⟩

/-- A rule with two opposite operations is accepted.  The second one silently overwrites the first one. -/
theorem exists_opposite_ops : ∃ (rules : RuleSet) (t : FieldTable) (r : Rule) (op op' : PropertyOp),
    rules.check t = .ok () ∧ r ∈ rules ∧ r.Holds t ∧ "note" ∈ r.targets ∧ op ∈ r.ops ∧ op' ∈ r.ops ∧
    op.property = op'.property ∧ op.state ≠ op'.state ∧
    ∃ changed u f, rules.evaluate.run t = .ok changed u ∧ u.field? "note" = some f ∧
      f.effective.get op.property ≠ op.state := by
  have hcheck : RuleSet.check [oppositeOps] (noteTable (.number 0)) = .ok () := by decide +kernel
  obtain ⟨changed, hrun⟩ := run_evaluate (fits_of_check hcheck)
  refine ⟨[oppositeOps], noteTable (.number 0), oppositeOps, ⟨.readOnly, false⟩, ⟨.readOnly, true⟩,
    hcheck, List.mem_cons_self, by decide, by decide, by decide, by decide, rfl, by decide, changed, _,
    .ofDeclaration (.text "note" ""), hrun, ?_, ?_⟩
  · decide +kernel
  · decide

end RuleSet

end FormConsole
