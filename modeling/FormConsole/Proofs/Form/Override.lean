import FormConsole.Panel.Network
import FormConsole.Proofs.Form.Call

/-!
# Overrides over whole runs

Rules react to a watched field only when it is among the news of a pass, cascades change watched fields after
the rules had their turn, and a reset drops overrides that still hold.  At the end of a call the constraints
are right all the same: while something watched is among the news the rules are merely abreast, and at the end
no news are left.

* `RuleSet.InForce`: the constraints are those that the rules ask for, and nothing else was ever overridden.
* `Form.inForce_after`: every call keeps the rules in force.
* `Form.effective_of_reachable`: the constraints of a form are at all times those of the rules that hold, and
  the baseline where there is no such rule.
-/

namespace FormConsole

namespace RuleSet

/-! ## Rules in force -/

section InForce

variable {rules : RuleSet} {t t' : FieldTable} {name : String} {f : Field} {p : Property}

/-- The constraints are those that the rules ask for, and the baseline where no rule ever asks. -/
structure InForce (rules : RuleSet) (t : FieldTable) : Prop where
  aligned : rules.Aligned t
  bare : rules.Bare t

/-- Where no rule that holds has an operation, the baseline is in effect. -/
theorem InForce.effective_of_silent (h : rules.InForce t) (hf : t.field? name = some f)
    (hsilent : ∀ r ∈ rules, r.Holds t → (⟨name, p⟩ : Claim) ∉ r.claims) :
    f.effective.get p = f.decl.baseline.get p := by
  by_cases hclaim : (⟨name, p⟩ : Claim) ∈ rules.claims
  · have hstate := h.aligned ⟨name, p⟩ hclaim f hf
    rw [stateAfter, FieldTable.name_of_field? hf, lastWrite?_of_silent hsilent] at hstate
    exact hstate
  · exact h.bare name f hf p hclaim

theorem InForce.congr (h : rules.InForce t) (hc : t.SameConstraints t')
    (hv : ∀ n, t'.valueAt n = t.valueAt n) : rules.InForce t' :=
  ⟨h.aligned.congr hc fun n _ => hv n, h.bare.congr hc⟩

theorem InForce.alike (h : rules.InForce t) (ha : t.Alike t') : rules.InForce t' :=
  h.congr ha.sameConstraints ha.valueAt

/-- At first every constraint is its baseline. -/
theorem bare_ofDeclaration (rules : RuleSet) (ds : List Declaration) :
    rules.Bare ⟨ds.map Field.ofDeclaration, []⟩ := by
  intro name f hf p _
  obtain ⟨d, -, rfl⟩ := List.mem_map.mp (FieldTable.mem_of_field? hf)
  rfl

theorem Bare.reset (h : rules.Bare t) (name : String) : rules.Bare (t.reset name) := by
  intro other f' hf' p hp
  have hvalue : rules.Bare (t.write name .value fun f => { f with value := f.decl.default }) :=
    h.congr (FieldTable.sameConstraints_write (by intro f; rfl) (by intro f; rfl))
  rw [FieldTable.reset, FieldTable.putConstraints, FieldTable.field?_write (by intro f; rfl)] at hf'
  obtain ⟨f, hf, rfl⟩ := Option.map_eq_some_iff.mp hf'
  by_cases hname : other = name
  · rw [if_pos hname]
  · rw [if_neg hname]
    exact hvalue other f hf p hp

theorem Bare.restored (h : rules.Bare t) (stored : NameMap Value) :
    rules.Bare (t.restored stored) := by
  refine h.congr fun name => ?_
  rw [FieldTable.field?_restored, Option.map_map]
  rfl

end InForce

end RuleSet

/-! ## What calls keep in force -/

namespace Wiring

section InForce

variable {w : Wiring} {t : FieldTable}

theorem inForce_settled (h : w.Fits t.names) (hdeps : w.dependents.card < maxPasses)
    (ha : w.rules.Abreast t) (hb : w.rules.Bare t) : w.rules.InForce (w.settled t) :=
  ⟨aligned_settled h hdeps ha, bare_settled h hb⟩

theorem inForce_refreshed (h : w.Fits t.names) (hdeps : w.dependents.card < maxPasses)
    (hb : w.rules.Bare t) : w.rules.InForce (w.refreshed t) :=
  ⟨aligned_refreshed h hdeps, bare_refreshed h hb⟩

end InForce

end Wiring

namespace Form

section Override

variable {d : Definition} {f : Form}

/-- Every call keeps the rules in force. -/
theorem inForce_after (h : IsOf d f) (hdeps : f.wiring.dependents.card < Wiring.maxPasses)
    (hin : f.wiring.rules.InForce f.table) (c : Call) : f.wiring.rules.InForce (f.after c) := by
  cases c with
  | set name v =>
    rw [after]
    split
    · next hname =>
      refine Wiring.inForce_settled (h.fits.congr (FieldTable.declarations_putValue v)) hdeps ?_ ?_
      · exact hin.aligned.abreast.putValue hname v
      · exact hin.bare.congr (FieldTable.sameConstraints_putValue v)
    · exact hin
  | resetToBaseline name =>
    rw [after]
    split
    · -- the passes after the reset need not restore its overrides, the reaction of everything does
      have hfits := h.fits.congr (FieldTable.declarations_reset f.table name)
      exact Wiring.inForce_refreshed (hfits.congr (Wiring.declarations_settled _)) hdeps
        (Wiring.bare_settled hfits (hin.bare.reset name))
    · exact hin
  | load stored =>
    have hfits := h.fits.congr (FieldTable.declarations_restored f.table stored)
    rw [after]
    exact (Wiring.inForce_refreshed hfits hdeps (hin.bare.restored stored)).alike
      (FieldTable.alike_commit _)
  | setChoices name choices =>
    rw [after]
    split
    · next hname =>
      have hname' : name ∈ (f.table.putChoices name choices).names := by
        rwa [FieldTable.names_putChoices]
      refine Wiring.inForce_settled (h.fits.congr (declarations_offering _ name choices)) hdeps ?_ ?_
      · exact (hin.aligned.abreast.putChoices choices).putValue hname' _
      · exact hin.bare.congr ((FieldTable.sameConstraints_putChoices choices).trans
          (FieldTable.sameConstraints_putValue _))
    · exact hin
  | refresh => exact Wiring.inForce_refreshed h.fits hdeps hin.bare
  | commit => exact hin.alike (FieldTable.alike_commit _)
  | validate => exact hin.alike (FieldTable.alike_mark _ _)

theorem inForce_of_build (h : build d = .ok f)
    (hdeps : d.wiring.dependents.card < Wiring.maxPasses) : d.rules.InForce f.table := by
  obtain ⟨hnodup, hparts, rfl⟩ := build_eq_ok_iff.mp h
  have hbare := RuleSet.bare_ofDeclaration d.rules d.declarations
  exact (Wiring.inForce_refreshed (w := d.wiring) (isOf_initial hnodup hparts).fits hdeps hbare).alike
    (FieldTable.alike_commit _)

/-- The rules are in force in every state of a form. -/
theorem inForce_of_reachable (h : Reachable d f)
    (hdeps : d.wiring.dependents.card < Wiring.maxPasses) : d.rules.InForce f.table := by
  obtain ⟨form, calls, hbuild, rfl⟩ := h
  refine run_induct (P := fun g => d.rules.InForce g.table) ?_ (isOf_of_build hbuild)
    (inForce_of_build hbuild hdeps) calls
  intro g hg hin c
  have hrules : g.wiring.rules = d.rules := by
    rw [hg.wiring]
    rfl
  rw [← hrules] at hin ⊢
  rw [← hg.wiring] at hdeps
  rw [call_eq_after hg]
  exact inForce_after hg hdeps hin c

/-- In every state of a form, a property of a field has the state that the last operation of the rule on it
that holds asks for; if there is no such rule, it has its baseline. -/
theorem effective_of_reachable (h : Reachable d f)
    (hdeps : (d.cascades.map (·.dependent)).toFinset.card ≤ 15) :
    f.fields.map (·.decl) = d.declarations ∧ ∀ field ∈ f.fields, ∀ p : Property,
      (∀ r ∈ d.rules, field.name ∈ r.targets → ∀ b, r.lastState? p = some b → r.Holds f.table →
        field.effective.get p = b) ∧
      ((∀ r ∈ d.rules, field.name ∈ r.targets → (∃ b, r.lastState? p = some b) →
        ¬ r.Holds f.table) → field.effective.get p = field.decl.baseline.get p) := by
  have hof := isOf_of_reachable h
  have hin : d.rules.InForce f.table := inForce_of_reachable h (Nat.lt_succ_of_le hdeps)
  have hapart : d.rules.Pairwise Rule.Apart := by
    have := hof.apart
    rwa [hof.wiring] at this
  refine ⟨hof.declarations, fun field hfield p => ?_⟩
  have hf := FieldTable.field?_name_of_mem hof.nodup hfield
  refine ⟨?_, ?_⟩
  · intro r hr htarget b hb hholds
    exact hin.aligned.effective_of_holds hapart hf hr htarget hb hholds
  · intro hnone
    refine hin.effective_of_silent hf fun r hr hholds hclaim => ?_
    obtain ⟨htarget, hstate⟩ := Rule.mem_claims_iff.mp hclaim
    exact hnone r hr htarget hstate hholds

/-- A new bond that can take in one device. -/
def smallBond : Definition :=
  Network.bond ⟨false, "bond0", { Candidates.none with bondSlaves := [⟨"eth0", ""⟩] }, ⟨0, 0⟩⟩

theorem build_smallBond : build smallBond = .ok smallBond.opened :=
  build_of_checkParts (by decide +kernel) (by decide +kernel)

/-- In a mode that elects a primary slave, the slave is mandatory again after a reset. -/
theorem effective_bondprimary_of_reset : ∃ f field, Reachable smallBond f ∧
    f.table.field? "bondprimary" = some field ∧ field.effective.get .allowBlank = false := by
  have hreach : Reachable smallBond (smallBond.opened.run [.resetToBaseline "bondprimary"]) :=
    ⟨_, _, build_smallBond, rfl⟩
  generalize hf : smallBond.opened.run [.resetToBaseline "bondprimary"] = f at hreach
  obtain ⟨field, hfield⟩ : ∃ field, f.table.field? "bondprimary" = some field := by
    rw [← FieldTable.mem_names_iff, ← hf]
    decide +kernel
  have hoverride := ((effective_of_reachable hreach (by decide)).2 field
    (FieldTable.mem_of_field? hfield) .allowBlank).1
    (((Rule.on ["bondprimary"]).whenAny "bondmode" Network.primaryModes).giving .mandatory)
    (by decide) (by rw [FieldTable.name_of_field? hfield]; decide) false (by decide)
  refine ⟨f, field, hreach, hfield, hoverride ?_⟩
  rw [← hf]
  decide +kernel

end Override

end Form

end FormConsole
