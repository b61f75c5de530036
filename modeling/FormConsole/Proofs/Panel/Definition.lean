import FormConsole.Panel
import FormConsole.Proofs.Form.Acceptance
import FormConsole.Proofs.Form.Consistency

/-!
# What the panels have in common

The choices and defaults of a panel depend on its setting, and so do some constraints; its names, rules, cascades and
checks do not.  Hence one look at each panel shows for every setting that its form opens, and that it is laid out so
that editing it by keys never gets in the way of a cascade.

* `Panel.wellFormed`, `Panel.build_definition`: the definition of a panel is accepted in every setting.
* `Definition.Orderly`: what the layout of all panels has in common; `Panel.orderly`.
* `InUse.readOnly_baseline`: rules of an orderly definition only ever unlock.
-/

namespace FormConsole

namespace Definition

/-! ## Definitions that differ in choices and defaults -/

section WellFormed

variable {d e : Definition}

/-- Whether a definition is well-formed is a matter of its names, its rules, its cascades and its checks. -/
theorem WellFormed.congr (h : d.WellFormed) (hnames : e.names = d.names) (hrules : e.rules = d.rules)
    (hcascades : e.cascades = d.cascades) (hchecks : e.checks = d.checks) : e.WellFormed := by
  have hwiring : e.wiring = d.wiring := by
    rw [Definition.wiring, Definition.wiring, hrules, hcascades]
  refine ⟨?_, ?_, ?_, ?_, ?_⟩
  · rw [hnames]
    exact h.distinct
  · rw [hrules]
    exact h.complete
  · rw [hwiring, hnames]
    exact h.wiring
  · rw [hchecks, hnames]
    exact h.checks
  · rw [hrules]
    exact h.apart

end WellFormed

/-! ## Definitions with one layout -/

section Outline

/-- The layout of a definition: of each field its name, its kind and its constraints. -/
def outline (d : Definition) : List (String × Kind × Constraints) :=
  d.declarations.map fun e => (e.name, e.kind, e.baseline)

theorem exists_of_outline {d d' : Definition} (h : d.outline = d'.outline) {e : Declaration}
    (he : e ∈ d.declarations) :
    ∃ b ∈ d'.declarations, b.name = e.name ∧ b.kind = e.kind ∧ b.baseline = e.baseline := by
  have hmem := List.mem_map_of_mem (f := fun e : Declaration => (e.name, e.kind, e.baseline)) he
  change _ ∈ d.outline at hmem
  rw [h] at hmem
  obtain ⟨b, hb, hsame⟩ := List.mem_map.mp hmem
  simp only [Prod.mk.injEq] at hsame
  exact ⟨b, hb, hsame⟩

end Outline

/-! ## Orderly definitions -/

/-- Few cascades lead into different selects, no field of a cascade is read-only, and no rule makes a field
read-only. -/
structure Orderly (d : Definition) : Prop where
  distinct : (d.cascades.map (·.dependent)).Nodup
  few : d.cascades.length ≤ 15
  selects : ∀ c ∈ d.cascades, ∀ e ∈ d.declarations, e.name = c.dependent → e.kind = .select
  linked : ∀ c ∈ d.cascades, ∀ e ∈ d.declarations, e.name ∈ c.dependent :: c.drivers →
    e.baseline.readOnly = false
  unlocking : ∀ r ∈ d.rules, ∀ op ∈ r.ops, op.property = .readOnly → op.state = false

section Orderly

variable {d : Definition}

theorem Orderly.card_dependents (h : d.Orderly) : d.wiring.dependents.card < Wiring.maxPasses :=
  (Wiring.card_dependents_le d.wiring).trans_lt (Nat.lt_succ_of_le h.few)

theorem orderly_of_cascades_eq_nil (hcascades : d.cascades = [])
    (hrules : ∀ r ∈ d.rules, ∀ op ∈ r.ops, op.property = .readOnly → op.state = false) :
    d.Orderly := by
  refine ⟨?_, ?_, fun c hc => ?_, fun c hc => ?_, hrules⟩
  · rw [hcascades]
    exact List.nodup_nil
  · rw [hcascades]
    exact Nat.zero_le _
  · rw [hcascades] at hc
    exact absurd hc List.not_mem_nil
  · rw [hcascades] at hc
    exact absurd hc List.not_mem_nil

end Orderly

end Definition

/-! ## Fields that rules only unlock -/

section ReadOnly

variable {d : Definition} {f : Form} {field : Field}

/-- A field that is read-only although rules only unlock is declared so. -/
theorem InUse.readOnly_baseline (h : InUse d f) (hd : d.Orderly) (hfield : field ∈ f.fields)
    (hreadOnly : field.effective.readOnly = true) : field.decl.baseline.readOnly = true := by
  have hof := h.isOf
  have hforce := h.inForce hd.card_dependents
  have hlookup := FieldTable.field?_name_of_mem hof.nodup hfield
  have heffective : field.effective.get .readOnly = true := hreadOnly
  by_cases hclaimed : ∃ r ∈ d.rules, r.Holds f.table ∧ (⟨field.name, .readOnly⟩ : Claim) ∈ r.claims
  · obtain ⟨r, hr, hholds, hclaim⟩ := hclaimed
    obtain ⟨htarget, b, hb⟩ := Rule.mem_claims_iff.mp hclaim
    rw [hforce.aligned.effective_of_holds hof.rules_apart hlookup hr htarget hb hholds] at heffective
    subst heffective
    -- the last operation on the property is one of the rule, and these only unlock
    obtain ⟨op, hop, hstate⟩ := Option.map_eq_some_iff.mp hb
    have hmem := List.mem_filter.mp (List.mem_of_getLast? hop)
    rw [hd.unlocking r hr op hmem.1 (by simpa using hmem.2)] at hstate
    exact absurd hstate Bool.false_ne_true
  · rw [hforce.effective_of_silent hlookup fun r hr hholds hclaim =>
      hclaimed ⟨r, hr, hholds, hclaim⟩] at heffective
    exact heffective

/-- The form of an orderly definition has no read-only field that belongs to a cascade. -/
theorem InUse.not_linked_of_readOnly (h : InUse d f) (hd : d.Orderly) (hfield : field ∈ f.fields)
    (hreadOnly : field.effective.readOnly = true) :
    ∀ c ∈ d.cascades, field.name ≠ c.dependent ∧ field.name ∉ c.drivers := by
  intro c hc
  have hlinked : field.name ∉ c.dependent :: c.drivers := fun hmem => by
    have hfree := hd.linked c hc field.decl (h.isOf.decl_mem hfield) hmem
    rw [h.readOnly_baseline hd hfield hreadOnly] at hfree
    exact absurd hfree.symm Bool.false_ne_true
  rwa [List.mem_cons, not_or] at hlinked

end ReadOnly

/-! ## Panels -/

/-- The start of a day. -/
def TimeOfDay.midnight : TimeOfDay := ⟨⟨0, by decide⟩, ⟨0, by decide⟩⟩

/-- The setting of a new object where there is nothing to choose from. -/
def Setting.blank : Setting := ⟨false, "", .none, .midnight⟩

namespace Panel

variable (p : Panel) (s : Setting)

theorem names_definition : (p.definition s).names = (p.definition .blank).names := by
  rcases p with (_ | _ | _) | _ | _ | _ <;> rfl

theorem rules_definition : (p.definition s).rules = (p.definition .blank).rules := by
  rcases p with (_ | _ | _) | _ | _ | _ <;> rfl

theorem cascades_definition : (p.definition s).cascades = (p.definition .blank).cascades := by
  rcases p with (_ | _ | _) | _ | _ | _ <;> rfl

theorem checks_definition : (p.definition s).checks = (p.definition .blank).checks := by
  rcases p with (_ | _ | _) | _ | _ | _ <;> rfl

/-- The definition of a panel is accepted in every setting. -/
theorem wellFormed : (p.definition s).WellFormed := by
  have hblank : (p.definition .blank).WellFormed := by
    refine Form.build_eq_ok_iff_wellFormed.mp ⟨_, Form.build_of_checkParts ?_ ?_⟩
    · rcases p with (_ | _ | _) | _ | _ | _ <;> decide +kernel
    · rcases p with (_ | _ | _) | _ | _ | _ <;> decide +kernel
  exact hblank.congr (p.names_definition s) (p.rules_definition s) (p.cascades_definition s)
    (p.checks_definition s)

/-- So its form opens. -/
theorem build_definition : Form.build (p.definition s) = .ok (p.definition s).opened := by
  obtain ⟨form, hbuild⟩ := Form.build_eq_ok_iff_wellFormed.mpr (p.wellFormed s)
  rw [hbuild, (Form.build_eq_ok_iff.mp hbuild).2.2]

theorem unlocking : ∀ r ∈ (p.definition s).rules, ∀ op ∈ r.ops, op.property = .readOnly →
    op.state = false := by
  rw [rules_definition]
  rcases p with (_ | _ | _) | _ | _ | _ <;> decide

/-- No dependent of a cascade drives one. -/
theorem undriven : ∀ c ∈ (p.definition s).cascades, ∀ e ∈ (p.definition s).cascades,
    c.dependent ∉ e.drivers := by
  rw [cascades_definition]
  rcases p with (_ | _ | _) | _ | _ | _ <;> decide

/-- The layout of the bond does not depend on the setting. -/
theorem outline_bond : (Network.bond s).outline = (Network.bond .blank).outline := rfl

/-- Nor does that of any panel, as long as no stored object is edited. -/
theorem outline_definition (hnew : s.editing = false) :
    (p.definition s).outline = (p.definition .blank).outline := by
  obtain ⟨editing, devicename, candidates, now⟩ := s
  obtain rfl : editing = false := hnew
  rcases p with (_ | _ | _) | _ | _ | _ <;> rfl

/-- Only the bond has a cascade; it leads from two fields that are never read-only into a select that is neither. -/
theorem orderly : (p.definition s).Orderly := by
  have hunlocking := p.unlocking s
  rcases p with (_ | _ | _) | _ | _ | _
  case interface.bond =>
    have hfew : [Network.primaryCascade].length ≤ 15 := by decide
    refine ⟨List.nodup_singleton _, hfew, fun c hc e he hname => ?_, fun c hc e he hname => ?_,
      hunlocking⟩
    · obtain ⟨b, hb, hsame, hkind, -⟩ := Definition.exists_of_outline (outline_bond s) he
      have hselects : ∀ c ∈ [Network.primaryCascade], ∀ b ∈ (Network.bond .blank).declarations,
          b.name = c.dependent → b.kind = .select := by
        decide
      rw [← hkind]
      exact hselects c hc b hb (hsame.trans hname)
    · obtain ⟨b, hb, hsame, -, hbaseline⟩ := Definition.exists_of_outline (outline_bond s) he
      have hlinked : ∀ c ∈ [Network.primaryCascade], ∀ b ∈ (Network.bond .blank).declarations,
          b.name ∈ c.dependent :: c.drivers → b.baseline.readOnly = false := by
        decide
      rw [← hbaseline]
      exact hlinked c hc b hb (hsame ▸ hname)
  all_goals exact Definition.orderly_of_cascades_eq_nil rfl hunlocking

end Panel

end FormConsole
