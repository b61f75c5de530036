import FormConsole.Proofs.Console.State
import FormConsole.Proofs.Form.Persistence

/-!
# The primary slave of a bond

A bond offers its slaves as the primary one in the modes that elect one, and only then needs one.  The stored object may
hold anything else than such a slave, and keys may change slaves and mode in any order; still the primary slave is a text
in every state, since cascades only clear it and keys only choose it, and the cascade and the rule on it keep it in line.

* `Network.primaryRule`: the rule on the primary slave, the only one.
* `Network.Elects`: what holds of the form of a bond in every state; kept by calls of keys (`Network.Elects.keyCall`).
* `Console.bond_stays`: what the panel shows from opening it on, whatever keys are pressed.
-/

namespace FormConsole

/-- The value is a text. -/
def Value.IsText (v : Value) : Prop := ∃ x, v = .text x

theorem Value.IsText.cleared (v : Value) (h : v.IsText) : v.cleared.IsText := by
  obtain ⟨x, rfl⟩ := h
  exact ⟨"", rfl⟩

namespace Network

/-! ## What the definition of a bond says about the primary slave -/

section Primary

variable {s : Setting} {t : FieldTable} {f : Form}

/-- The rule on the primary slave: it is needed in the modes that elect one. -/
def primaryRule : Rule :=
  ((Rule.on ["bondprimary"]).whenAny "bondmode" primaryModes).giving .mandatory

theorem primaryRule_mem (s : Setting) : primaryRule ∈ (bond s).rules :=
  List.mem_append_right _ (List.mem_singleton.mpr rfl)

theorem eq_primaryRule {r : Rule} (hr : r ∈ (bond s).rules) (htarget : "bondprimary" ∈ r.targets) :
    r = primaryRule := by
  have honly : ∀ r ∈ genericRules ++ [primaryRule], "bondprimary" ∈ r.targets → r = primaryRule := by
    decide
  exact honly r hr htarget

theorem holds_primaryRule_iff : primaryRule.Holds t ↔ t.valueAt "bondmode" ∈ primaryModes := by
  simp [primaryRule, Rule.giving, Rule.whenAny, Rule.on, Rule.Holds, MatchSpec.accepts]

theorem primaryChoices_pair (slaves mode : Value) : primaryChoices [slaves, mode] =
    if mode ∈ primaryModes then slaves.asList.map Choice.named else noPrimary := by
  simp only [primaryChoices, List.contains_iff_mem]

/-- Whatever is offered as the primary slave is a text. -/
theorem isText_of_mem_primaryChoices {vs : List Value} {choice : Choice}
    (h : choice ∈ primaryChoices vs) : choice.value.IsText := by
  have hnone : choice ∈ noPrimary → choice.value.IsText := fun h => by
    rw [List.mem_singleton.mp h]
    exact ⟨"", rfl⟩
  unfold primaryChoices at h
  split at h
  · split at h
    · obtain ⟨item, -, rfl⟩ := List.mem_map.mp h
      exact ⟨item, rfl⟩
    · exact hnone h
  · exact hnone h

theorem mem_names_bond (s : Setting) :
    ∀ name ∈ ["slaves", "bondmode", "bondprimary"], name ∈ (bond s).names := by
  have hnames : (bond s).names = (bond .blank).names := Panel.names_definition (.interface .bond) s
  rw [hnames]
  decide

/-- The declaration of the primary slave. -/
def primaryDeclaration : Declaration :=
  (Declaration.select "bondprimary" "Primary" noPrimary (.text "")).withInfo
    "Specifies which slave is the primary device."

theorem eq_primaryDeclaration {e : Declaration} (he : e ∈ (bond s).declarations)
    (hname : e.name = "bondprimary") : e = primaryDeclaration := by
  have hmem : primaryDeclaration ∈ (bond s).declarations :=
    List.mem_append_right _ (List.mem_cons_of_mem _ (List.mem_cons_of_mem _ List.mem_cons_self))
  exact List.inj_on_of_nodup_map (Panel.wellFormed (.interface .bond) s).distinct he hmem hname

end Primary

/-! ## Forms of a bond -/

/-- The form of a bond is in line, and the primary slave is a text. -/
structure Elects (s : Setting) (f : Form) : Prop where
  shows : Form.Shows (bond s) f
  text : (f.table.valueAt "bondprimary").IsText

section Elects

variable {s : Setting} {f : Form}

theorem Elects.exists_field (h : Elects s f) :
    ∀ name ∈ ["slaves", "bondmode", "bondprimary"], ∃ field, f.table.field? name = some field := by
  intro name hname
  rw [← FieldTable.mem_names_iff, h.shows.inUse.isOf.names]
  exact mem_names_bond s name hname

theorem Elects.choices (h : Elects s f) : f.table.choicesAt "bondprimary" =
    primaryChoices [f.table.valueAt "slaves", f.table.valueAt "bondmode"] :=
  (h.shows.consistent primaryCascade (List.mem_singleton.mpr rfl)).1

theorem Elects.call (h : Elects s f) {call : Call} (hrespects : f.Respects call)
    (hgives : f.Gives Value.IsText "bondprimary" call) : Elects s (f.call call).1 :=
  ⟨h.shows.call hrespects, Form.persists_call Value.IsText.cleared h.shows.inUse.isOf h.text hgives⟩

/-- Keys only choose a primary slave that is offered, and reset it to a blank text. -/
theorem Elects.keyCall (h : Elects s f) {call : Call} (hcall : f.KeyCall call) :
    Elects s (f.call call).1 := by
  have hof := h.shows.inUse.isOf
  have hrespects := h.shows.respects hcall
  refine h.call hrespects ?_
  cases hcall with
  | @set field code cursor v hfield hv _ =>
    intro hname
    have hdep : field.name ∈ f.wiring.dependents := by
      rw [hof.wiring, ← hname]
      exact Wiring.mem_dependents (w := (bond s).wiring) (List.mem_singleton.mpr rfl)
    have hoffers := hrespects hdep
    rw [← hname, h.choices] at hoffers
    obtain ⟨choice, hchoice, rfl⟩ := Choice.offers_iff.mp hoffers
    exact isText_of_mem_primaryChoices hchoice
  | reset _ =>
    intro _ field hfield hname
    rw [eq_primaryDeclaration (hof.decl_mem hfield) hname]
    exact ⟨"", rfl⟩
  | validate => trivial
  | commit => trivial

theorem Elects.focus (h : Elects s f) (position : Nat) : Elects s (f.focus position) :=
  ⟨h.shows.focus position, h.text⟩

theorem elects_opened (s : Setting) : Elects s (bond s).opened := by
  have hbuild : Form.build (bond s) = .ok (bond s).opened := Panel.build_definition (.interface .bond) s
  refine ⟨Form.shows_of_build (Panel.orderly (.interface .bond) s) hbuild, ?_⟩
  refine Form.persists_build Value.IsText.cleared hbuild ?_
  obtain ⟨field, hfield⟩ : ∃ field, (bond s).declared.field? "bondprimary" = some field := by
    rw [← FieldTable.mem_names_iff, Definition.names_declared]
    exact mem_names_bond s _ (by simp)
  obtain ⟨e, he, rfl⟩ := List.mem_map.mp (FieldTable.mem_of_field? hfield)
  rw [FieldTable.valueAt_of_field? hfield, Field.ofDeclaration,
    eq_primaryDeclaration he (FieldTable.name_of_field? hfield)]
  exact ⟨"", rfl⟩

/-- Opening a bond whose stored primary slave, if there is one, is a text. -/
theorem elects_of_load (s : Setting) {stored : NameMap Value}
    (htext : ∀ v, stored.get? "bondprimary" = some v → v.IsText) :
    Elects s ((bond s).opened.call (.load stored)).1 :=
  (elects_opened s).call trivial htext

/-- The primary slave is needed exactly in the modes that elect one. -/
theorem Elects.isRequired_iff (h : Elects s f) {primary : Field}
    (hprimary : f.table.field? "bondprimary" = some primary) :
    primary.effective.isRequired = true ↔ f.table.valueAt "bondmode" ∈ primaryModes := by
  have hof := h.shows.inUse.isOf
  have hforce := h.shows.inUse.inForce h.shows.orderly.card_dependents
  have hrequired : primary.effective.isRequired = true ↔ primary.effective.get .allowBlank = false := by
    simp only [Constraints.isRequired, Constraints.get, Bool.not_eq_true']
  rw [hrequired, ← holds_primaryRule_iff]
  constructor
  · intro hneeded
    by_contra hnot
    have hbaseline : primary.effective.get .allowBlank = primary.decl.baseline.get .allowBlank := by
      refine hforce.effective_of_silent hprimary fun r hr hholds hclaim => ?_
      rw [eq_primaryRule hr (Rule.mem_claims_iff.mp hclaim).1] at hholds
      exact hnot hholds
    have hdecl : primary.decl = primaryDeclaration := eq_primaryDeclaration
      (hof.decl_mem (FieldTable.mem_of_field? hprimary)) (FieldTable.name_of_field? hprimary)
    rw [hdecl, hneeded] at hbaseline
    exact absurd hbaseline (by decide)
  · exact hforce.aligned.effective_of_holds hof.rules_apart hprimary (primaryRule_mem s) (by decide)
      (by decide)

/-- The primary slave is one of its choices or blank. -/
theorem Elects.value (h : Elects s f) : f.table.valueAt "bondprimary" = .text "" ∨
    ∃ choice ∈ f.table.choicesAt "bondprimary", choice.value = f.table.valueAt "bondprimary" := by
  have hheld : primaryCascade.Held f.table :=
    (h.shows.consistent primaryCascade (List.mem_singleton.mpr rfl)).2
  rcases Cascade.surviving_eq_self_iff.mp hheld with hoffers | hcleared
  · exact Or.inr (Choice.offers_iff.mp hoffers)
  · left
    obtain ⟨x, hx⟩ := h.text
    rw [show f.table.valueAt "bondprimary" = _ from hcleared]
    show (f.table.valueAt "bondprimary").cleared = _
    rw [hx]
    rfl

end Elects

end Network

namespace Console

section Bond

/-- The choices for the primary slave and its need follow slaves and mode.  Whatever the candidates are and whatever a
bond is stored with, as long as the stored primary slave is a text if there is one, the panel opens, and after any keys
that leave it open the choices are the slaves in the modes 1, 5 and 6 and the one that stands for none in all others; the
primary slave is blank or one of its choices, and blank in the other modes; and it is needed exactly in these modes. -/
theorem bond_stays (source : Source) (now : TimeOfDay) {candidates : Candidates}
    {stored : Option StoredObject} (hcandidates : source.fetchCandidates = .ok candidates)
    (hstored : source.stored (.interface .bond) = .ok stored)
    (htext : ∀ o ∈ stored, ∀ v, o.values.get? "bondprimary" = some v → ∃ x, v = .text x) :
    ∃ form, source.openPanel now (.interface .bond) = .ok form ∧
      ∀ c : Console, c.panel = .interface .bond → c.form = form →
        ∀ keys : List (Surroundings × Key), c.Stays keys →
          (c.run keys).panel = .interface .bond ∧
          ∃ slaves mode primary, (c.run keys).form.table.lookup "slaves" = .ok slaves ∧
            (c.run keys).form.table.lookup "bondmode" = .ok mode ∧
            (c.run keys).form.table.lookup "bondprimary" = .ok primary ∧
            primary.choices =
              (if mode.value ∈ [.number 1, .number 5, .number 6]
                then slaves.value.asList.map fun item => ⟨item, .text item⟩
                else [⟨"None", .text ""⟩]) ∧
            (primary.value = .text "" ∨ ∃ choice ∈ primary.choices, choice.value = primary.value) ∧
            (mode.value ∉ [.number 1, .number 5, .number 6] → primary.value = .text "") ∧
            (primary.effective.isRequired = true ↔
              mode.value ∈ [.number 1, .number 5, .number 6]) := by
  have hopened : Network.Elects (Source.setting candidates stored now)
      ((Network.bond (Source.setting candidates stored now)).opened.run
        (stored.toList.map fun o => .load o.values)) := by
    cases stored with
    | none => exact Network.elects_opened _
    | some o => exact Network.elects_of_load _ (htext o rfl)
  refine ⟨_, Source.openPanel_eq_ok_iff.mpr ⟨candidates, stored, hcandidates, hstored, rfl⟩, ?_⟩
  intro c hpanel hform keys hstays
  obtain ⟨h, hsame⟩ := stays_induct (P := Network.Elects (Source.setting candidates stored now))
    (fun _ position h => h.focus position) (fun _ _ h hcall => h.keyCall hcall) hstays (hform ▸ hopened)
  refine ⟨hsame.trans hpanel, ?_⟩
  obtain ⟨slaves, hslaves⟩ := h.exists_field "slaves" (by simp)
  obtain ⟨mode, hmode⟩ := h.exists_field "bondmode" (by simp)
  obtain ⟨primary, hprimary⟩ := h.exists_field "bondprimary" (by simp)
  have hchoices := h.choices
  have hvalue := h.value
  have hrequired := h.isRequired_iff hprimary
  rw [Network.primaryChoices_pair, FieldTable.valueAt_of_field? hslaves,
    FieldTable.valueAt_of_field? hmode, FieldTable.choicesAt_of_field? hprimary] at hchoices
  rw [FieldTable.choicesAt_of_field? hprimary, FieldTable.valueAt_of_field? hprimary] at hvalue
  rw [FieldTable.valueAt_of_field? hmode] at hrequired
  refine ⟨slaves, mode, primary, ?_, ?_, ?_, hchoices, hvalue, fun hother => ?_, hrequired⟩
  · rw [FieldTable.lookup, hslaves]
  · rw [FieldTable.lookup, hmode]
  · rw [FieldTable.lookup, hprimary]
  · -- the only choice in the other modes is blank as well
    rcases hvalue with hblank | ⟨choice, hchoice, hchosen⟩
    · exact hblank
    · have hnone : mode.value ∉ Network.primaryModes := hother
      rw [hchoices, if_neg hnone] at hchoice
      rw [← hchosen, List.mem_singleton.mp hchoice]
      rfl

/-- The form of the stored bond of the sample. -/
def sampleForm : Form :=
  ((Panel.interface .bond).definition (Source.setting Fixture.sample.candidates
    (Fixture.sample.objects.get? "bond") .midnight)).opened.run
      ((Fixture.sample.objects.get? "bond").toList.map fun o => .load o.values)

theorem openPanel_sample : (Source.ofFixture .sample).openPanel .midnight (.interface .bond) = .ok sampleForm :=
  Source.openPanel_eq_ok_iff.mpr ⟨Fixture.sample.candidates, Fixture.sample.objects.get? "bond", rfl, rfl, rfl⟩

/-- The console with the stored bond of the sample open. -/
def sampleConsole : Console :=
  fresh { Config.none with initialPanel := some "bond" } (.interface .bond) sampleForm

/-- From the first field back to the mode, and on to the next mode. -/
def modeKeys : List (Surroundings × Key) :=
  [KeyCode.up, .up, .up, .up, .up, .right].map fun code => (⟨.ofFixture .sample, .midnight⟩, .plain code)

/-- The stored primary slave is gone once the mode elects none. -/
theorem bond_stays_sample : sampleConsole.form.table.valueAt "bondprimary" = .text "eth2" ∧
    sampleConsole.Stays modeKeys ∧ ∃ primary,
      (sampleConsole.run modeKeys).form.table.lookup "bondprimary" = .ok primary ∧
      primary.choices = [⟨"None", .text ""⟩] ∧ primary.value = .text "" ∧
      primary.effective.isRequired = false := by
  have hstays : sampleConsole.Stays modeKeys := stays_of_codes (by decide)
  have htext : ∀ o ∈ Fixture.sample.objects.get? "bond", ∀ v, o.values.get? "bondprimary" = some v →
      ∃ x, v = .text x := by
    intro o ho v hv
    have hstored : (Fixture.sample.objects.get? "bond").bind (·.values.get? "bondprimary") =
        some (.text "eth2") := by
      decide +kernel
    rw [Option.mem_def.mp ho, Option.bind_some, hv] at hstored
    exact ⟨"eth2", Option.some.inj hstored⟩
  obtain ⟨form, hopen, hshown⟩ := bond_stays (.ofFixture .sample) .midnight rfl rfl htext
  rw [openPanel_sample] at hopen
  obtain rfl := Except.ok.inj hopen
  obtain ⟨-, slaves, mode, primary, -, hmode, hprimary, hchoices, -, hblank, hrequired⟩ :=
    hshown sampleConsole rfl (form_fresh _ _ sampleForm) modeKeys hstays
  have hother : mode.value = .number 2 := by
    have hvalue : ((sampleConsole.run modeKeys).form.table.valueOf "bondmode").toOption =
        some (.number 2) := by
      decide +kernel
    rw [FieldTable.valueOf, hmode] at hvalue
    exact Option.some.inj hvalue
  rw [hother] at hchoices hblank hrequired
  refine ⟨by decide +kernel, hstays, primary, hprimary, hchoices, hblank (by decide), ?_⟩
  rw [← Bool.not_eq_true, hrequired]
  decide

end Bond

end Console

end FormConsole
