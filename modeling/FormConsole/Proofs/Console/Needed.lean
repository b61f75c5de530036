import FormConsole.Proofs.Console.State

/-!
# Needed fields can be edited

A field is mandatory by its baseline or by a rule, and read-only unless its baseline or another rule says otherwise.  Where
each rule that makes a field mandatory asks for at least as much as one that unlocks it, no field is ever both, whatever
values are written and in whatever order.  The panels are made so for new objects.

* `Definition.Passable`: what has to be unlocked is unlocked wherever it is made mandatory; `Panel.passable`.
* `InUse.editable_of_required`: in a form in use, what is mandatory is not read-only.
* `Console.Used`: the states that calls on the form and keys lead to while a panel is open.
* `Console.needed_editable`: with a panel that was opened for a new object, a missing value can always be entered.
-/

namespace FormConsole

/-! ## Definitions without dead ends -/

/-- No declared field is mandatory and read-only, and whatever rule makes a read-only field mandatory, another one with
no more conditions unlocks it. -/
structure Definition.Passable (d : Definition) : Prop where
  declared : ∀ e ∈ d.declarations, e.baseline.allowBlank = false → e.baseline.readOnly = false
  ruled : ∀ r ∈ d.rules, r.lastState? .allowBlank = some false → ∀ e ∈ d.declarations,
    e.name ∈ r.targets → e.baseline.readOnly = true →
      ∃ q ∈ d.rules, e.name ∈ q.targets ∧ q.lastState? .readOnly = some false ∧
        ∀ c ∈ q.conditions, c ∈ r.conditions

namespace Definition

variable {d d' : Definition}

/-- Whether there are dead ends is a matter of the layout and the rules. -/
theorem Passable.congr (h : d'.Passable) (houtline : d.outline = d'.outline) (hrules : d.rules = d'.rules) :
    d.Passable := by
  constructor
  · intro e he hneeded
    obtain ⟨b, hb, -, -, hbaseline⟩ := exists_of_outline houtline he
    rw [← hbaseline] at hneeded ⊢
    exact h.declared b hb hneeded
  · intro r hr hstate e he htarget hlocked
    obtain ⟨b, hb, hname, -, hbaseline⟩ := exists_of_outline houtline he
    rw [← hname] at htarget ⊢
    rw [← hbaseline] at hlocked
    rw [hrules] at hr ⊢
    exact h.ruled r hr hstate b hb htarget hlocked

end Definition

/-- A rule with no more conditions holds wherever the other one does. -/
theorem Rule.Holds.of_subset {r q : Rule} {t : FieldTable} (h : r.Holds t)
    (hsubset : ∀ c ∈ q.conditions, c ∈ r.conditions) : q.Holds t :=
  fun c hc => h c (hsubset c hc)

/-- In an open panel for a new object nothing is locked that has to be entered. -/
theorem Panel.passable (p : Panel) {s : Setting} (hnew : s.editing = false) :
    (p.definition s).Passable := by
  refine Definition.Passable.congr ?_ (p.outline_definition s hnew) (p.rules_definition s)
  constructor
  · rcases p with (_ | _ | _) | _ | _ | _ <;> decide
  · rcases p with (_ | _ | _) | _ | _ | _ <;> decide

namespace InUse

variable {d : Definition} {f : Form} {field : Field}

/-- What is mandatory, by its baseline or by a rule, can be edited. -/
theorem editable_of_required (h : InUse d f) (hd : d.Orderly) (hpass : d.Passable)
    (hfield : field ∈ f.fields) (hrequired : field.effective.isRequired = true) :
    field.effective.readOnly = false := by
  have hof := h.isOf
  have hforce := h.inForce hd.card_dependents
  have hlookup := FieldTable.field?_name_of_mem hof.nodup hfield
  have hdecl := hof.decl_mem hfield
  have hneeded : field.effective.get .allowBlank = false := by
    rwa [Constraints.isRequired, Bool.not_eq_true'] at hrequired
  by_contra hlocked
  rw [Bool.not_eq_false] at hlocked
  have hbaseline := h.readOnly_baseline hd hfield hlocked
  by_cases hclaimed : ∃ r ∈ d.rules, r.Holds f.table ∧ (⟨field.name, .allowBlank⟩ : Claim) ∈ r.claims
  · obtain ⟨r, hr, hholds, hclaim⟩ := hclaimed
    obtain ⟨htarget, b, hb⟩ := Rule.mem_claims_iff.mp hclaim
    rw [hforce.aligned.effective_of_holds hof.rules_apart hlookup hr htarget hb hholds] at hneeded
    subst hneeded
    -- the rule that unlocks the field holds as well
    obtain ⟨q, hq, hqtarget, hunlocks, hsubset⟩ := hpass.ruled r hr hb _ hdecl htarget hbaseline
    have hfree := hforce.aligned.effective_of_holds hof.rules_apart hlookup hq hqtarget hunlocks
      (hholds.of_subset hsubset)
    exact absurd (hfree.symm.trans hlocked) Bool.false_ne_true
  · rw [hforce.effective_of_silent hlookup fun r hr hholds hclaim =>
      hclaimed ⟨r, hr, hholds, hclaim⟩] at hneeded
    exact absurd ((hpass.declared _ hdecl hneeded).symm.trans hbaseline) Bool.false_ne_true

end InUse

/-! ## Missing values -/

namespace Checks

variable {checks : Checks} {t : FieldTable} {v : Violation}

theorem exists_of_mem_blankFields (h : v ∈ blankFields t) :
    ∃ field ∈ t.fields, field.effective.isRequired = true ∧ v = ⟨field.name, missing⟩ := by
  obtain ⟨field, hmem, rfl⟩ := List.mem_map.mp h
  obtain ⟨hfield, hneeds⟩ := List.mem_filter.mp hmem
  rw [Bool.and_eq_true] at hneeds
  exact ⟨field, hfield, hneeds.1, rfl⟩

theorem message_of_mem_crossViolations (h : v ∈ checks.crossViolations t) :
    (∃ e ∈ checks.exclusions, v.message = e.message) ∨ ∃ m ∈ checks.confirmations, v.message = m.message := by
  rw [crossViolations, List.mem_append, List.mem_flatMap, List.mem_flatMap] at h
  rcases h with ⟨e, he, hv⟩ | ⟨m, hm, hv⟩
  · refine Or.inl ⟨e, (List.mem_filter.mp he).1, ?_⟩
    simp only [Exclusion.violations, List.mem_cons, List.not_mem_nil, or_false] at hv
    rcases hv with rfl | rfl <;> rfl
  · refine Or.inr ⟨m, (List.mem_filter.mp hm).1, ?_⟩
    simp only [Confirmation.violations, List.mem_cons, List.not_mem_nil, or_false] at hv
    rcases hv with rfl | rfl <;> rfl

/-- The checks across fields have messages of their own. -/
def Distinct (checks : Checks) : Prop :=
  (∀ e ∈ checks.exclusions, e.message ≠ missing) ∧ ∀ m ∈ checks.confirmations, m.message ≠ missing

instance (checks : Checks) : Decidable checks.Distinct :=
  inferInstanceAs (Decidable (_ ∧ _))

/-- A violation that says that a value is missing is of a field that needs one. -/
theorem exists_required_of_missing (hdistinct : checks.Distinct) (h : v ∈ checks.violations t)
    (hmissing : v.message = missing) :
    ∃ field ∈ t.fields, field.name = v.field ∧ field.effective.isRequired = true := by
  rw [violations] at h
  split at h
  · rcases message_of_mem_crossViolations h with ⟨e, he, hmessage⟩ | ⟨m, hm, hmessage⟩
    · exact absurd (hmessage.symm.trans hmissing) (hdistinct.1 e he)
    · exact absurd (hmessage.symm.trans hmissing) (hdistinct.2 m hm)
  · obtain ⟨field, hfield, hrequired, rfl⟩ := exists_of_mem_blankFields h
    exact ⟨field, hfield, rfl, hrequired⟩

end Checks

theorem Panel.distinct_checks (p : Panel) (s : Setting) : (p.definition s).checks.Distinct := by
  rw [p.checks_definition s]
  rcases p with (_ | _ | _) | _ | _ | _ <;> decide

/-! ## Open panels -/

namespace Console

/-- The console after a call on its form. -/
def calling (c : Console) (call : Call) : Console :=
  { c with form := (c.form.call call).1 }

/-- The states that calls on the form, refused ones included, and keys lead to, in any order, as long as no key opens
another panel. -/
inductive Used (c : Console) : Console → Prop
  | refl : Used c c
  | called {c' : Console} (h : Used c c') (call : Call) : Used c (c'.calling call)
  | pressed {c' : Console} (h : Used c c') (around : Surroundings) (key : Key)
      (hstays : ¬ c'.Leaves around key) : Used c (c'.press around key).1

section Needed

variable {c c' : Console}

/-- The form stays one in use. -/
theorem Used.inUse {d : Definition} (h : c.Used c') (hc : InUse d c.form) : InUse d c'.form := by
  induction h with
  | refl => exact hc
  | called _ call ih => exact ih.called call
  | @pressed c' _ around key hstays ih =>
    rcases (c'.pressed_press around key).opens_or_keeps (P := InUse d) (fun _ position hf => hf.focused position)
      (fun _ call hf _ => hf.called call) ih with hopens | ⟨hform, -⟩
    · exact absurd ⟨_, _, hopens⟩ hstays
    · exact hform

/-- A panel without a stored object opens, whatever there is to choose from.  Then, whatever calls are made on its form
and whatever keys are pressed, no field is mandatory and read-only, so that every value that is found missing can be
entered. -/
theorem needed_editable {source : Source} {candidates : Candidates} {p : Panel} (now : TimeOfDay)
    (hcandidates : source.fetchCandidates = .ok candidates) (hstored : source.stored p = .ok none) :
    ∃ form, source.openPanel now p = .ok form ∧ ∀ c : Console, c.form = form → ∀ c', c.Used c' →
      (∀ field ∈ c'.form.fields, ¬ (field.effective.isRequired = true ∧ field.effective.readOnly = true)) ∧
      ∀ v ∈ c'.form.violations, v.message = Checks.missing →
        ∃ field ∈ c'.form.fields, field.name = v.field ∧ field.effective.readOnly = false := by
  have hnew : (Source.setting candidates none now).editing = false := rfl
  refine ⟨_, Source.openPanel_eq_ok_iff.mpr ⟨candidates, none, hcandidates, hstored, rfl⟩, ?_⟩
  intro c hform c' hused
  have hc : InUse (p.definition (Source.setting candidates none now)) c.form := by
    rw [hform]
    exact .opened (p.build_definition _)
  have h := hused.inUse hc
  have heditable : ∀ field ∈ c'.form.fields, field.effective.isRequired = true →
      field.effective.readOnly = false :=
    fun _ hfield => h.editable_of_required (p.orderly _) (p.passable hnew) hfield
  refine ⟨?_, ?_⟩
  · rintro field hfield ⟨hrequired, hlocked⟩
    exact absurd ((heditable field hfield hrequired).symm.trans hlocked) Bool.false_ne_true
  · intro v hv hmissing
    have hdistinct : c'.form.checks.Distinct := by
      rw [h.checks_eq]
      exact p.distinct_checks _
    obtain ⟨field, hfield, hname, hrequired⟩ := Checks.exists_required_of_missing hdistinct hv hmissing
    exact ⟨field, hfield, hname, heditable field hfield hrequired⟩

/-- A data layer without candidates and without stored objects. -/
def nothingStored : Source := .ofFixture ⟨.none, .empty⟩

/-- The console with the notification panel open where nothing is stored. -/
def mailConsole : Console :=
  fresh .none .notification (Panel.notification.definition (Source.setting .none none .midnight)).opened

/-- The console after notification and authentication were switched on. -/
def mailConsoleOn : Console :=
  (mailConsole.calling (.set "enable" (.bool true))).calling (.set "authenable" (.bool true))

/-- The user name is then mandatory, and not read-only any more. -/
theorem needed_editable_username : ∃ form field,
    nothingStored.openPanel .midnight .notification = .ok form ∧ mailConsole.form = form ∧
    mailConsole.Used mailConsoleOn ∧ field ∈ mailConsoleOn.form.fields ∧ field.name = "username" ∧
    field.effective.isRequired = true ∧ field.effective.readOnly = false := by
  have hcandidates : nothingStored.fetchCandidates = .ok .none := rfl
  have hstored : nothingStored.stored .notification = .ok none := rfl
  obtain ⟨form, hopen, hneeded⟩ := needed_editable .midnight hcandidates hstored
  have hform : mailConsole.form = form := by
    have hopened : nothingStored.openPanel .midnight .notification = .ok mailConsole.form :=
      Source.openPanel_eq_ok_iff.mpr ⟨.none, none, hcandidates, hstored, rfl⟩
    exact Except.ok.inj (hopened.symm.trans hopen)
  have hused : mailConsole.Used mailConsoleOn := (Used.refl.called _).called _
  have hrequired : (mailConsoleOn.form.table.field? "username").map (·.effective.isRequired) = some true := by
    decide +kernel
  obtain ⟨field, hlookup, hrequired⟩ := Option.map_eq_some_iff.mp hrequired
  have hfield : field ∈ mailConsoleOn.form.fields := FieldTable.mem_of_field? hlookup
  have hboth := (hneeded mailConsole hform mailConsoleOn hused).1 field hfield
  refine ⟨form, field, hopen, hform, hused, hfield, FieldTable.name_of_field? hlookup, hrequired, ?_⟩
  rw [← Bool.not_eq_true]
  exact fun hlocked => hboth ⟨hrequired, hlocked⟩

end Needed

end Console

end FormConsole
