import FormConsole.Proofs.Console.Press
import FormConsole.Proofs.Panel.Definition

/-!
# The states of the console

A panel is opened with a form that was built and perhaps loaded, and after that keys only make calls that leave dependents
to their cascades.  So whatever was pressed before, and whatever the data layer answered, the form on the screen is in use
and in line with its values.

* `Source.openPanel_eq_ok_iff`: when a panel opens, and with which form.
* `Console.Reachable`, `Console.Opened`: the states of the console, and those in which a panel was just opened.
* `Form.Shows`: the forms that are in use and in line; `Console.Reachable.shows`: they are the forms of all states.
-/

namespace FormConsole

/-! ## Forms in line -/

namespace Form

/-- The form is one in use of an orderly definition, and its choices are those for its values. -/
structure Shows (d : Definition) (f : Form) : Prop where
  orderly : d.Orderly
  inUse : InUse d f
  consistent : d.wiring.Consistent f.table

section Shows

variable {d : Definition} {f : Form}

theorem Shows.focus (h : Shows d f) (position : Nat) : Shows d (f.focus position) :=
  ⟨h.orderly, h.inUse.focused position, h.consistent⟩

theorem Shows.call (h : Shows d f) {call : Call} (hrespects : f.Respects call) :
    Shows d (f.call call).1 := by
  have hof := h.inUse.isOf
  have hall : f.RespectsAll [call] := ⟨hrespects, trivial⟩
  have hafter : d.wiring.Consistent (f.call call).1.table :=
    consistent_of_respectsAll hof h.orderly.card_dependents h.orderly.distinct h.consistent hall
  exact ⟨h.orderly, h.inUse.called call, hafter⟩

/-- The calls of keys leave dependents to their cascades. -/
theorem Shows.respects (h : Shows d f) {call : Call} (hcall : f.KeyCall call) : f.Respects call := by
  have hof := h.inUse.isOf
  cases hcall with
  | @set field code cursor v hfield hv _ =>
    intro hdep
    rw [hof.wiring, Wiring.dependents, List.mem_toFinset] at hdep
    obtain ⟨c, hc, hname⟩ := List.mem_map.mp hdep
    have hmem := mem_fields_of_activeField? hfield
    have hdecl : field.decl ∈ d.declarations := hof.decl_mem hmem
    rw [FieldTable.choicesAt_of_field? (FieldTable.field?_name_of_mem hof.nodup hmem)]
    exact offers_of_editedValue? (h.orderly.selects c hc field.decl hdecl hname.symm) hv
  | reset => trivial
  | validate => trivial
  | commit => trivial

theorem Shows.keyCall (h : Shows d f) {call : Call} (hcall : f.KeyCall call) :
    Shows d (f.call call).1 :=
  h.call (h.respects hcall)

theorem shows_of_build (hd : d.Orderly) (h : build d = .ok f) : Shows d f :=
  ⟨hd, .opened h, consistent_of_build h hd.card_dependents hd.distinct⟩

end Shows

end Form

namespace Source

section Opening

variable {s : Source} {now : TimeOfDay} {p : Panel} {f : Form}

/-- What is opened is the form of the definition, filled with the stored values if there are any. -/
theorem openForm_of_build {d : Definition} (hbuild : Form.build d = .ok d.opened)
    (stored : Option StoredObject) :
    openForm d stored = .ok (d.opened.run (stored.toList.map fun o => .load o.values)) := by
  unfold openForm
  rw [hbuild]
  cases stored with
  | none => rfl
  | some o =>
    have hload := Form.load_eq (Form.isOf_of_build hbuild) o.values
    simp only [bind, Except.bind, hload, Option.toList_some, List.map_cons, List.map_nil, Form.run_cons,
      Form.run_nil, Form.call]
    rfl

/-- A panel opens if the data layer answers, and its form is then that of its definition in some setting. -/
theorem openPanel_eq_ok_iff : s.openPanel now p = .ok f ↔
    ∃ candidates stored, s.fetchCandidates = .ok candidates ∧ s.stored p = .ok stored ∧
      f = (p.definition (setting candidates stored now)).opened.run
        (stored.toList.map fun o => .load o.values) := by
  unfold openPanel
  cases hcandidates : s.fetchCandidates with
  | error e => simp [bind, Except.bind]
  | ok candidates =>
    cases hstored : s.stored p with
    | error e => simp [bind, Except.bind]
    | ok stored =>
      have hopen := openForm_of_build (p.build_definition (setting candidates stored now)) stored
      simp [bind, Except.bind, hopen, Except.mapError, eq_comm]

theorem shows_of_openPanel (h : s.openPanel now p = .ok f) :
    ∃ setting, Form.Shows (p.definition setting) f := by
  obtain ⟨candidates, stored, -, -, rfl⟩ := openPanel_eq_ok_iff.mp h
  refine ⟨setting candidates stored now, ?_⟩
  have hopened := Form.shows_of_build (p.orderly _) (p.build_definition (setting candidates stored now))
  cases stored with
  | none => exact hopened
  | some o =>
    have hrespects : (p.definition (setting candidates (some o) now)).opened.Respects (.load o.values) :=
      trivial
    exact hopened.call hrespects

end Opening

end Source

/-! ## The states of the console -/

namespace Console

/-- The console right after it was started. -/
def fresh (config : Config) (p : Panel) (form : Form) : Console :=
  ⟨config, p, form, false, none, [], 0⟩

@[simp] theorem form_fresh (config : Config) (p : Panel) (form : Form) :
    (fresh config p form).form = form := rfl

theorem start_eq_ok_iff {config : Config} {around : Surroundings} {c : Console} :
    start config around = .ok c ↔ ∃ form,
      around.source.openPanel around.now config.panel = .ok form ∧ c = fresh config config.panel form := by
  unfold start
  cases around.source.openPanel around.now config.panel with
  | error e => simp [bind, Except.bind]
  | ok form => simp [bind, Except.bind, pure, Except.pure, fresh, eq_comm]

/-- The states that any keys lead to, whatever surrounds the console when each of them is pressed. -/
inductive Reachable : Console → Prop
  | started {config : Config} {around : Surroundings} {c : Console}
      (h : start config around = .ok c) : Reachable c
  | pressed {c : Console} (h : Reachable c) (around : Surroundings) (key : Key) :
      Reachable (c.press around key).1

/-- The states in which a panel was just opened. -/
inductive Opened : Console → Prop
  | started {config : Config} {around : Surroundings} {c : Console}
      (h : start config around = .ok c) : Opened c
  | switched {c : Console} {around : Surroundings} {key : Key} (h : Reachable c)
      (hleaves : c.Leaves around key) : Opened (c.press around key).1

/-- The console that is started with the panel that its configuration asks for. -/
theorem opened_fresh {config : Config} (around : Surroundings) {p : Panel} {form : Form}
    (hpanel : config.panel = p) (hopen : around.source.openPanel around.now p = .ok form) :
    Opened (fresh config p form) := by
  subst hpanel
  exact .started (start_eq_ok_iff.mpr ⟨form, hopen, rfl⟩)

theorem Opened.reachable {c : Console} (h : Opened c) : Reachable c := by
  cases h with
  | started h => exact .started h
  | switched h _ => exact h.pressed _ _

theorem Reachable.run {c : Console} (h : Reachable c) (keys : List (Surroundings × Key)) :
    Reachable (c.run keys) := by
  induction keys generalizing c with
  | nil => exact h
  | cons k keys ih => exact ih (h.pressed k.1 k.2)

section Shows

variable {c : Console}

/-- What a form has when its panel is opened, and what the focus and the calls of keys keep, the form has in every state. -/
theorem Reachable.exists_setting {P : Definition → Form → Prop}
    (hopened : ∀ {source : Source} {now : TimeOfDay} {p : Panel} {f : Form},
      source.openPanel now p = .ok f → ∃ s, P (p.definition s) f)
    (hfocus : ∀ {d f} (position), P d f → P d (f.focus position))
    (hcall : ∀ {d f call}, P d f → f.KeyCall call → P d (f.call call).1) (h : Reachable c) :
    ∃ s, P (c.panel.definition s) c.form := by
  induction h with
  | started hstart =>
    obtain ⟨form, hopen, rfl⟩ := start_eq_ok_iff.mp hstart
    exact hopened hopen
  | @pressed c _ around key ih =>
    obtain ⟨s, hs⟩ := ih
    have hpressed := (c.pressed_press around key).opens_or_keeps (P := P (c.panel.definition s))
      (fun _ position hf => hfocus position hf) (fun _ _ hf hkey => hcall hf hkey) hs
    rcases hpressed with ⟨-, hopen⟩ | ⟨hform, hpanel⟩
    · exact hopened hopen
    · exact ⟨s, hpanel ▸ hform⟩

/-- In every state, the form is one of the open panel and in line. -/
theorem Reachable.shows (h : Reachable c) : ∃ s, Form.Shows (c.panel.definition s) c.form :=
  h.exists_setting Source.shows_of_openPanel (fun position hf => hf.focus position) fun hf hkey => hf.keyCall hkey

end Shows

end Console

end FormConsole
