import FormConsole.Proofs.Console.Bond
import FormConsole.Proofs.Console.Marks
import FormConsole.Proofs.Form.Shape

/-!
# The focus and the cursor

The active field is a position among the fields and the cursor is one among the choices of the active field, but neither is
kept with what it counts.  Fields never change, and the choices of a multi-select do not either while its panel is open:
a cascade leads into selects only.  So it is enough that the cursor returns to the first choice whenever the focus moves.

* `stepBack_stepForward`, `stepForward_stepBack`, `iterate_stepForward`, `existsUnique_step`: positions in a round.
* `Form.Steady`: what multi-selects offer never changes.
* `Console.Points`: what a key does to the focus and to the cursor.
* `Console.InRange`, `Console.Reachable.inRange`: focus and cursor are in range in every state.
* `Console.cursors_in_range`: what that means for the keys that toggle a choice, and for the keys that move the focus.
-/

namespace FormConsole

/-- No cascade leads into a multi-select. -/
theorem Definition.Orderly.ne_dependent {d : Definition} (h : d.Orderly) {e : Declaration} (he : e ∈ d.declarations)
    (hkind : e.kind = .multiSelect) : ∀ c ∈ d.cascades, c.dependent ≠ e.name := by
  intro c hc hname
  rw [h.selects c hc e he hname.symm] at hkind
  exact absurd hkind (by decide)

/-! ## Rounds -/

section Rounds

variable {count i j k : Nat}

theorem stepForward_lt (h : i < count) : stepForward count i < count :=
  Nat.mod_lt _ (Nat.zero_lt_of_lt h)

theorem stepBack_lt (h : i < count) : stepBack count i < count :=
  Nat.mod_lt _ (Nat.zero_lt_of_lt h)

/-- A way of at most one round passes the end at most once. -/
theorem add_mod_round (hi : i < count) (hk : k ≤ count) :
    (i + k) % count = if i + k < count then i + k else i + k - count := by
  split
  · next hlt => exact Nat.mod_eq_of_lt hlt
  · next hge =>
    rw [Nat.mod_eq_sub_mod (Nat.le_of_not_lt hge)]
    exact Nat.mod_eq_of_lt (by omega)

theorem stepBack_eq (h : i < count) : stepBack count i = if i = 0 then count - 1 else i - 1 := by
  rw [stepBack, Nat.add_sub_assoc (Nat.one_le_of_lt h), add_mod_round h (Nat.sub_le _ _)]
  split
  · split <;> omega
  · split <;> omega

theorem stepForward_eq (h : i < count) : stepForward count i = if i + 1 < count then i + 1 else 0 := by
  rw [stepForward, add_mod_round h (Nat.one_le_of_lt h)]
  split
  · rfl
  · omega

theorem stepBack_stepForward (h : i < count) : stepBack count (stepForward count i) = i := by
  rw [stepBack_eq (stepForward_lt h), stepForward_eq h]
  split <;> split <;> omega

theorem stepForward_stepBack (h : i < count) : stepForward count (stepBack count i) = i := by
  rw [stepForward_eq (stepBack_lt h), stepBack_eq h]
  split <;> split <;> omega

theorem iterate_stepForward (h : i < count) (k : Nat) : (stepForward count)^[k] i = (i + k) % count := by
  induction k with
  | zero => exact (Nat.mod_eq_of_lt h).symm
  | succ k ih => rw [Function.iterate_succ_apply', ih, stepForward, Nat.mod_add_mod, Nat.add_assoc]

/-- A round passes every position exactly once. -/
theorem existsUnique_round (hi : i < count) (hj : j < count) : ∃! k, k < count ∧ (i + k) % count = j := by
  have hpasses : ∀ k, k < count → ((i + k) % count = j ↔ k = if i ≤ j then j - i else j + count - i) := by
    intro k hk
    rw [add_mod_round hi hk.le]
    split <;> split <;> omega
  have hlt : (if i ≤ j then j - i else j + count - i) < count := by
    split <;> omega
  refine ⟨_, ⟨hlt, (hpasses _ hlt).mpr rfl⟩, ?_⟩
  rintro k ⟨hk, hpassed⟩
  exact (hpasses k hk).mp hpassed

/-- So it is reached by exactly one step of a round. -/
theorem existsUnique_step (hi : i < count) (hj : j < count) : ∃! k, k < count ∧ (i + (k + 1)) % count = j := by
  have hround := existsUnique_round (stepForward_lt hi) hj
  simpa only [stepForward, Nat.mod_add_mod, Nat.add_assoc, Nat.add_comm 1] using hround

end Rounds

/-! ## The focus of a form -/

namespace Form

section Focus

variable {f : Form}

theorem nextField_eq (h : f.active < f.fields.length) :
    f.nextField = f.focus (stepForward f.fields.length f.active) :=
  if_neg (Nat.ne_zero_of_lt h)

theorem prevField_eq (h : f.active < f.fields.length) :
    f.prevField = f.focus (stepBack f.fields.length f.active) := by
  rw [prevField, if_neg (Nat.ne_zero_of_lt h), stepBack_eq h]
  split
  · rfl
  · rfl

theorem prevField_nextField (h : f.active < f.fields.length) : f.nextField.prevField = f := by
  have hback : (f.focus (stepForward f.fields.length f.active)).prevField = _ := prevField_eq (stepForward_lt h)
  rw [nextField_eq h, hback]
  exact congrArg f.focus (stepBack_stepForward h)

theorem nextField_prevField (h : f.active < f.fields.length) : f.prevField.nextField = f := by
  have hforward : (f.focus (stepBack f.fields.length f.active)).nextField = _ := nextField_eq (stepBack_lt h)
  rw [prevField_eq h, hforward]
  exact congrArg f.focus (stepForward_stepBack h)

end Focus

/-! ## Choices that do not change -/

section Steady

variable {d : Definition} {f f' : Form} {field : Field}

theorem IsOf.length_fields (h : IsOf d f) : f.fields.length = d.declarations.length := by
  rw [← h.declarations]
  exact (List.length_map _).symm

/-- Two forms of one definition have fields with the same declarations at the same positions. -/
theorem IsOf.exists_activeField (h : IsOf d f) (h' : IsOf d f') (hactive : f'.active = f.active)
    (hfield : f.activeField? = some field) : ∃ field', f'.activeField? = some field' ∧ field'.decl = field.decl := by
  have hdeclared : (f.table.fields.map (·.decl))[f.active]? = some field.decl := by
    rw [List.getElem?_map]
    exact congrArg (Option.map (·.decl)) hfield
  have hsame : f'.table.fields.map (·.decl) = f.table.fields.map (·.decl) :=
    h'.declarations.trans h.declarations.symm
  rw [← hsame, List.getElem?_map, ← hactive] at hdeclared
  exact Option.map_eq_some_iff.mp hdeclared

/-- A form of an orderly definition is in line, and its multi-selects offer what they are declared with. -/
structure Steady (d : Definition) (f : Form) : Prop where
  shows : Shows d f
  choices : ∀ e ∈ d.declarations, e.kind = .multiSelect → f.table.choicesAt e.name = e.choices

theorem Steady.choices_activeField (h : Steady d f) (hfield : f.activeField? = some field)
    (hkind : field.decl.kind = .multiSelect) : field.choices = field.decl.choices := by
  have hof := h.shows.inUse.isOf
  have hmem := mem_fields_of_activeField? hfield
  rw [← h.choices _ (hof.decl_mem hmem) hkind]
  exact (FieldTable.choicesAt_of_field? (FieldTable.field?_name_of_mem hof.nodup hmem)).symm

theorem Steady.focus (h : Steady d f) (position : Nat) : Steady d (f.focus position) :=
  ⟨h.shows.focus position, h.choices⟩

theorem Steady.call (h : Steady d f) {call : Call} (hrespects : f.Respects call)
    (hgiven : ∀ name choices, call ≠ .setChoices name choices) : Steady d (f.call call).1 := by
  refine ⟨h.shows.call hrespects, fun e he hkind => ?_⟩
  have hunderived := h.shows.orderly.ne_dependent he hkind
  refine choices_call (R := (· = e.choices)) (fun c hc hdep => absurd hdep (hunderived c hc)) h.shows.inUse.isOf
    (h.choices e he hkind) ?_
  cases call with
  | setChoices name choices => exact absurd rfl (hgiven name choices)
  | _ => trivial

theorem Steady.keyCall (h : Steady d f) {call : Call} (hcall : f.KeyCall call) : Steady d (f.call call).1 := by
  refine h.call (h.shows.respects hcall) fun name choices => ?_
  cases hcall <;> exact Call.noConfusion

theorem steady_filled (hd : d.Orderly) (hbuild : build d = .ok d.opened) (stored : Option StoredObject) :
    Steady d (d.filled stored) := by
  have hopened : Steady d d.opened := by
    refine ⟨shows_of_build hd hbuild, fun e he hkind => ?_⟩
    have hunderived := hd.ne_dependent he hkind
    refine choices_build (R := (· = e.choices)) (fun c hc hdep => absurd hdep (hunderived c hc)) hbuild ?_
    exact FieldTable.choicesAt_of_field? (field?_declared (build_eq_ok_iff.mp hbuild).1 he)
  cases stored with
  | none => exact hopened
  | some o =>
    have hloaded : Steady d (d.opened.call (.load o.values)).1 := hopened.call trivial (by simp)
    exact hloaded

end Steady

end Form

theorem Panel.declarations_ne_nil (p : Panel) (s : Setting) : (p.definition s).declarations ≠ [] := by
  intro hnil
  have hnames : (p.definition s).names = [] := by rw [Definition.names, hnil, List.map_nil]
  rw [names_definition] at hnames
  rcases p with (_ | _ | _) | _ | _ | _ <;> exact absurd hnames (by decide)

section Opening

variable {s : Source} {now : TimeOfDay} {p : Panel} {f : Form}

theorem Source.steady_of_openPanel (h : s.openPanel now p = .ok f) :
    ∃ setting, Form.Steady (p.definition setting) f := by
  obtain ⟨candidates, stored, -, -, rfl⟩ := openPanel_eq_ok_iff.mp h
  exact ⟨setting candidates stored now, Form.steady_filled (p.orderly _) (p.build_definition _) stored⟩

/-- A panel opens with the focus on its first field, for it has one. -/
theorem Source.active_lt_of_openPanel (h : s.openPanel now p = .ok f) : f.active < f.fields.length := by
  obtain ⟨candidates, stored, -, -, rfl⟩ := openPanel_eq_ok_iff.mp h
  have hof := Definition.isOf_filled (p.build_definition (setting candidates stored now)) stored
  rw [← Definition.filled, Definition.active_filled, hof.length_fields]
  exact List.length_pos_iff.mpr (p.declarations_ne_nil _)

end Opening

namespace Console

/-! ## One key -/

section Steps

variable {c c' : Console} {around : Surroundings} {key : Key} {field : Field}

/-- What a key does to the focus and to the cursor: it opens a panel, moves the focus, moves the cursor among the choices of
the active field, or leaves both where they are. -/
inductive Points (c : Console) (around : Surroundings) (key : Key) (c' : Console) : Prop
  | opened {p : Panel} (hopen : around.source.openPanel around.now p = .ok c'.form) (hcursor : c'.cursor = 0)
  | focused (hform : c'.form = c.form.nextField ∨ c'.form = c.form.prevField) (hcursor : c'.cursor = 0)
  | moved {field : Field} (hform : c'.form = c.form) (hfield : c.form.activeField? = some field)
      (hkind : field.decl.kind = .multiSelect) (hcursor : c'.cursor < field.choices.length)
  | stayed (hstays : ¬ c.Leaves around key) (hactive : c'.form.active = c.form.active) (hcursor : c'.cursor = c.cursor)

theorem cursor_finishEdit {α : Type} (c : Console) (r : Form × Except FormError α) :
    (c.finishEdit r).1.cursor = c.cursor := by
  obtain ⟨form, status, vs, heq⟩ := c.exists_finishEdit r
  rw [heq]

theorem active_finishEdit {α : Type} (c : Console) (r : Form × Except FormError α) :
    (c.finishEdit r).1.form.active = r.1.active := by
  rcases c.form_finishEdit r with hform | hform
  · rw [hform]
  · rw [hform]
    exact (Form.call_static _ .validate).2.2.2

theorem cursor_submit (c : Console) : c.submit.cursor = c.cursor := by
  obtain ⟨form, status, vs, heq⟩ := c.exists_submit
  rw [heq]

theorem active_submit (c : Console) : c.submit.form.active = c.form.active := by
  rw [form_submit]
  split
  · rfl
  · rfl

theorem lt_of_movedCursor? {code : KeyCode} {cursor : Nat} (h : c.movedCursor? field code = some cursor) :
    field.decl.kind = .multiSelect ∧ cursor < field.choices.length := by
  unfold movedCursor? at h
  split at h
  · next hmulti =>
    have hpos : 0 < field.choices.length := List.length_pos_iff.mpr hmulti.2
    refine ⟨hmulti.1, ?_⟩
    split at h
    · rw [← Option.some.inj h]
      exact Nat.mod_lt _ hpos
    · rw [← Option.some.inj h]
      exact Nat.mod_lt _ hpos
    · cases h
  · cases h

theorem points_editActive (hstays : ¬ c.Leaves around key) (code : KeyCode) :
    c.Points around key (c.editActive code).1 := by
  unfold editActive
  split
  · exact .stayed hstays rfl rfl
  · next field hfield =>
    split
    · next cursor hmoved =>
      obtain ⟨hkind, hlt⟩ := lt_of_movedCursor? hmoved
      exact .moved rfl hfield hkind hlt
    · split
      · exact .stayed hstays rfl rfl
      · next v hv =>
        unfold editField
        split
        · exact .stayed hstays rfl rfl
        · refine .stayed hstays ?_ (c.cursor_finishEdit _)
          exact (c.active_finishEdit _).trans (Form.call_static _ (.set field.name v)).2.2.2

theorem points_resetActive (hstays : ¬ c.Leaves around key) : c.Points around key c.resetActive.1 := by
  unfold resetActive
  split
  · exact .stayed hstays rfl rfl
  · next field hfield =>
    refine .stayed hstays ?_ (c.cursor_finishEdit _)
    exact (c.active_finishEdit _).trans (Form.call_static _ (.resetToBaseline field.name)).2.2.2

theorem points_switchPanel {p : Panel} (htarget : key.target? c.panel = some p) :
    c.Points around key (c.switchPanel around p).1 := by
  unfold switchPanel
  split
  · next e hopen =>
    refine .stayed ?_ rfl rfl
    rintro ⟨other, form, hother, hopens⟩
    obtain rfl := Option.some.inj (htarget.symm.trans hother)
    rw [hopen] at hopens
    cases hopens
  · next form hopen => exact .opened hopen rfl

theorem points_press (c : Console) (around : Surroundings) (key : Key) :
    c.Points around key (c.press around key).1 := by
  by_cases htarget : ∃ p, key.target? c.panel = some p
  · obtain ⟨p, htarget⟩ := htarget
    rw [press_of_target? htarget]
    exact points_switchPanel htarget
  · have hstays : ¬ c.Leaves around key := fun ⟨p, _, hsome, _⟩ => htarget ⟨p, hsome⟩
    obtain ⟨code, control⟩ := key
    unfold press
    dsimp only
    split
    · exact .stayed hstays rfl rfl
    · exact absurd ⟨_, rfl⟩ htarget
    · exact absurd ⟨_, rfl⟩ htarget
    · exact .focused (Or.inl rfl) rfl
    · exact .focused (Or.inl rfl) rfl
    · exact .focused (Or.inr rfl) rfl
    · exact .focused (Or.inr rfl) rfl
    · split
      · exact .stayed hstays c.active_submit c.cursor_submit
      · exact points_editActive hstays _
    · split
      · exact points_resetActive hstays
      · exact points_editActive hstays _
    · exact points_editActive hstays _

end Steps

/-! ## All states -/

section Range

variable {c : Console} {key : Key}

/-- The focus is on a field, and the cursor is at the first choice unless it is at one of an active multi-select. -/
structure InRange (c : Console) : Prop where
  active : c.form.active < c.form.fields.length
  cursor : c.cursor = 0 ∨ ∃ field, c.form.activeField? = some field ∧ field.decl.kind = .multiSelect ∧
    c.cursor < field.choices.length

theorem Reachable.steady (h : Reachable c) : ∃ s, Form.Steady (c.panel.definition s) c.form :=
  h.exists_setting Source.steady_of_openPanel (fun position hf => hf.focus position) fun hf hkey => hf.keyCall hkey

/-- As long as the panel stays open, its form stays one of the same definition. -/
theorem Reachable.exists_steady_press (h : Reachable c) (around : Surroundings) (hstays : ¬ c.Leaves around key) :
    ∃ s, Form.Steady (c.panel.definition s) c.form ∧
      Form.Steady (c.panel.definition s) (c.press around key).1.form := by
  obtain ⟨s, hs⟩ := h.steady
  have hpressed := (c.pressed_press around key).opens_or_keeps (P := Form.Steady (c.panel.definition s))
    (fun _ position hf => hf.focus position) (fun _ _ hf hkey => hf.keyCall hkey) hs
  rcases hpressed with hopens | ⟨hform, -⟩
  · exact absurd ⟨_, _, hopens⟩ hstays
  · exact ⟨_, hs, hform⟩

/-- A key leaves focus and cursor in range. -/
theorem InRange.press (h : c.InRange) (hreach : Reachable c) (around : Surroundings) (key : Key) :
    (c.press around key).1.InRange := by
  cases c.points_press around key with
  | opened hopen hcursor => exact ⟨Source.active_lt_of_openPanel hopen, Or.inl hcursor⟩
  | focused hform hcursor =>
    refine ⟨?_, Or.inl hcursor⟩
    rcases hform with hform | hform
    · rw [hform, Form.nextField_eq h.active]
      exact stepForward_lt h.active
    · rw [hform, Form.prevField_eq h.active]
      exact stepBack_lt h.active
  | moved hform hfield hkind hcursor =>
    refine ⟨?_, Or.inr ⟨_, ?_, hkind, hcursor⟩⟩
    · rw [hform]
      exact h.active
    · rw [hform]
      exact hfield
  | stayed hstays hactive hcursor =>
    obtain ⟨s, hbefore, hafter⟩ := hreach.exists_steady_press around hstays
    refine ⟨?_, ?_⟩
    · rw [hactive, hafter.shows.inUse.isOf.length_fields, ← hbefore.shows.inUse.isOf.length_fields]
      exact h.active
    · rw [hcursor]
      refine h.cursor.imp_right ?_
      rintro ⟨field, hfield, hkind, hlt⟩
      -- the active field still offers as many choices
      obtain ⟨field', hfield', hdecl⟩ :=
        hbefore.shows.inUse.isOf.exists_activeField hafter.shows.inUse.isOf hactive hfield
      have hkind' : field'.decl.kind = .multiSelect := by rw [hdecl, hkind]
      refine ⟨field', hfield', hkind', ?_⟩
      rwa [hafter.choices_activeField hfield' hkind', hdecl, ← hbefore.choices_activeField hfield hkind]

theorem Reachable.inRange (h : Reachable c) : c.InRange := by
  induction h with
  | started hstart =>
    obtain ⟨form, hopen, rfl⟩ := start_eq_ok_iff.mp hstart
    exact ⟨Source.active_lt_of_openPanel hopen, Or.inl rfl⟩
  | pressed hreach around key ih => exact ih.press hreach around key

end Range

/-! ## Editing the active field -/

section Editing

variable {c : Console} {around : Surroundings} {key : Key} {field : Field}

/-- Keys that work on the active field only, whatever its kind. -/
def editing : List KeyCode := [.char ' ', .enter, .left, .right]

theorem press_of_editing (hcode : key.code ∈ editing) : c.press around key = c.editActive key.code := by
  obtain ⟨code, control⟩ := key
  simp only [editing, List.mem_cons, List.not_mem_nil, or_false] at hcode
  rcases hcode with rfl | rfl | rfl | rfl <;> rfl

theorem not_leaves_of_editing (hcode : key.code ∈ editing) : ¬ c.Leaves around key := by
  have hnone : ∀ code ∈ editing, code ≠ .function 2 ∧ code ≠ .function 3 := by decide
  exact not_leaves_of_target? (Key.target?_eq_none_iff.mpr (hnone _ hcode))

/-- A key that moves no cursor gives the active field the value that it has for it, unless the field is read-only. -/
theorem editActive_of_edited (hfield : c.form.activeField? = some field) {code : KeyCode} {v : Value}
    (hmoved : c.movedCursor? field code = none) (hedited : editedValue? field code c.cursor = some v)
    (hfree : field.effective.readOnly = false) : c.editActive code = c.finishEdit (c.form.set field.name v) := by
  have hopen : ¬ field.effective.readOnly = true := by simp [hfree]
  simp only [editActive, hfield, hmoved, hedited, editField, if_neg hopen]

/-- What follows an edit at most marks the fields. -/
theorem alike_finishEdit {α : Type} (c : Console) (r : Form × Except FormError α) :
    r.1.table.Alike (c.finishEdit r).1.form.table := by
  rcases c.form_finishEdit r with hform | hform
  · rw [hform]
    exact .refl _
  · rw [hform]
    exact FieldTable.alike_mark _ _

/-- In every state, a key that sets the active field is not refused.  The field has the value it is given, offers what it
did, and keeps the focus, and the cursor stays. -/
theorem Reachable.exists_press_set (h : Reachable c) (hfield : c.form.activeField? = some field)
    (hstays : ¬ c.Leaves around key) {v : Value}
    (hpress : c.press around key = c.finishEdit (c.form.set field.name v)) :
    ∃ field', (c.press around key).2 = .ok () ∧ (c.press around key).1.cursor = c.cursor ∧
      (c.press around key).1.form.activeField? = some field' ∧ field'.decl = field.decl ∧
      field'.choices = field.choices ∧ field'.value = v := by
  obtain ⟨s, hbefore, hafter⟩ := h.exists_steady_press around hstays
  have hof := hbefore.shows.inUse.isOf
  have hof' := hafter.shows.inUse.isOf
  have hmem := Form.mem_fields_of_activeField? hfield
  have hname : field.name ∈ c.form.table.names := List.mem_map_of_mem hmem
  have hactive : (c.press around key).1.form.active = c.form.active := by
    rw [hpress, active_finishEdit]
    exact (Form.call_static _ (.set field.name v)).2.2.2
  obtain ⟨field', hfield', hdecl⟩ := hof.exists_activeField hof' hactive hfield
  have hlookup := FieldTable.field?_name_of_mem hof'.nodup (Form.mem_fields_of_activeField? hfield')
  have halike := c.alike_finishEdit (c.form.set field.name v)
  obtain ⟨hvalue, hchoices⟩ := Form.views_set_self hof hname (c.panel.undriven s) v
  rw [Field.name, hdecl] at hlookup
  rw [← hpress] at halike
  refine ⟨field', ?_, ?_, hfield', hdecl, ?_, ?_⟩
  · rw [hpress, Form.set_of_mem hof hname]
    rfl
  · rw [hpress, cursor_finishEdit]
  · rw [← FieldTable.choicesAt_of_field? hlookup, halike.choicesAt, hchoices,
      FieldTable.choicesAt_of_field? (FieldTable.field?_name_of_mem hof.nodup hmem)]
  · rw [← FieldTable.valueAt_of_field? hlookup, halike.valueAt, hvalue]

end Editing

/-! ## Toggling a choice -/

section Toggling

variable {c : Console} {around : Surroundings} {key : Key} {field : Field}

/-- The key toggles a choice. -/
def Toggles (code : KeyCode) : Prop := code = .char ' ' ∨ code = .enter

theorem Toggles.editing {code : KeyCode} (h : Toggles code) : code ∈ editing := by
  rcases h with rfl | rfl <;> decide

theorem Toggles.movedCursor? {code : KeyCode} (h : Toggles code) (c : Console) (field : Field) :
    c.movedCursor? field code = none := by
  rcases h with rfl | rfl
  · exact ite_self none
  · exact ite_self none

theorem Toggles.editedValue? {code : KeyCode} (h : Toggles code) (hkind : field.decl.kind = .multiSelect)
    (cursor : Nat) : FormConsole.editedValue? field code cursor =
      (field.choices[cursor]?).map fun o => field.value.toggled o.value.asText := by
  unfold FormConsole.editedValue?
  generalize field.decl.kind = kind at hkind
  subst hkind
  rcases h with rfl | rfl
  · rfl
  · rfl

/-- Such a key gives the active multi-select the highlighted choice or takes it away. -/
theorem press_of_toggles (around : Surroundings) (hcode : Toggles key.code)
    (hfield : c.form.activeField? = some field) (hkind : field.decl.kind = .multiSelect)
    (hfree : field.effective.readOnly = false) {o : Choice} (ho : field.choices[c.cursor]? = some o) :
    c.press around key = c.finishEdit (c.form.set field.name (field.value.toggled o.value.asText)) := by
  have hmoved := hcode.movedCursor? c field
  have hedited := hcode.editedValue? hkind c.cursor
  rw [ho, Option.map_some] at hedited
  rw [press_of_editing hcode.editing, editActive_of_edited hfield hmoved hedited hfree]

/-- In every state, a key that toggles finds a highlighted choice and toggles it, and leaves the cursor on it. -/
theorem Reachable.exists_press_toggled (h : Reachable c) (hcode : Toggles key.code)
    (hfield : c.form.activeField? = some field) (hkind : field.decl.kind = .multiSelect) (hoffers : field.choices ≠ [])
    (hfree : field.effective.readOnly = false) (around : Surroundings) :
    ∃ o field', field.choices[c.cursor]? = some o ∧ (c.press around key).2 = .ok () ∧
      (c.press around key).1.cursor = c.cursor ∧ (c.press around key).1.form.activeField? = some field' ∧
      field'.decl = field.decl ∧ field'.choices = field.choices ∧
      field'.value = field.value.toggled o.value.asText := by
  have hlt : c.cursor < field.choices.length := by
    rcases h.inRange.cursor with hzero | ⟨other, hother, -, hlt⟩
    · rw [hzero]
      exact List.length_pos_iff.mpr hoffers
    · obtain rfl := Option.some.inj (hfield.symm.trans hother)
      exact hlt
  have ho : field.choices[c.cursor]? = some field.choices[c.cursor] := List.getElem?_eq_getElem hlt
  have hpress := press_of_toggles around hcode hfield hkind hfree ho
  obtain ⟨field', hset⟩ := h.exists_press_set hfield (not_leaves_of_editing hcode.editing) hpress
  exact ⟨_, field', ho, hset⟩

end Toggling

/-! ## Moving the focus -/

section Moving

variable {c : Console} {key : Key}

theorem form_press_tab (around : Surroundings) (hcode : key.code = .tab) :
    (c.press around key).1.form = c.form.nextField := by
  rw [press, hcode]
  rfl

theorem form_press_backTab (around : Surroundings) (hcode : key.code = .backTab) :
    (c.press around key).1.form = c.form.prevField := by
  rw [press, hcode]
  rfl

/-- The key that moves the focus on, pressed any number of times, moves it by as many fields in the round. -/
theorem form_run_tab (h : c.form.active < c.form.fields.length) {keys : List (Surroundings × Key)}
    (hkeys : ∀ k ∈ keys, k.2.code = .tab) :
    (c.run keys).form = c.form.focus ((c.form.active + keys.length) % c.form.fields.length) := by
  have hsteps : (c.run keys).form = c.form.focus ((stepForward c.form.fields.length)^[keys.length] c.form.active) := by
    induction keys using List.reverseRecOn with
    | nil => rfl
    | append_singleton keys k ih =>
      have hmoved := ih fun k' hk' => hkeys k' (List.mem_append_left _ hk')
      have hactive : (stepForward c.form.fields.length)^[keys.length] c.form.active < c.form.fields.length := by
        rw [iterate_stepForward h]
        exact Nat.mod_lt _ (Nat.zero_lt_of_lt h)
      have hnext : (c.form.focus ((stepForward c.form.fields.length)^[keys.length] c.form.active)).nextField = _ :=
        Form.nextField_eq hactive
      rw [run_concat, form_press_tab k.1 (hkeys k (by simp)), hmoved, hnext, List.length_append,
        List.length_singleton, Function.iterate_succ_apply']
      rfl
  rw [hsteps, iterate_stepForward h]

/-- The focus comes round: as many keys as there are fields lead back to the form, and every field has the focus after
exactly one of them. -/
theorem round_run_tab (h : c.form.active < c.form.fields.length) {keys : List (Surroundings × Key)}
    (hkeys : ∀ k ∈ keys, k.2.code = .tab) (hlength : keys.length = c.form.fields.length) :
    (c.run keys).form = c.form ∧ ∀ i < c.form.fields.length,
      ∃! k, k < c.form.fields.length ∧ (c.run (keys.take (k + 1))).form.active = i := by
  refine ⟨?_, fun i hi => ?_⟩
  · rw [form_run_tab h hkeys, hlength, Nat.add_mod_right, Nat.mod_eq_of_lt h]
    rfl
  · refine (existsUnique_congr fun k => and_congr_right fun hk => ?_).mpr (existsUnique_step h hi)
    have htaken : (keys.take (k + 1)).length = k + 1 := by
      rw [List.length_take, hlength]
      exact Nat.min_eq_left hk
    rw [form_run_tab h fun key hkey => hkeys key (List.mem_of_mem_take hkey), htaken]
    rfl

/-- Focus and cursor are in range in every state, whatever keys were pressed and whatever the data layer answered.  The
focus is on one of the fields, and the cursor is at the first choice unless this field is a multi-select that offers
something; then it is at one of its choices.  So if the multi-select is not read-only, then a key that toggles is never
refused and never does nothing: the item of the highlighted choice is picked if it was not and dropped if it was, and the
others stay.  And the two keys that move the focus undo each other, while as many presses of one of them as there are fields
give every field the focus exactly once and leave the form as it was. -/
theorem cursors_in_range (h : Reachable c) :
    c.form.active < c.form.fields.length ∧
    (∃ field, c.form.activeField? = some field ∧
      if field.decl.kind = .multiSelect ∧ field.choices ≠ [] then c.cursor < field.choices.length else c.cursor = 0) ∧
    (∀ (around : Surroundings) (key : Key) (field : Field), (key.code = .char ' ' ∨ key.code = .enter) →
      c.form.activeField? = some field → field.decl.kind = .multiSelect → field.choices ≠ [] →
      field.effective.readOnly = false → ∃ o field', field.choices[c.cursor]? = some o ∧
        (c.press around key).2 = .ok () ∧ (c.press around key).1.cursor = c.cursor ∧
        (c.press around key).1.form.activeField? = some field' ∧ field'.decl = field.decl ∧
        field'.choices = field.choices ∧ field'.value = field.value.toggled o.value.asText ∧
        field'.value.asList.filter (· != o.value.asText) = field.value.asList.filter (· != o.value.asText) ∧
        field'.value.asList.count o.value.asText = if o.value.asText ∈ field.value.asList
          then field.value.asList.count o.value.asText - 1 else 1) ∧
    (∀ (around around' : Surroundings) (tab backTab : Key), tab.code = .tab → backTab.code = .backTab →
      ((c.press around tab).1.press around' backTab).1.form = c.form ∧
      ((c.press around backTab).1.press around' tab).1.form = c.form) ∧
    ∀ keys : List (Surroundings × Key), (∀ k ∈ keys, k.2.code = .tab) → keys.length = c.form.fields.length →
      (c.run keys).form = c.form ∧ ∀ i < c.form.fields.length,
        ∃! k, k < c.form.fields.length ∧ (c.run (keys.take (k + 1))).form.active = i := by
  have hrange := h.inRange
  have hactive := hrange.active
  refine ⟨hactive, ?_, ?_, ?_, fun keys => round_run_tab hactive⟩
  · have hfield : c.form.activeField? = some c.form.fields[c.form.active] := List.getElem?_eq_getElem hactive
    refine ⟨_, hfield, ?_⟩
    rcases hrange.cursor with hzero | ⟨other, hother, hkind, hlt⟩
    · split
      · next hoffers =>
        rw [hzero]
        exact List.length_pos_iff.mpr hoffers.2
      · exact hzero
    · obtain rfl := Option.some.inj (hfield.symm.trans hother)
      rw [if_pos ⟨hkind, List.ne_nil_of_length_pos (Nat.zero_lt_of_lt hlt)⟩]
      exact hlt
  · intro around key field hcode hfield hkind hoffers hfree
    obtain ⟨o, field', ho, hok, hcursor, hfield', hdecl, hchoices, hvalue⟩ :=
      h.exists_press_toggled hcode hfield hkind hoffers hfree around
    refine ⟨o, field', ho, hok, hcursor, hfield', hdecl, hchoices, hvalue, ?_, ?_⟩
    · rw [hvalue, Value.filter_toggled]
    · rw [hvalue, Value.count_toggled]
  · intro around around' tab backTab htab hbackTab
    refine ⟨?_, ?_⟩
    · rw [form_press_backTab around' hbackTab, form_press_tab around htab, Form.prevField_nextField hactive]
    · rw [form_press_tab around' htab, form_press_backTab around hbackTab, Form.nextField_prevField hactive]

/-- From the first field back to the slaves, and on to the second of them. -/
def slaveKeys : List (Surroundings × Key) :=
  [KeyCode.up, .up, .up, .up, .up, .up, .right].map fun code => (⟨.ofFixture .sample, .midnight⟩, .plain code)

/-- The second slave of the stored bond of the sample is highlighted, and dropped with a single key. -/
theorem cursors_in_range_slaves : Reachable (sampleConsole.run slaveKeys) ∧
    (sampleConsole.run slaveKeys).cursor = 1 ∧ ∃ slaves slaves',
      (sampleConsole.run slaveKeys).form.activeField? = some slaves ∧ slaves.value = .list ["eth1", "eth2"] ∧
      ((sampleConsole.run slaveKeys).press ⟨.ofFixture .sample, .midnight⟩ (.plain .enter)).1.form.activeField? =
        some slaves' ∧ slaves'.value = .list ["eth1"] := by
  have hreach : Reachable (sampleConsole.run slaveKeys) :=
    (opened_fresh ⟨.ofFixture .sample, .midnight⟩ (by decide +kernel) openPanel_sample).reachable.run slaveKeys
  have hcursor : (sampleConsole.run slaveKeys).cursor = 1 := by decide +kernel
  have hshown : (sampleConsole.run slaveKeys).form.activeField?.map
      (fun field => (field.decl.kind, field.effective.readOnly, field.value, field.choices.map (·.value.asText))) =
        some (.multiSelect, false, .list ["eth1", "eth2"], ["eth1", "eth2", "eth3"]) := by
    decide +kernel
  obtain ⟨slaves, hslaves, heq⟩ := Option.map_eq_some_iff.mp hshown
  simp only [Prod.mk.injEq] at heq
  obtain ⟨hkind, hfree, hvalue, hitems⟩ := heq
  have hoffers : slaves.choices ≠ [] := by
    rintro hnil
    rw [hnil] at hitems
    cases hitems
  obtain ⟨-, -, htoggled, -⟩ := cursors_in_range hreach
  obtain ⟨o, slaves', ho, -, -, hslaves', -, -, hvalue', -⟩ :=
    htoggled ⟨.ofFixture .sample, .midnight⟩ (.plain .enter) slaves (Or.inr rfl) hslaves hkind hoffers hfree
  have hitem : o.value.asText = "eth2" := by
    have hsecond := congrArg (·[1]?) hitems
    rw [hcursor] at ho
    simpa [ho] using hsecond
  refine ⟨hreach, hcursor, slaves, slaves', hslaves, hvalue, hslaves', ?_⟩
  rw [hvalue', hvalue, hitem]
  decide

end Moving

end Console

end FormConsole
