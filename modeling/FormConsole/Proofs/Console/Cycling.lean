import FormConsole.Proofs.Console.Cursor

/-!
# Cycling through choices

A select goes to the choice beside the one it holds, in a round.  Which one it holds is not kept: every key looks for the
value among the choices again.  As long as no value is offered twice, it finds the choice that was taken last, so that any
keys to either side move as far as they do on positions, and a value that is not offered leads to the first choice.

* `choicePosition?_of_getElem?`: the position of a value that is offered once.
* `Field.valueAfter?`: the value after keys that edit a field; `Field.valueAfter?_turns`: after any keys to either side.
* `Console.Reachable.exists_run_turned`: the same keys, pressed one after the other on a console.
* `Console.select_cycles`: what that means for one key, for a round, and for a value that is not offered.
-/

namespace FormConsole

/-! ## Positions of values -/

section Positions

variable {choices : List Choice} {v : Value} {i j : Nat} {o o' : Choice}

/-- A value that is offered once is found where it is offered. -/
theorem choicePosition?_of_getElem? (hdistinct : (choices.map (·.value)).Nodup) (ho : choices[i]? = some o) :
    choicePosition? choices o.value = some i := by
  obtain ⟨hi, rfl⟩ := List.getElem?_eq_some_iff.mp ho
  refine List.findIdx?_eq_some_iff_getElem.mpr ⟨hi, by simp, fun j hj => ?_⟩
  have hne := (List.pairwise_iff_getElem.mp hdistinct) j i (by simp; omega) (by simpa using hi) hj
  simpa using hne

/-- Choices at two positions have two values. -/
theorem value_eq_iff (hdistinct : (choices.map (·.value)).Nodup) (ho : choices[i]? = some o)
    (ho' : choices[j]? = some o') : o.value = o'.value ↔ i = j := by
  constructor
  · intro hvalue
    have hposition := choicePosition?_of_getElem? hdistinct ho
    rw [hvalue, choicePosition?_of_getElem? hdistinct ho'] at hposition
    exact (Option.some.inj hposition).symm
  · rintro rfl
    rw [Option.some.inj (ho.symm.trans ho')]

theorem choicePosition?_of_not_offers (h : Choice.offers choices v = false) : choicePosition? choices v = none :=
  List.findIdx?_eq_none_iff.mpr fun o ho => Bool.eq_false_of_not_eq_true (List.any_eq_false.mp h o ho)

variable (move : Nat → Nat → Nat)

theorem movedValue?_of_getElem? (hdistinct : (choices.map (·.value)).Nodup) (ho : choices[i]? = some o) :
    movedValue? move choices o.value = (choices[move choices.length i]?).map (·.value) := by
  rw [movedValue?, movedPosition, choicePosition?_of_getElem? hdistinct ho]

theorem movedValue?_of_not_offers (h : Choice.offers choices v = false) :
    movedValue? move choices v = choices.head?.map (·.value) := by
  rw [movedValue?, movedPosition, choicePosition?_of_not_offers h, List.head?_eq_getElem?]

end Positions

/-! ## Keys to either side -/

namespace KeyCode

/-- The key goes to one side. -/
def Turns (code : KeyCode) : Prop := code = .left ∨ code = .right

/-- How far a key goes, to the right. -/
def step : KeyCode → Int
  | .right => 1
  | .left => -1
  | _ => 0

/-- How far keys go together. -/
def steps (codes : List KeyCode) : Int :=
  codes.foldr (fun code n => code.step + n) 0

@[simp] theorem steps_nil : steps [] = 0 := rfl

@[simp] theorem steps_cons (code : KeyCode) (codes : List KeyCode) :
    steps (code :: codes) = code.step + steps codes := rfl

theorem steps_replicate_right (k : Nat) : steps (List.replicate k .right) = k := by
  induction k with
  | zero => rfl
  | succ k ih =>
    rw [List.replicate_succ, steps_cons, ih, step]
    omega

end KeyCode

section Rounds

variable {count i : Nat}

theorem natCast_stepForward (count i : Nat) : (stepForward count i : Int) = (i + KeyCode.right.step) % count := by
  rw [stepForward, Int.natCast_emod, Int.natCast_add, Int.natCast_one]
  rfl

/-- The way back does not pass below zero, for a whole round is added first. -/
theorem natCast_stepBack (h : i < count) : (stepBack count i : Int) = (i + KeyCode.left.step) % count := by
  have hround : ((i + count - 1 : Nat) : Int) = i + KeyCode.left.step + count := by
    rw [KeyCode.step]
    omega
  rw [stepBack, Int.natCast_emod, hround, Int.add_emod_right]

end Rounds

namespace Field

section Turns

variable {f : Field} {cursor i : Nat} {o : Choice} {code : KeyCode} {codes : List KeyCode} {v : Value}

/-- The value after keys that each edit the field, with the option cursor at that position; `none` if one of them does
not. -/
def valueAfter? (f : Field) (cursor : Nat) (codes : List KeyCode) : Option Value :=
  codes.foldlM (fun v code => editedValue? { f with value := v } code cursor) f.value

@[simp] theorem valueAfter?_nil (f : Field) (cursor : Nat) : f.valueAfter? cursor [] = some f.value := rfl

theorem valueAfter?_cons (f : Field) (cursor : Nat) (code : KeyCode) (codes : List KeyCode) :
    f.valueAfter? cursor (code :: codes) =
      (editedValue? f code cursor).bind fun v => { f with value := v }.valueAfter? cursor codes :=
  List.foldlM_cons

theorem editedValue?_right (hkind : f.decl.kind = .select) (cursor : Nat) :
    editedValue? f .right cursor = movedValue? stepForward f.choices f.value :=
  Form.editedValue?_of_select hkind .right cursor

theorem editedValue?_left (hkind : f.decl.kind = .select) (cursor : Nat) :
    editedValue? f .left cursor = movedValue? stepBack f.choices f.value :=
  Form.editedValue?_of_select hkind .left cursor

variable (hkind : f.decl.kind = .select) (hdistinct : (f.choices.map (·.value)).Nodup)
include hkind hdistinct

/-- A key to either side goes to the choice beside the one that is held. -/
theorem editedValue?_turn (hcode : code.Turns) (ho : f.choices[i]? = some o)
    (hvalue : f.value = o.value) (cursor : Nat) : ∃ (j : Nat) (o' : Choice),
      (j : Int) = (i + code.step) % f.choices.length ∧ f.choices[j]? = some o' ∧
        editedValue? f code cursor = some o'.value := by
  obtain ⟨hi, -⟩ := List.getElem?_eq_some_iff.mp ho
  rcases hcode with rfl | rfl
  · have hlt := stepBack_lt hi
    refine ⟨_, _, natCast_stepBack hi, List.getElem?_eq_getElem hlt, ?_⟩
    rw [editedValue?_left hkind, hvalue, movedValue?_of_getElem? _ hdistinct ho, List.getElem?_eq_getElem hlt,
      Option.map_some]
  · have hlt := stepForward_lt hi
    refine ⟨_, _, natCast_stepForward _ _, List.getElem?_eq_getElem hlt, ?_⟩
    rw [editedValue?_right hkind, hvalue, movedValue?_of_getElem? _ hdistinct ho, List.getElem?_eq_getElem hlt,
      Option.map_some]

/-- Keys to either side go as far as they do together. -/
theorem valueAfter?_turns (hcodes : ∀ code ∈ codes, code.Turns) (ho : f.choices[i]? = some o)
    (hvalue : f.value = o.value) (cursor : Nat) : ∃ (j : Nat) (o' : Choice),
      (j : Int) = (i + KeyCode.steps codes) % f.choices.length ∧ f.choices[j]? = some o' ∧
        f.valueAfter? cursor codes = some o'.value := by
  obtain ⟨hi, -⟩ := List.getElem?_eq_some_iff.mp ho
  induction codes generalizing f i o with
  | nil =>
    refine ⟨i, o, ?_, ho, ?_⟩
    · rw [KeyCode.steps_nil, Int.add_zero, Int.emod_eq_of_lt (by omega) (by omega)]
    · rw [valueAfter?_nil, hvalue]
  | cons code codes ih =>
    rw [List.forall_mem_cons] at hcodes
    obtain ⟨j, o', hj, ho', hedited⟩ := editedValue?_turn hkind hdistinct hcodes.1 ho hvalue cursor
    obtain ⟨hjlt, -⟩ := List.getElem?_eq_some_iff.mp ho'
    obtain ⟨k, o'', hk, ho'', hrest⟩ := ih (f := { f with value := o'.value }) hkind hdistinct hcodes.2 ho' rfl hjlt
    refine ⟨k, o'', ?_, ho'', ?_⟩
    · rw [hk, hj, Int.emod_add_emod, KeyCode.steps_cons, Int.add_assoc]
    · rw [valueAfter?_cons, hedited, Option.bind_some, hrest]

/-- Keys that go a number of rounds together lead back. -/
theorem valueAfter?_of_rounds (hcodes : ∀ code ∈ codes, code.Turns) (ho : f.choices[i]? = some o)
    (hvalue : f.value = o.value) (hrounds : (f.choices.length : Int) ∣ KeyCode.steps codes) (cursor : Nat) :
    f.valueAfter? cursor codes = some f.value := by
  obtain ⟨hi, -⟩ := List.getElem?_eq_some_iff.mp ho
  obtain ⟨j, o', hj, ho', hafter⟩ := valueAfter?_turns hkind hdistinct hcodes ho hvalue cursor
  obtain ⟨rounds, hsum⟩ := hrounds
  rw [hsum, Int.add_mul_emod_self_left, Int.emod_eq_of_lt (by omega) (by omega), Int.natCast_inj] at hj
  rw [hafter, hvalue, (value_eq_iff hdistinct ho' ho).mpr hj]

/-- The same key any number of times goes as many choices on. -/
theorem valueAfter?_replicate_right (ho : f.choices[i]? = some o) (hvalue : f.value = o.value) (cursor k : Nat) :
    ∃ o', f.choices[(i + k) % f.choices.length]? = some o' ∧
      f.valueAfter? cursor (.replicate k .right) = some o'.value := by
  have hcodes : ∀ code ∈ List.replicate k KeyCode.right, code.Turns :=
    fun code hcode => Or.inr (List.eq_of_mem_replicate hcode)
  obtain ⟨j, o', hj, ho', hafter⟩ := valueAfter?_turns hkind hdistinct hcodes ho hvalue cursor
  have hposition : j = (i + k) % f.choices.length := by
    rw [KeyCode.steps_replicate_right] at hj
    exact_mod_cast hj
  exact ⟨o', hposition ▸ ho', hafter⟩

theorem valueAfter?_replicate_right_iff {j : Nat} {o' : Choice} (ho : f.choices[i]? = some o)
    (hvalue : f.value = o.value) (ho' : f.choices[j]? = some o') (cursor k : Nat) :
    f.valueAfter? cursor (.replicate k .right) = some o'.value ↔ (i + k) % f.choices.length = j := by
  obtain ⟨o'', ho'', hafter⟩ := valueAfter?_replicate_right hkind hdistinct ho hvalue cursor k
  rw [hafter, Option.some.injEq, value_eq_iff hdistinct ho'' ho']

end Turns

/-- What a key makes of a field depends on its kind, its choices and its value. -/
theorem editedValue?_congr {f f' : Field} (hdecl : f'.decl = f.decl) (hchoices : f'.choices = f.choices)
    (hvalue : f'.value = f.value) (code : KeyCode) (cursor : Nat) :
    editedValue? f' code cursor = editedValue? f code cursor := by
  unfold editedValue?
  rw [hdecl, hchoices, hvalue]

theorem valueAfter?_congr {f f' : Field} (hdecl : f'.decl = f.decl) (hchoices : f'.choices = f.choices)
    (hvalue : f'.value = f.value) (cursor : Nat) (codes : List KeyCode) :
    f'.valueAfter? cursor codes = f.valueAfter? cursor codes := by
  induction codes generalizing f f' with
  | nil => rw [valueAfter?_nil, valueAfter?_nil, hvalue]
  | cons code codes ih =>
    rw [valueAfter?_cons, valueAfter?_cons, editedValue?_congr hdecl hchoices hvalue]
    refine congrArg (Option.bind _) (funext fun v => ?_)
    exact ih hdecl hchoices rfl

end Field

/-! ## Selects of a panel -/

section Panels

theorem Panel.kinds_definition (p : Panel) (s : Setting) :
    (p.definition s).declarations.map (fun e => (e.name, e.kind)) =
      (p.definition .blank).declarations.map fun e => (e.name, e.kind) := by
  rcases p with (_ | _ | _) | _ | _ | _ <;> rfl

/-- No rule locks or unlocks a select. -/
theorem Panel.not_claimed_of_select {p : Panel} {s : Setting} {e : Declaration}
    (he : e ∈ (p.definition s).declarations) (hkind : e.kind = .select) :
    ∀ r ∈ (p.definition s).rules, (⟨e.name, .readOnly⟩ : Claim) ∉ r.claims := by
  have hblank : ∀ k ∈ (p.definition .blank).declarations.map fun e => (e.name, e.kind), k.2 = .select →
      ∀ r ∈ (p.definition .blank).rules, (⟨k.1, .readOnly⟩ : Claim) ∉ r.claims := by
    rcases p with (_ | _ | _) | _ | _ | _ <;> decide
  rw [← p.kinds_definition s, ← p.rules_definition s] at hblank
  exact hblank _ (List.mem_map_of_mem he) hkind

/-- So it is read-only if it is declared so. -/
theorem Form.Shows.readOnly_of_select {p : Panel} {s : Setting} {f : Form} {field : Field}
    (h : Form.Shows (p.definition s) f) (hfield : field ∈ f.fields) (hkind : field.decl.kind = .select) :
    field.effective.readOnly = field.decl.baseline.readOnly := by
  have hof := h.inUse.isOf
  have hforce := h.inUse.inForce h.orderly.card_dependents
  have hlookup := FieldTable.field?_name_of_mem hof.nodup hfield
  exact hforce.effective_of_silent (p := .readOnly) hlookup fun r hr _ =>
    Panel.not_claimed_of_select (hof.decl_mem hfield) hkind r hr

end Panels

/-! ## Keys on the console -/

namespace Console

section Turns

variable {c : Console} {key : Key} {field : Field} {v : Value}

theorem editing_of_turns {code : KeyCode} (h : code.Turns) : code ∈ editing := by
  rcases h with rfl | rfl <;> decide

/-- Such a key sets the active select, which stays free and keeps its choices. -/
theorem Reachable.exists_press_turned (h : Reachable c) (hcode : key.code.Turns)
    (hfield : c.form.activeField? = some field) (hkind : field.decl.kind = .select)
    (hfree : field.effective.readOnly = false) (hv : editedValue? field key.code c.cursor = some v)
    (around : Surroundings) : ∃ field', (c.press around key).1.cursor = c.cursor ∧
      (c.press around key).1.form.activeField? = some field' ∧ field'.decl = field.decl ∧
      field'.choices = field.choices ∧ field'.effective.readOnly = false ∧ field'.value = v := by
  have hmoved : c.movedCursor? field key.code = none :=
    if_neg fun hmulti => absurd (hkind.symm.trans hmulti.1) (by decide)
  have hpress : c.press around key = c.finishEdit (c.form.set field.name v) := by
    rw [press_of_editing (editing_of_turns hcode), editActive_of_edited hfield hmoved hv hfree]
  have hstays : ¬ c.Leaves around key := not_leaves_of_editing (editing_of_turns hcode)
  obtain ⟨field', -, hcursor, hfield', hdecl, hchoices, hvalue⟩ := h.exists_press_set hfield hstays hpress
  obtain ⟨s, hbefore, hafter⟩ := h.exists_steady_press around hstays
  have hfree' : field'.effective.readOnly = false := by
    rw [hafter.shows.readOnly_of_select (Form.mem_fields_of_activeField? hfield') (hdecl ▸ hkind), hdecl,
      ← hbefore.shows.readOnly_of_select (Form.mem_fields_of_activeField? hfield) hkind, hfree]
  exact ⟨field', hcursor, hfield', hdecl, hchoices, hfree', hvalue⟩

/-- Keys to either side, one after the other, make of the active select what they make of the field alone. -/
theorem Reachable.exists_run_turned (h : Reachable c) {keys : List (Surroundings × Key)}
    (hcodes : ∀ k ∈ keys, k.2.code.Turns) (hfield : c.form.activeField? = some field)
    (hkind : field.decl.kind = .select) (hfree : field.effective.readOnly = false)
    (hv : field.valueAfter? c.cursor (keys.map (·.2.code)) = some v) :
    ∃ field', (c.run keys).form.activeField? = some field' ∧ field'.decl = field.decl ∧
      field'.choices = field.choices ∧ field'.value = v := by
  induction keys generalizing c field with
  | nil => exact ⟨field, hfield, rfl, rfl, Option.some.inj hv⟩
  | cons k keys ih =>
    rw [List.forall_mem_cons] at hcodes
    rw [List.map_cons, Field.valueAfter?_cons] at hv
    obtain ⟨w, hw, hrest⟩ := Option.bind_eq_some_iff.mp hv
    obtain ⟨field', hcursor, hfield', hdecl, hchoices, hfree', hvalue⟩ :=
      h.exists_press_turned hcodes.1 hfield hkind hfree hw k.1
    have hrest' : field'.valueAfter? (c.press k.1 k.2).1.cursor (keys.map (·.2.code)) = some v := by
      rw [hcursor, ← hrest]
      exact Field.valueAfter?_congr (f := { field with value := w }) hdecl hchoices hvalue _ _
    obtain ⟨field'', hfield'', hdecl', hchoices', hvalue'⟩ :=
      ih (h.pressed k.1 k.2) hcodes.2 hfield' (hdecl ▸ hkind) hfree' hrest'
    exact ⟨field'', hfield'', hdecl'.trans hdecl, hchoices'.trans hchoices, hvalue'⟩

/-- A select with choices of different values turns in a round.  From any of its choices, a key to one side undoes one to
the other, any number of keys to the right go as many choices on, and as many as there are choices take each of them exactly
once and come back.  From a value that is not offered, either key takes the first choice.  And as long as the select is the
active field of a console in whatever state and is not read-only, this is what keys to either side make of it there. -/
theorem select_cycles (hkind : field.decl.kind = .select) (hoffers : field.choices ≠ [])
    (hdistinct : (field.choices.map (·.value)).Nodup) (cursor : Nat) :
    (∀ i o, field.choices[i]? = some o → field.value = o.value →
      field.valueAfter? cursor [.right, .left] = some field.value ∧
      field.valueAfter? cursor [.left, .right] = some field.value ∧
      (∀ k, ∃ o', field.choices[(i + k) % field.choices.length]? = some o' ∧
        field.valueAfter? cursor (.replicate k .right) = some o'.value) ∧
      field.valueAfter? cursor (.replicate field.choices.length .right) = some field.value ∧
      ∀ o' ∈ field.choices, ∃! k, k < field.choices.length ∧
        field.valueAfter? cursor (.replicate (k + 1) .right) = some o'.value) ∧
    (Choice.offers field.choices field.value = false → ∃ o, field.choices.head? = some o ∧
      editedValue? field .right cursor = some o.value ∧ editedValue? field .left cursor = some o.value) ∧
    ∀ (c : Console) (keys : List (Surroundings × Key)), Reachable c → c.form.activeField? = some field →
      field.effective.readOnly = false → (∀ k ∈ keys, k.2.code = .left ∨ k.2.code = .right) →
      ∀ v, field.valueAfter? c.cursor (keys.map (·.2.code)) = some v → ∃ field',
        (c.run keys).form.activeField? = some field' ∧ field'.decl = field.decl ∧ field'.choices = field.choices ∧
          field'.value = v := by
  refine ⟨fun i o ho hvalue => ⟨?_, ?_, ?_, ?_, ?_⟩, fun hnot => ?_,
    fun c keys hreach hfield hfree hcodes v hv => ?_⟩
  · have hcodes : ∀ code ∈ [KeyCode.right, .left], code.Turns := by simp [KeyCode.Turns]
    exact field.valueAfter?_of_rounds hkind hdistinct hcodes ho hvalue (by simp [KeyCode.step]) cursor
  · have hcodes : ∀ code ∈ [KeyCode.left, .right], code.Turns := by simp [KeyCode.Turns]
    exact field.valueAfter?_of_rounds hkind hdistinct hcodes ho hvalue (by simp [KeyCode.step]) cursor
  · exact field.valueAfter?_replicate_right hkind hdistinct ho hvalue cursor
  · have hround : (field.choices.length : Int) ∣ KeyCode.steps (.replicate field.choices.length .right) :=
      ⟨1, by rw [KeyCode.steps_replicate_right, Int.mul_one]⟩
    exact field.valueAfter?_of_rounds hkind hdistinct (by simp [KeyCode.Turns]) ho hvalue hround cursor
  · intro o' hmem
    obtain ⟨hi, -⟩ := List.getElem?_eq_some_iff.mp ho
    obtain ⟨j, ho'⟩ := List.mem_iff_getElem?.mp hmem
    obtain ⟨hj, -⟩ := List.getElem?_eq_some_iff.mp ho'
    refine (existsUnique_congr fun k => ?_).mpr (existsUnique_step hi hj)
    rw [field.valueAfter?_replicate_right_iff hkind hdistinct ho hvalue ho']
  · obtain ⟨o, rest, hchoices⟩ := List.exists_cons_of_ne_nil hoffers
    have hfirst : field.choices.head? = some o := by rw [hchoices, List.head?_cons]
    refine ⟨o, hfirst, ?_, ?_⟩
    · rw [Field.editedValue?_right hkind, movedValue?_of_not_offers _ hnot, hfirst, Option.map_some]
    · rw [Field.editedValue?_left hkind, movedValue?_of_not_offers _ hnot, hfirst, Option.map_some]
  · exact hreach.exists_run_turned hcodes hfield hkind hfree hv

/-- From the third of the seven modes of a bond, nine keys to the right lead past the last mode to the fifth one. -/
theorem select_cycles_mode : Reachable (sampleConsole.run modeKeys) ∧ ∃ mode mode',
    (sampleConsole.run modeKeys).form.activeField? = some mode ∧ mode.value = .number 2 ∧
    ((sampleConsole.run modeKeys).run
      (List.replicate 9 (⟨.ofFixture .sample, .midnight⟩, .plain .right))).form.activeField? = some mode' ∧
    mode'.value = .number 4 := by
  have hreach : Reachable (sampleConsole.run modeKeys) :=
    (opened_fresh ⟨.ofFixture .sample, .midnight⟩ (by decide +kernel) openPanel_sample).reachable.run modeKeys
  have hshown : (sampleConsole.run modeKeys).form.activeField?.map
      (fun field => (field.decl.kind, field.effective.readOnly, field.value, field.choices)) =
        some (.select, false, .number 2, Network.bondModes) := by
    decide +kernel
  obtain ⟨mode, hmode, heq⟩ := Option.map_eq_some_iff.mp hshown
  simp only [Prod.mk.injEq] at heq
  obtain ⟨hkind, hfree, hvalue, hchoices⟩ := heq
  have hoffers : mode.choices ≠ [] := by
    rw [hchoices]
    decide
  have hdistinct : (mode.choices.map (·.value)).Nodup := by
    rw [hchoices]
    decide
  have hthird : mode.choices[2]? = some ⟨"balance-xor", .number 2⟩ := by
    rw [hchoices]
    rfl
  obtain ⟨hturns, -, hkeys⟩ := select_cycles hkind hoffers hdistinct (sampleConsole.run modeKeys).cursor
  obtain ⟨-, -, hright, -⟩ := hturns 2 _ hthird hvalue
  obtain ⟨fifth, hfifth, hafter⟩ := hright 9
  rw [hchoices] at hfifth
  obtain rfl := Option.some.inj hfifth
  obtain ⟨mode', hmode', -, -, hvalue'⟩ := hkeys _ (List.replicate 9 (⟨.ofFixture .sample, .midnight⟩, .plain .right))
    hreach hmode hfree (by simp [Key.plain]) _ hafter
  exact ⟨hreach, mode, mode', hmode, hvalue, hmode', hvalue'⟩

end Turns

end Console

end FormConsole
