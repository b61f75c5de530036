import FormConsole.Console
import FormConsole.Proofs.Form.Snapshot

/-!
# What a key does

A key opens another panel, moves the focus, makes calls on the form that the active field admits, or leaves the form
alone.  So what holds of a form when its panel is opened, and is kept by the focus and by such calls, holds as long as the
panel stays open.

* `Console.Works`: the keys that save the form, or reset or edit the active field.
* `Console.Pressed`: the kinds of steps; `Console.pressed_press` says that there are no others.
* `Form.KeyCall`: the calls that a key makes on a form; `Form.cases_of_editedValue?`: the values that it gives.
* `Console.Stays`: keys that open no other panel; `Console.stays_induct`: what they keep.
-/

namespace FormConsole

/-! ## Calls that keys make -/

namespace Form

/-- The calls that a key makes: it gives the active field, unless that is read-only, a value that a key may give it, it
resets the active field, or it checks or saves the form. -/
inductive KeyCall (f : Form) : Call → Prop
  | set {field : Field} {code : KeyCode} {cursor : Nat} {v : Value} (hfield : f.activeField? = some field)
      (hv : editedValue? field code cursor = some v) (hreadOnly : field.effective.readOnly = false) :
      KeyCall f (.set field.name v)
  | reset {field : Field} (hfield : f.activeField? = some field) :
      KeyCall f (.resetToBaseline field.name)
  | validate : KeyCall f .validate
  | commit : KeyCall f .commit

section Focus

variable (f : Form)

theorem exists_focus_nextField : ∃ position, f.nextField = f.focus position := by
  unfold nextField
  split
  · exact ⟨f.active, rfl⟩
  · exact ⟨_, rfl⟩

theorem exists_focus_prevField : ∃ position, f.prevField = f.focus position := by
  unfold prevField
  split
  · exact ⟨f.active, rfl⟩
  · split
    · exact ⟨_, rfl⟩
    · exact ⟨_, rfl⟩

end Focus

theorem mem_fields_of_activeField? {f : Form} {field : Field} (h : f.activeField? = some field) :
    field ∈ f.fields :=
  List.mem_of_getElem? h

/-- Two keys edit a select. -/
theorem editedValue?_of_select {field : Field} (hkind : field.decl.kind = .select) (code : KeyCode)
    (cursor : Nat) : editedValue? field code cursor =
      match code with
      | .right => movedValue? stepForward field.choices field.value
      | .left => movedValue? stepBack field.choices field.value
      | _ => none := by
  unfold editedValue?
  generalize field.decl.kind = kind at hkind
  subst hkind
  cases code <;> rfl

/-- Keys that leave the field do not edit it, whatever its kind. -/
theorem editedValue?_of_leaving (field : Field) {code : KeyCode} (cursor : Nat)
    (hcode : code ∈ [.esc, .tab, .backTab, .up, .down] ∨ ∃ n, code = .function n) :
    editedValue? field code cursor = none := by
  unfold editedValue?
  rcases hcode with hcode | ⟨n, rfl⟩
  · simp only [List.mem_cons, List.not_mem_nil, or_false] at hcode
    rcases hcode with rfl | rfl | rfl | rfl | rfl <;> cases field.decl.kind <;> rfl
  · cases field.decl.kind <;> rfl

theorem offers_of_movedValue? {move : Nat → Nat → Nat} {choices : List Choice} {v w : Value}
    (h : movedValue? move choices v = some w) : Choice.offers choices w = true := by
  obtain ⟨c, hc, rfl⟩ := Option.map_eq_some_iff.mp h
  exact Choice.offers_iff.mpr ⟨c, List.mem_of_getElem? hc, rfl⟩

/-- They choose among what it offers. -/
theorem offers_of_editedValue? {field : Field} {code : KeyCode} {cursor : Nat} {v : Value}
    (hkind : field.decl.kind = .select) (hv : editedValue? field code cursor = some v) :
    Choice.offers field.choices v = true := by
  rw [editedValue?_of_select hkind] at hv
  split at hv
  · exact offers_of_movedValue? hv
  · exact offers_of_movedValue? hv
  · exact absurd hv (by simp)

/-- What a key may make of the value of a field: a tick is turned over, an item that is offered is picked or dropped, one of
the choices is taken, or a character is typed or removed. -/
theorem cases_of_editedValue? {field : Field} {code : KeyCode} {cursor : Nat} {v : Value}
    (hv : editedValue? field code cursor = some v) :
    (field.decl.kind = .checkbox ∧ v = .bool !field.value.isTrue) ∨
    (field.decl.kind = .multiSelect ∧ ∃ o ∈ field.choices, v = field.value.toggled o.value.asText) ∨
    (field.decl.kind = .select ∧ Choice.offers field.choices v = true) ∨
    (∃ c, v = field.value.pushed c) ∨ v = field.value.popped := by
  have htoggled : (field.choices[cursor]?).map (fun o => field.value.toggled o.value.asText) = some v →
      ∃ o ∈ field.choices, v = field.value.toggled o.value.asText := by
    intro htoggles
    obtain ⟨o, ho, rfl⟩ := Option.map_eq_some_iff.mp htoggles
    exact ⟨o, List.mem_of_getElem? ho, rfl⟩
  have hoffers : field.decl.kind = .select → Choice.offers field.choices v = true :=
    fun hkind => offers_of_editedValue? hkind hv
  unfold editedValue? at hv
  split at hv
  case h_1 hkind =>
    split at hv
    · exact Or.inl ⟨hkind, (Option.some.inj hv).symm⟩
    · exact Or.inl ⟨hkind, (Option.some.inj hv).symm⟩
    · exact absurd hv (by simp)
  case h_2 hkind =>
    split at hv
    · exact Or.inr (Or.inl ⟨hkind, htoggled hv⟩)
    · exact Or.inr (Or.inl ⟨hkind, htoggled hv⟩)
    · exact absurd hv (by simp)
  case h_3 hkind => exact Or.inr (Or.inr (Or.inl ⟨hkind, hoffers hkind⟩))
  -- the three kinds that are typed into
  all_goals
    cases code with
    | char c => exact Or.inr (Or.inr (Or.inr (Or.inl ⟨c, (Option.some.inj hv).symm⟩)))
    | backspace => exact Or.inr (Or.inr (Or.inr (Or.inr (Option.some.inj hv).symm)))
    | _ => exact absurd hv (by simp)

end Form

/-! ## Steps -/

namespace Key

/-- The key that saves the form. -/
def save : Key := ⟨.char 's', true⟩

/-- The key that resets the active field. -/
def reset : Key := ⟨.char 'r', true⟩

/-- The panel that a key asks for, if it asks for one. -/
def target? (key : Key) (p : Panel) : Option Panel :=
  match key.code with
  | .function 2 => some p.prev
  | .function 3 => some p.next
  | _ => none

theorem target?_eq_none_iff {key : Key} {p : Panel} :
    key.target? p = none ↔ key.code ≠ .function 2 ∧ key.code ≠ .function 3 := by
  unfold target?
  split <;> simp_all

/-- A key that asks for a panel is a function key. -/
theorem exists_function_of_target? {key : Key} {p q : Panel} (h : key.target? p = some q) :
    ∃ n, key.code = .function n := by
  unfold target? at h
  split at h
  · next hcode => exact ⟨2, hcode⟩
  · next hcode => exact ⟨3, hcode⟩
  · exact absurd h (by simp)

end Key

namespace Console

section Steps

variable (c : Console)

/-- The key opens another panel. -/
def Leaves (around : Surroundings) (key : Key) : Prop :=
  ∃ p form, key.target? c.panel = some p ∧ around.source.openPanel around.now p = .ok form

/-- The key works on the form: it saves it, or it resets or edits the active field. -/
def Works (key : Key) : Prop :=
  key = .save ∨ ∃ field, c.form.activeField? = some field ∧
    (key = .reset ∨
      ∃ v, editedValue? field key.code c.cursor = some v ∧ field.effective.readOnly = false)

/-- The steps of the console. -/
inductive Pressed (around : Surroundings) : Key → Console → Prop
  | switched {key : Key} {p : Panel} {form : Form} (htarget : key.target? c.panel = some p)
      (hopen : around.source.openPanel around.now p = .ok form) :
      Pressed around key { c with form := form, panel := p, violations := [], cursor := 0, status := none }
  | submitted : Pressed around .save c.submit
  | reset {field : Field} (hfield : c.form.activeField? = some field) :
      Pressed around .reset (c.finishEdit (c.form.resetToBaseline field.name)).1
  | edited {key : Key} {field : Field} {v : Value} (hfield : c.form.activeField? = some field)
      (hv : editedValue? field key.code c.cursor = some v)
      (hreadOnly : field.effective.readOnly = false) :
      Pressed around key (c.finishEdit (c.form.set field.name v)).1
  | focused {key : Key} (position : Nat) (hidle : ¬ c.Works key) :
      Pressed around key { c with form := c.form.focus position, cursor := 0 }
  | kept {key : Key} (quit : Bool) (status : Option Status) (cursor : Nat) (hidle : ¬ c.Works key) :
      Pressed around key { c with quit := quit, status := status, cursor := cursor }

section Idle

variable {c} {key : Key}

/-- A key that neither saves nor resets works on the form only if it gives the active field a value. -/
theorem exists_of_works (h : c.Works key) (hsave : key ≠ .save) (hreset : key ≠ .reset) :
    ∃ field v, c.form.activeField? = some field ∧
      editedValue? field key.code c.cursor = some v ∧ field.effective.readOnly = false := by
  obtain hkey | ⟨field, hfield, hkey | ⟨v, hv, hfree⟩⟩ := h
  · exact absurd hkey hsave
  · exact absurd hkey hreset
  · exact ⟨field, v, hfield, hv, hfree⟩

theorem not_works_of_leaving
    (hcode : key.code ∈ [.esc, .tab, .backTab, .up, .down] ∨ ∃ n, key.code = .function n) :
    ¬ c.Works key := by
  intro h
  have hsave : key ≠ .save := by
    rintro rfl
    simp [Key.save] at hcode
  have hreset : key ≠ .reset := by
    rintro rfl
    simp [Key.reset] at hcode
  obtain ⟨field, v, -, hv, -⟩ := exists_of_works h hsave hreset
  rw [Form.editedValue?_of_leaving field c.cursor hcode] at hv
  exact absurd hv (by simp)

/-- A key that moves the cursor among choices edits nothing. -/
theorem editedValue?_of_movedCursor? {field : Field} {code : KeyCode} {cursor : Nat}
    (h : c.movedCursor? field code = some cursor) : editedValue? field code c.cursor = none := by
  unfold movedCursor? at h
  split at h
  · next hmulti =>
    unfold editedValue?
    rw [hmulti.1]
    cases code with
    | left => rfl
    | right => rfl
    | _ => exact absurd h (by simp)
  · exact absurd h (by simp)

end Idle

theorem pressed_switchPanel (around : Surroundings) {key : Key} {p : Panel}
    (htarget : key.target? c.panel = some p) :
    c.Pressed around key (c.switchPanel around p).1 := by
  unfold switchPanel
  split
  · exact .kept _ _ _ (not_works_of_leaving (Or.inr (Key.exists_function_of_target? htarget)))
  · next form hopen => exact .switched htarget hopen

theorem pressed_resetActive (around : Surroundings) :
    c.Pressed around .reset c.resetActive.1 := by
  unfold resetActive
  split
  · next hnone =>
    refine .kept _ _ _ ?_
    rintro (hkey | ⟨field, hfield, -⟩)
    · exact absurd hkey (by decide)
    · rw [hnone] at hfield
      exact absurd hfield (by simp)
  · next field hfield => exact .reset hfield

theorem pressed_editActive (around : Surroundings) (key : Key) (hsave : key ≠ .save)
    (hreset : key ≠ .reset) : c.Pressed around key (c.editActive key.code).1 := by
  -- the key works on the form only through the value that it gives the active field
  have hidle : (∀ field v, c.form.activeField? = some field →
      editedValue? field key.code c.cursor = some v → field.effective.readOnly = true) →
      ¬ c.Works key := by
    intro hlocked hworks
    obtain ⟨field, v, hfield, hv, hfree⟩ := exists_of_works hworks hsave hreset
    rw [hlocked field v hfield hv] at hfree
    exact absurd hfree (by decide)
  unfold editActive
  split
  · next hnone =>
    refine .kept _ _ _ (hidle fun field v hfield _ => ?_)
    rw [hnone] at hfield
    exact absurd hfield (by simp)
  · next field hfield =>
    have hactive : ∀ {value : Option Value}, editedValue? field key.code c.cursor = value →
        (∀ v, value = some v → field.effective.readOnly = true) → ¬ c.Works key := by
      intro value hvalue hlocked
      refine hidle fun other v hother hv => ?_
      rw [hfield] at hother
      obtain rfl := Option.some.inj hother
      exact hlocked v (hvalue.symm.trans hv)
    split
    · next cursor hmoved =>
      exact .kept _ _ _ (hactive (editedValue?_of_movedCursor? hmoved) fun v hv => absurd hv (by simp))
    · split
      · next hnone => exact .kept _ _ _ (hactive hnone fun v hv => absurd hv (by simp))
      · next v hv =>
        unfold editField
        split
        · next hreadOnly => exact .kept _ _ _ (hactive hv fun _ _ => hreadOnly)
        · next hreadOnly => exact .edited hfield hv (by simpa using hreadOnly)

/-- Every key makes one of the steps. -/
theorem pressed_press (around : Surroundings) (key : Key) :
    c.Pressed around key (c.press around key).1 := by
  obtain ⟨code, control⟩ := key
  unfold press
  dsimp only
  split
  · exact .kept _ _ _ (not_works_of_leaving (Or.inl (by simp)))
  · exact c.pressed_switchPanel around rfl
  · exact c.pressed_switchPanel around rfl
  · obtain ⟨position, hfocus⟩ := c.form.exists_focus_nextField
    rw [hfocus]
    exact .focused position (not_works_of_leaving (Or.inl (by simp)))
  · obtain ⟨position, hfocus⟩ := c.form.exists_focus_nextField
    rw [hfocus]
    exact .focused position (not_works_of_leaving (Or.inl (by simp)))
  · obtain ⟨position, hfocus⟩ := c.form.exists_focus_prevField
    rw [hfocus]
    exact .focused position (not_works_of_leaving (Or.inl (by simp)))
  · obtain ⟨position, hfocus⟩ := c.form.exists_focus_prevField
    rw [hfocus]
    exact .focused position (not_works_of_leaving (Or.inl (by simp)))
  · cases control
    · exact c.pressed_editActive around ⟨.char 's', false⟩ (by decide) (by decide)
    · exact .submitted
  · cases control
    · exact c.pressed_editActive around ⟨.char 'r', false⟩ (by decide) (by decide)
    · exact c.pressed_resetActive around
  · next hs hr =>
    refine c.pressed_editActive around ⟨_, control⟩ ?_ ?_
    · exact fun hkey => hs (congrArg Key.code hkey)
    · exact fun hkey => hr (congrArg Key.code hkey)

/-- What follows an edit is at most a check of the form. -/
theorem form_afterEdit :
    c.afterEdit.form = c.form ∨ c.afterEdit.form = (c.form.call .validate).1 := by
  unfold afterEdit
  split
  · exact Or.inr rfl
  · exact Or.inl rfl

theorem form_finishEdit {α : Type} (r : Form × Except FormError α) :
    (c.finishEdit r).1.form = r.1 ∨ (c.finishEdit r).1.form = (r.1.call .validate).1 := by
  obtain ⟨form, answer⟩ := r
  cases answer with
  | error e => exact Or.inl rfl
  | ok a => exact ({ c with form := form } : Console).form_afterEdit

/-- What is not the form, the feedback or the list of the last check stays in an edit. -/
theorem exists_finishEdit {α : Type} (r : Form × Except FormError α) : ∃ form status vs,
    (c.finishEdit r).1 = { c with form := form, status := status, violations := vs } := by
  obtain ⟨form, answer⟩ := r
  cases answer with
  | error e => exact ⟨form, c.status, c.violations, rfl⟩
  | ok a =>
    rw [finishEdit, done, afterEdit]
    split
    · exact ⟨_, _, _, rfl⟩
    · exact ⟨_, _, _, rfl⟩

theorem panel_finishEdit {α : Type} (r : Form × Except FormError α) :
    (c.finishEdit r).1.panel = c.panel := by
  obtain ⟨form, status, vs, heq⟩ := c.exists_finishEdit r
  rw [heq]

theorem form_submit :
    c.submit.form = if c.form.violations = [] then c.form.validate.1.commit else c.form.validate.1 := by
  unfold submit
  simp only [Form.validate, List.isEmpty_iff]
  split
  · rfl
  · rfl

/-- Nor does saving change anything else. -/
theorem exists_submit : ∃ form status vs,
    c.submit = { c with form := form, status := status, violations := vs } := by
  unfold submit
  dsimp only
  split
  · exact ⟨_, _, _, rfl⟩
  · exact ⟨_, _, _, rfl⟩

theorem panel_submit : c.submit.panel = c.panel := by
  obtain ⟨form, status, vs, heq⟩ := c.exists_submit
  rw [heq]

theorem current_finishEdit {α : Type} (r : Form × Except FormError α) :
    (c.finishEdit r).1.form.current = r.1.current := by
  rcases c.form_finishEdit r with hform | hform
  · rw [hform]
  · rw [hform]
    exact r.1.current_validate

theorem saved_finishEdit {α : Type} (r : Form × Except FormError α) :
    (c.finishEdit r).1.form.saved = r.1.saved := by
  rcases c.form_finishEdit r with hform | hform
  · rw [hform]
  · rw [hform]
    exact r.1.saved_validate

theorem current_submit : c.submit.form.current = c.form.current := by
  rw [form_submit]
  split
  · rw [Form.current_commit, Form.current_validate]
  · rw [Form.current_validate]

theorem saved_submit :
    c.submit.form.saved = if c.form.violations = [] then c.form.current else c.form.saved := by
  rw [form_submit]
  split
  · rw [Form.saved_commit, Form.current_validate]
  · rw [Form.saved_validate]

variable {c} {around : Surroundings} {key : Key} {c' : Console}

/-- A key opens the panel that it asks for, or it leaves the panel open and keeps what the focus and the calls of keys
keep. -/
theorem Pressed.opens_or_keeps {P : Form → Prop} (hfocus : ∀ f position, P f → P (f.focus position))
    (hcall : ∀ f call, P f → f.KeyCall call → P (f.call call).1) (h : c.Pressed around key c')
    (hP : P c.form) :
    (key.target? c.panel = some c'.panel ∧
        around.source.openPanel around.now c'.panel = .ok c'.form) ∨
      (P c'.form ∧ c'.panel = c.panel) := by
  have hfinished : ∀ {α : Type} (r : Form × Except FormError α), P r.1 →
      P (c.finishEdit r).1.form := by
    intro α r hr
    rcases c.form_finishEdit r with hform | hform
    · rw [hform]
      exact hr
    · rw [hform]
      exact hcall r.1 .validate hr .validate
  cases h with
  | switched htarget hopen => exact Or.inl ⟨htarget, hopen⟩
  | submitted =>
    have hvalidate : P c.form.validate.1 := hcall c.form .validate hP .validate
    refine Or.inr ⟨?_, c.panel_submit⟩
    rw [form_submit]
    split
    · exact hcall _ .commit hvalidate .commit
    · exact hvalidate
  | reset hfield =>
    exact Or.inr ⟨hfinished _ (hcall c.form _ hP (.reset hfield)), c.panel_finishEdit _⟩
  | edited hfield hv hreadOnly =>
    exact Or.inr ⟨hfinished _ (hcall c.form _ hP (.set hfield hv hreadOnly)), c.panel_finishEdit _⟩
  | focused position => exact Or.inr ⟨hfocus c.form position hP, rfl⟩
  | kept _ _ _ _ => exact Or.inr ⟨hP, rfl⟩

end Steps

/-! ## Runs within one open panel -/

section Runs

variable {c : Console}

@[simp] theorem run_cons (c : Console) (k : Surroundings × Key) (keys : List (Surroundings × Key)) :
    c.run (k :: keys) = (c.press k.1 k.2).1.run keys := rfl

/-- None of the keys opens another panel. -/
def Stays (c : Console) : List (Surroundings × Key) → Prop
  | [] => True
  | k :: keys => ¬ c.Leaves k.1 k.2 ∧ Stays (c.press k.1 k.2).1 keys

theorem not_leaves_of_target? {around : Surroundings} {key : Key} (h : key.target? c.panel = none) :
    ¬ c.Leaves around key := by
  rintro ⟨p, form, htarget, -⟩
  rw [h] at htarget
  exact absurd htarget (by simp)

/-- Keys that ask for no panel open none. -/
theorem stays_of_codes {keys : List (Surroundings × Key)}
    (h : ∀ k ∈ keys, k.2.code ≠ .function 2 ∧ k.2.code ≠ .function 3) : c.Stays keys := by
  induction keys generalizing c with
  | nil => trivial
  | cons k keys ih =>
    have hfirst : k.2.target? c.panel = none := Key.target?_eq_none_iff.mpr (h k (by simp))
    exact ⟨not_leaves_of_target? hfirst, ih fun k' hk' => h k' (by simp [hk'])⟩

/-- What the focus and the calls of keys keep holds as long as the panel stays open. -/
theorem stays_induct {P : Form → Prop} (hfocus : ∀ f position, P f → P (f.focus position))
    (hcall : ∀ f call, P f → f.KeyCall call → P (f.call call).1) {keys : List (Surroundings × Key)}
    (hstays : c.Stays keys) (hP : P c.form) : P (c.run keys).form ∧ (c.run keys).panel = c.panel := by
  induction keys generalizing c with
  | nil => exact ⟨hP, rfl⟩
  | cons k keys ih =>
    rcases (c.pressed_press k.1 k.2).opens_or_keeps hfocus hcall hP with hopens | ⟨hfirst, hpanel⟩
    · exact absurd ⟨_, _, hopens⟩ hstays.1
    · obtain ⟨hrest, hsame⟩ := ih hstays.2 hfirst
      exact ⟨hrest, hsame.trans hpanel⟩

end Runs

end Console

end FormConsole
