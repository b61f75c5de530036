import Mathlib.Algebra.Group.Int.Defs
import FormConsole.Proofs.Console.Bond
import FormConsole.Proofs.Form.Shape

/-!
# Keys keep the kinds of values

A key types into a value, deletes from it, toggles it, takes the value of a choice, or resets it.  Each of these gives a
field a value like its default, on every panel: the choices of a select are, whether they are fixed, come from the
candidates or are computed by a cascade.  So if the stored values are like the defaults, all values are, in every state.

* `Form.Typed.keyCall`: the calls that keys make keep a form typed.
* `Panel.shapeOf`: the kind of value that each field of a panel is for; `Panel.shaped`, `Panel.typed`.
* `Console.shapes_stay`: what the fields of an open panel hold, whatever keys are pressed.
-/

namespace FormConsole

/-! ## Values that keys give -/

namespace Form

variable {d : Definition} {f : Form} {field : Field}

/-- What a key makes of a value like the default is again one. -/
theorem Typed.shape_edited (hd : d.Typed) (h : Typed d f) (hfield : field ∈ f.fields) {code : KeyCode}
    {cursor : Nat} {v : Value} (hv : editedValue? field code cursor = some v) :
    v.shape = field.decl.default.shape := by
  have hdecl := h.isOf.decl_mem hfield
  have hvalue := h.shape_value hfield
  rcases cases_of_editedValue? hv with ⟨hkind, rfl⟩ | ⟨hkind, o, -, rfl⟩ | ⟨hkind, hoffers⟩ | ⟨c, rfl⟩ | rfl
  · rw [hd.checkbox _ hdecl hkind]
    rfl
  · rw [hd.multiSelect _ hdecl hkind, Value.shape_toggled]
  · obtain ⟨o, ho, rfl⟩ := Choice.offers_iff.mp hoffers
    exact h.shape_choice hfield hkind o ho
  · rw [Value.shape_pushed, hvalue]
  · rw [Value.shape_popped, hvalue]

/-- The calls that keys make write values like the defaults. -/
theorem Typed.keyCall (hd : d.Typed) (h : Typed d f) {call : Call} (hcall : f.KeyCall call) :
    Typed d (f.call call).1 := by
  cases hcall with
  | @set field code cursor v hfield hv _ =>
    have hmem := mem_fields_of_activeField? hfield
    refine h.call hd (fun e he hname => ?_) fun _ _ _ => trivial
    rw [← h.isOf.decl_eq hmem he hname.symm]
    exact h.shape_edited hd hmem hv
  | reset _ => exact h.call hd (h.isOf.gives_reset _) fun _ _ _ => trivial
  | validate => exact h.call hd (fun _ _ => trivial) fun _ _ _ => trivial
  | commit => exact h.call hd (fun _ _ => trivial) fun _ _ _ => trivial

end Form

/-! ## Panels -/

namespace Panel

/-- The kind of value that a field of a panel is for.  The mode of a bond is the only select that holds numbers. -/
def shapeOf (e : Declaration) : Shape :=
  match e.kind with
  | .text | .password => .text
  | .number => .number
  | .checkbox => .bool
  | .select => if e.name = "bondmode" then .number else .text
  | .multiSelect => .list

/-- The default of a field is of its kind, and so is whatever a select offers at first. -/
def Shaped (e : Declaration) : Prop :=
  e.default.shape = shapeOf e ∧ (e.kind = .select → ∀ o ∈ e.choices, o.value.shape = shapeOf e)

section Shaped

variable {e : Declaration} (name label : String) (b : Bool)

theorem shaped_of_ne_select (hkind : e.kind ≠ .select) (hdefault : e.default.shape = shapeOf e) : Shaped e :=
  ⟨hdefault, fun h => absurd h hkind⟩

@[simp] theorem shaped_text : Shaped (.text name label) :=
  shaped_of_ne_select (by decide : Kind.text ≠ .select) rfl

@[simp] theorem shaped_password : Shaped (.password name label) :=
  shaped_of_ne_select (by decide : Kind.password ≠ .select) rfl

@[simp] theorem shaped_number (n : Int64) : Shaped (.number name label n) :=
  shaped_of_ne_select (by decide : Kind.number ≠ .select) rfl

@[simp] theorem shaped_checkbox : Shaped (.checkbox name label b) :=
  shaped_of_ne_select (by decide : Kind.checkbox ≠ .select) rfl

@[simp] theorem shaped_multiSelect (choices : List Choice) : Shaped (.multiSelect name label choices) :=
  shaped_of_ne_select (by decide : Kind.multiSelect ≠ .select) rfl

variable {name label} in
/-- A select of texts. -/
theorem shaped_select {choices : List Choice} {x : String} (hname : name ≠ "bondmode")
    (htexts : ∀ o ∈ choices, o.value.shape = .text) : Shaped (.select name label choices (.text x)) := by
  have hshape : shapeOf (.select name label choices (.text x)) = .text := if_neg hname
  rw [Shaped, hshape]
  exact ⟨rfl, fun _ => htexts⟩

@[simp] theorem shaped_readOnly : Shaped (e.readOnly b) ↔ Shaped e := Iff.rfl

@[simp] theorem shaped_required : Shaped e.required ↔ Shaped e := Iff.rfl

@[simp] theorem shaped_allowBlank : Shaped (e.allowBlank b) ↔ Shaped e := Iff.rfl

@[simp] theorem shaped_withInfo (info : String) : Shaped (e.withInfo info) ↔ Shaped e := Iff.rfl

/-- Another default of the same kind. -/
theorem Shaped.withDefault (h : Shaped e) {v : Value} (hv : v.shape = e.default.shape) :
    Shaped (e.withDefault v) :=
  ⟨hv.trans h.1, h.2⟩

theorem shape_named (names : List String) : ∀ o ∈ names.map Choice.named, o.value.shape = .text := by
  intro o ho
  obtain ⟨x, -, rfl⟩ := List.mem_map.mp ho
  rfl

end Shaped

/-! ### The fields of each panel -/

section Fields

variable (s : Setting)

theorem shaped_genericFields : ∀ e ∈ Network.genericFields s, Shaped e := by
  have hdevicename : Shaped (((Declaration.text "devicename" "Name").readOnly true).withDefault
      (.text s.devicename)) := ((shaped_readOnly true).mpr (shaped_text _ _)).withDefault rfl
  have hmethods : ∀ v6, ∀ o ∈ Network.methods v6, o.value.shape = .text := by decide
  have hmethod : Shaped (.select "method" "Method" (Network.methods false) (.text "manual")) :=
    shaped_select (by decide) (hmethods false)
  have hmethod6 : Shaped (.select "method6" "Method (IPv6)" (Network.methods true) (.text "manual")) :=
    shaped_select (by decide) (hmethods true)
  simp [Network.genericFields, hdevicename, hmethod, hmethod6]

theorem shaped_bond : ∀ e ∈ (Network.bond s).declarations, Shaped e := by
  have hmode : Shaped (.select "bondmode" "Mode" Network.bondModes (.number 1)) := ⟨rfl, by decide⟩
  have hprimary : Shaped (.select "bondprimary" "Primary" Network.noPrimary (.text "")) :=
    shaped_select (by decide) (by decide)
  refine List.forall_mem_append.mpr ⟨shaped_genericFields s, ?_⟩
  simp [hmode, hprimary]

theorem shaped_vlan : ∀ e ∈ (Network.vlan s).declarations, Shaped e := by
  have hparent : Shaped (.select "vlanrawdevice" "Parent interface"
      (s.candidates.vlanDevices.map Choice.named) (.text "")) :=
    shaped_select (by decide) (shape_named _)
  refine List.forall_mem_append.mpr ⟨shaped_genericFields s, ?_⟩
  simp [hparent]

theorem shape_numbers (low count : Nat) : ∀ o ∈ PowerSchedule.numbers low count, o.value.shape = .text := by
  have hnumbers : PowerSchedule.numbers low count =
      (PowerSchedule.wildcard :: (List.range' low count).map toString).map Choice.named := by
    rw [PowerSchedule.numbers, List.map_cons, List.map_map]
    rfl
  rw [hnumbers]
  exact shape_named _

theorem shaped_powerSchedule : ∀ e ∈ (PowerSchedule.definition s).declarations, Shaped e := by
  have hnumbers : ∀ name label low count x, name ≠ "bondmode" →
      Shaped (.select name label (PowerSchedule.numbers low count) (.text x)) :=
    fun _ _ low count _ hname => shaped_select hname (shape_numbers low count)
  have htype : Shaped (.select "type" "Type" [.ofText "Shutdown" "shutdown", .ofText "Reboot" "reboot"]
      (.text "reboot")) := shaped_select (by decide) (by decide)
  have hmonth : Shaped (.select "month" "Month" (PowerSchedule.numbered PowerSchedule.months)
      (.text PowerSchedule.wildcard)) := shaped_select (by decide) (by decide)
  have hweekday : Shaped (.select "dayofweek" "Day of week" (PowerSchedule.numbered PowerSchedule.weekdays)
      (.text PowerSchedule.wildcard)) := shaped_select (by decide) (by decide)
  simp [PowerSchedule.definition, hnumbers, htype, hmonth, hweekday]

theorem shaped_notification : ∀ e ∈ Notification.definition.declarations, Shaped e := by
  simp [Notification.definition]

theorem shaped_account : ∀ e ∈ (Account.definition s).declarations, Shaped e := by
  have hshell : Shaped (.select "shell" "Shell" (s.candidates.shells.map Choice.named)
      (.text Account.defaultShell)) := shaped_select (by decide) (shape_named _)
  simp [Account.definition, hshell]

end Fields

variable (p : Panel) (s : Setting)

/-- Every field of every panel starts with a value of its kind, and offers no others if it is a select. -/
theorem shaped : ∀ e ∈ (p.definition s).declarations, Shaped e := by
  rcases p with (_ | _ | _) | _ | _ | _
  · exact shaped_genericFields s
  · exact shaped_bond s
  · exact shaped_vlan s
  · exact shaped_powerSchedule s
  · exact shaped_notification
  · exact shaped_account s

/-- The only choices that are computed are those for the primary slave of a bond. -/
theorem shape_computed {c : Cascade} (hc : c ∈ (p.definition s).cascades) :
    c.dependent = "bondprimary" ∧ ∀ vs, ∀ o ∈ c.compute vs, o.value.shape = .text := by
  rcases p with (_ | _ | _) | _ | _ | _
  case interface.bond =>
    obtain rfl := List.mem_singleton.mp hc
    refine ⟨rfl, fun vs o ho => ?_⟩
    obtain ⟨x, hx⟩ := Network.isText_of_mem_primaryChoices ho
    rw [hx]
    rfl
  all_goals exact absurd hc List.not_mem_nil

theorem typed : (p.definition s).Typed := by
  refine ⟨fun e he hkind => ?_, fun e he hkind => ?_, fun e he hkind => ?_, fun e he hkind c hc hdep => ?_⟩
  · rw [(p.shaped s e he).1, shapeOf, hkind]
  · rw [(p.shaped s e he).1, shapeOf, hkind]
  · rw [(p.shaped s e he).1]
    exact (p.shaped s e he).2 hkind
  · obtain ⟨hprimary, htexts⟩ := p.shape_computed s hc
    have hshape : shapeOf e = .text := by
      rw [shapeOf, hkind, ← hdep, hprimary]
      rfl
    rw [(p.shaped s e he).1, hshape]
    exact htexts

end Panel

/-! ## Open panels -/

namespace Console

section Shapes

/-- Keys keep every value of the kind that its field is for.  Whatever the candidates are and whatever is stored, as long as
each stored value is of the kind of the default of its field, the panel opens, and after any keys that leave it open every
field holds a value of the kind of its default: texts, passwords and selects hold texts, number fields and the mode of a
bond hold numbers that fit into 64 bits, checkboxes hold truth values, and multi-selects hold lists. -/
theorem shapes_stay (source : Source) (now : TimeOfDay) {p : Panel} {candidates : Candidates}
    {stored : Option StoredObject} (hcandidates : source.fetchCandidates = .ok candidates)
    (hstored : source.stored p = .ok stored)
    (hshapes : ∀ o ∈ stored, ∀ e ∈ (p.definition (Source.setting candidates stored now)).declarations,
      ∀ v, o.values.get? e.name = some v → v.shape = e.default.shape) :
    ∃ form, source.openPanel now p = .ok form ∧ ∀ c : Console, c.panel = p → c.form = form →
      ∀ keys : List (Surroundings × Key), c.Stays keys →
        (c.run keys).panel = p ∧
        (c.run keys).form.fields.map (·.decl) =
          (p.definition (Source.setting candidates stored now)).declarations ∧
        ∀ field ∈ (c.run keys).form.fields, field.value.shape = field.decl.default.shape ∧
          field.value.shape = Panel.shapeOf field.decl ∧
          ∀ n, field.value = .number n → -2 ^ 63 ≤ n.toInt ∧ n.toInt < 2 ^ 63 := by
  have htyped := p.typed (Source.setting candidates stored now)
  have hbuilt := Form.typed_of_build htyped (p.build_definition (Source.setting candidates stored now))
  have hopened : Form.Typed (p.definition (Source.setting candidates stored now))
      ((p.definition (Source.setting candidates stored now)).opened.run
        (stored.toList.map fun o => .load o.values)) := by
    cases stored with
    | none => exact hbuilt
    | some o => exact hbuilt.call htyped (hshapes o rfl) fun _ _ _ => trivial
  refine ⟨_, Source.openPanel_eq_ok_iff.mpr ⟨candidates, stored, hcandidates, hstored, rfl⟩, ?_⟩
  intro c hpanel hform keys hstays
  obtain ⟨h, hsame⟩ := stays_induct (P := Form.Typed (p.definition (Source.setting candidates stored now)))
    (fun _ position h => h.focus position) (fun _ _ h hcall => h.keyCall htyped hcall) hstays
    (hform ▸ hopened)
  refine ⟨hsame.trans hpanel, h.isOf.declarations, fun field hfield => ?_⟩
  have hvalue := h.shape_value hfield
  refine ⟨hvalue, ?_, fun n _ => ⟨n.le_toInt, n.toInt_lt⟩⟩
  rw [hvalue, (p.shaped _ _ (h.isOf.decl_mem hfield)).1]

/-- The mode of the stored bond of the sample is still a number after it was changed. -/
theorem shapes_stay_sample : sampleConsole.Stays modeKeys ∧
    ∃ mode ∈ (sampleConsole.run modeKeys).form.fields, mode.name = "bondmode" ∧ mode.value.shape = .number := by
  have hstays : sampleConsole.Stays modeKeys := stays_of_codes (by decide)
  have hshapes : ∀ o ∈ Fixture.sample.objects.get? "bond", ∀ e ∈ (Network.bond (Source.setting
      Fixture.sample.candidates (Fixture.sample.objects.get? "bond") .midnight)).declarations,
      ∀ v ∈ o.values.get? e.name, v.shape = e.default.shape := by
    decide +kernel
  obtain ⟨form, hopen, hshown⟩ := shapes_stay (p := .interface .bond) (.ofFixture .sample) .midnight rfl rfl hshapes
  rw [openPanel_sample] at hopen
  obtain rfl := Except.ok.inj hopen
  obtain ⟨-, -, hfields⟩ := hshown sampleConsole rfl (form_fresh _ _ sampleForm) modeKeys hstays
  have hmode : ((sampleConsole.run modeKeys).form.table.field? "bondmode").map
      (fun f => Panel.shapeOf f.decl) = some .number := by
    decide +kernel
  obtain ⟨mode, hlookup, hnumber⟩ := Option.map_eq_some_iff.mp hmode
  have hmem := FieldTable.mem_of_field? hlookup
  exact ⟨hstays, mode, hmem, FieldTable.name_of_field? hlookup, (hfields mode hmem).2.1.trans hnumber⟩

end Shapes

end Console

end FormConsole
