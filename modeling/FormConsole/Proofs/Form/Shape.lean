import FormConsole.Proofs.Form.Persistence

/-!
# Values of the right kind

Nothing in a value says which kind of value its field is for: a value of another kind is read as if it were empty.  A field
starts with its default, and what reacts only clears values.  So as long as calls write values like the default, every
field holds one, and its choices are no others if it is a select.

* `Value.shape`: the kind of a value, which typing, deleting and clearing keep.
* `Definition.Typed`: defaults and choices fit the kinds of their fields.
* `Form.Typed`: values and choices are like the defaults; kept by every call that writes such values (`Form.Typed.call`).
-/

namespace FormConsole

/-! ## Kinds of values -/

/-- The kinds of values. -/
inductive Shape where
  | bool
  | number
  | text
  | list
  deriving DecidableEq

namespace Value

/-- The kind of a value. -/
def shape : Value → Shape
  | .bool _ => .bool
  | .number _ => .number
  | .text _ => .text
  | .list _ => .list

@[simp] theorem shape_cleared (v : Value) : v.cleared.shape = v.shape := by
  cases v <;> rfl

/-- A key that does not fit a value leaves it alone. -/
@[simp] theorem shape_pushed (v : Value) (c : Char) : (v.pushed c).shape = v.shape := by
  cases v with
  | number n =>
    rw [pushed]
    split
    · rfl
    · rfl
  | _ => rfl

@[simp] theorem shape_popped (v : Value) : v.popped.shape = v.shape := by
  cases v <;> rfl

@[simp] theorem shape_toggled (v : Value) (item : String) : (v.toggled item).shape = .list := rfl

end Value

/-! ## Definitions -/

/-- What toggling writes is like the default, and so is whatever a select may offer, at first or later. -/
structure Definition.Typed (d : Definition) : Prop where
  checkbox : ∀ e ∈ d.declarations, e.kind = .checkbox → e.default.shape = .bool
  multiSelect : ∀ e ∈ d.declarations, e.kind = .multiSelect → e.default.shape = .list
  choices : ∀ e ∈ d.declarations, e.kind = .select → ∀ o ∈ e.choices, o.value.shape = e.default.shape
  computed : ∀ e ∈ d.declarations, e.kind = .select → ∀ c ∈ d.cascades, c.dependent = e.name →
    ∀ vs, ∀ o ∈ c.compute vs, o.value.shape = e.default.shape

/-! ## Forms -/

namespace Form

section Typed

variable {d : Definition} {f : Form} {field : Field}

/-- Values are like the defaults of their fields, and so is what selects offer. -/
structure Typed (d : Definition) (f : Form) : Prop where
  isOf : IsOf d f
  values : ∀ e ∈ d.declarations, (f.table.valueAt e.name).shape = e.default.shape
  choices : ∀ e ∈ d.declarations, e.kind = .select → ∀ o ∈ f.table.choicesAt e.name,
    o.value.shape = e.default.shape

theorem Typed.focus (h : Typed d f) (position : Nat) : Typed d (f.focus position) :=
  ⟨h.isOf.focus position, h.values, h.choices⟩

theorem Typed.shape_value (h : Typed d f) (hfield : field ∈ f.fields) :
    field.value.shape = field.decl.default.shape := by
  have hvalue := h.values field.decl (h.isOf.decl_mem hfield)
  rwa [FieldTable.valueAt_of_field? (FieldTable.field?_name_of_mem h.isOf.nodup hfield)] at hvalue

theorem Typed.shape_choice (h : Typed d f) (hfield : field ∈ f.fields) (hkind : field.decl.kind = .select) :
    ∀ o ∈ field.choices, o.value.shape = field.decl.default.shape := by
  have hchoices := h.choices field.decl (h.isOf.decl_mem hfield) hkind
  rwa [FieldTable.choicesAt_of_field? (FieldTable.field?_name_of_mem h.isOf.nodup hfield)] at hchoices

/-- A field of a form is declared once. -/
theorem IsOf.decl_eq (h : IsOf d f) (hfield : field ∈ f.fields) {e : Declaration} (he : e ∈ d.declarations)
    (hname : field.name = e.name) : field.decl = e := by
  have hnodup : (d.declarations.map (·.name)).Nodup := by
    rw [← h.declarations, ← FieldTable.names_eq_map]
    exact h.nodup
  exact List.inj_on_of_nodup_map hnodup (h.decl_mem hfield) he hname

/-- A call that writes values like the default, and choices like the default, keeps a form typed. -/
theorem Typed.call (hd : d.Typed) (h : Typed d f) {c : Call}
    (hgives : ∀ e ∈ d.declarations, f.Gives (fun v => v.shape = e.default.shape) e.name c)
    (hoffers : ∀ e ∈ d.declarations, e.kind = .select →
      Offers (fun choices => ∀ o ∈ choices, o.value.shape = e.default.shape) e.name c) :
    Typed d (f.call c).1 := by
  refine ⟨h.isOf.call c, fun e he => ?_, fun e he hkind => ?_⟩
  · refine persists_call (fun v hv => ?_) h.isOf (h.values e he) (hgives e he)
    rwa [Value.shape_cleared]
  · exact choices_call (hd.computed e he hkind) h.isOf (h.choices e he hkind) (hoffers e he hkind)

/-- A reset writes the default. -/
theorem IsOf.gives_reset (h : IsOf d f) (name : String) :
    ∀ e ∈ d.declarations, f.Gives (fun v => v.shape = e.default.shape) e.name (.resetToBaseline name) := by
  intro e he _ field hfield hname
  rw [h.decl_eq hfield he hname]

theorem field?_declared {e : Declaration} (hnodup : (d.declarations.map (·.name)).Nodup)
    (he : e ∈ d.declarations) : d.declared.field? e.name = some (.ofDeclaration e) := by
  have hnames : d.declared.names.Nodup := by
    rwa [FieldTable.names_eq_map, Definition.declarations_declared]
  exact FieldTable.field?_name_of_mem (f := .ofDeclaration e) hnames (List.mem_map.mpr ⟨e, he, rfl⟩)

theorem typed_of_build (hd : d.Typed) (hbuild : build d = .ok f) : Typed d f := by
  have hnodup := (build_eq_ok_iff.mp hbuild).1
  refine ⟨isOf_of_build hbuild, fun e he => ?_, fun e he hkind => ?_⟩
  · refine persists_build (Q := fun v => v.shape = e.default.shape) (fun v hv => ?_) hbuild ?_
    · rwa [Value.shape_cleared]
    · rw [FieldTable.valueAt_of_field? (field?_declared hnodup he)]
      rfl
  · refine choices_build (R := fun choices => ∀ o ∈ choices, o.value.shape = e.default.shape)
      (hd.computed e he hkind) hbuild ?_
    rw [FieldTable.choicesAt_of_field? (field?_declared hnodup he)]
    exact hd.choices e he hkind

end Typed

end Form

end FormConsole
