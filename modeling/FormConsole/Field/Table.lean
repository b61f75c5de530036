import FormConsole.Field
import FormConsole.FormError
import FormConsole.NameMap

/-!
# The fields of a form

All fields of one form, with the changes that nobody has reacted to yet.

* `FieldTable.ofDeclarations`: the fields at first, if no name is declared twice.
* `FieldTable.lookup`, `FieldTable.require`: reading, which refuses undeclared names.
* `FieldTable.change`, `FieldTable.commit`, `FieldTable.store`: writing.
* `FieldTable.field?_modify`: a write to one field leaves the others alone.
-/

namespace FormConsole

/-! ## Changes -/

/-- What changed about a field. -/
inductive ChangeKind where
  | value
  | constraints
  | choices
  deriving DecidableEq

/-- A change of a field. -/
structure Change where
  field : String
  kind : ChangeKind
  deriving DecidableEq

/-! ## Tables -/

/-- The fields of a form, in the order of their declaration, and the changes nobody has reacted to yet,
oldest first. -/
structure FieldTable where
  fields : List Field
  pending : List Change
  deriving DecidableEq

namespace FieldTable

section Reading

variable (t : FieldTable) (name : String)

/-- The first name that stands in the list for a second time, after the names already seen. -/
def firstRepeated? (seen : List String) : List String → Option String
  | [] => none
  | n :: ns => if n ∈ seen then some n else firstRepeated? (n :: seen) ns

/-- The fields at first. -/
def ofDeclarations (ds : List Declaration) : Except FormError FieldTable :=
  match firstRepeated? [] (ds.map (·.name)) with
  | some n => .error (.duplicateField n)
  | none => .ok ⟨ds.map Field.ofDeclaration, []⟩

/-- The field of that name. -/
def field? : Option Field :=
  t.fields.find? fun f => f.name == name

/-- Whether there is a field of that name. -/
def contains : Bool :=
  t.fields.any fun f => f.name == name

/-- Refuses a name that no field has. -/
def require (reference : Reference) : Except FormError Unit :=
  if t.contains name then .ok () else .error (.unknownField name reference)

/-- The field of that name, for reading. -/
def lookup : Except FormError Field :=
  match t.field? name with
  | some f => .ok f
  | none => .error (.unknownField name .lookup)

/-- The value of the field of that name. -/
def valueOf : Except FormError Value :=
  (t.lookup name).map (·.value)

/-- The values by name. -/
def values : NameMap Value :=
  NameMap.ofList (t.fields.map fun f => (f.name, f.value))

/-- Whether some field differs from what was saved last. -/
def isDirty : Bool :=
  t.fields.any Field.isDirty

end Reading

section Writing

variable (t : FieldTable)

/-- Applies a function to the field of that name. -/
def modify (name : String) (g : Field → Field) : FieldTable :=
  { t with fields := t.fields.map fun f => if f.name = name then g f else f }

/-- Adds a change to those nobody has reacted to. -/
def record (name : String) (kind : ChangeKind) : FieldTable :=
  { t with pending := t.pending ++ [⟨name, kind⟩] }

/-- Applies a function to the field of that name and records the change. -/
def change (name : String) (kind : ChangeKind) (g : Field → Field) : FieldTable :=
  (t.modify name g).record name kind

/-- Makes the current values the saved ones. -/
def commit : FieldTable :=
  { t with fields := t.fields.map fun f => { f with committed := f.value } }

/-- Removes all marks of violations. -/
def clearViolations : FieldTable :=
  { t with fields := t.fields.map fun f => { f with violation := none } }

/-- Marks a field as invalid; the first message stays. -/
def markInvalid (name message : String) : FieldTable :=
  t.modify name fun f => { f with violation := f.violation.or (some message) }

/-- Gives every field the stored value of its name, if there is one. -/
def store (stored : NameMap Value) : FieldTable :=
  { t with fields := t.fields.map fun f => { f with value := (stored.get? f.name).getD f.value } }

end Writing

/-! ## Facts -/

section Facts

variable {t : FieldTable} {name : String}

theorem name_of_field? {f : Field} (h : t.field? name = some f) : f.name = name := by
  simpa using List.find?_some h

theorem contains_eq_isSome : t.contains name = (t.field? name).isSome := by
  unfold contains field?
  induction t.fields with
  | nil => rfl
  | cons f fs ih =>
    by_cases h : f.name == name
    · simp [h]
    · simp [h, ih]

theorem contains_iff : t.contains name = true ↔ ∃ f ∈ t.fields, f.name = name := by
  simp [contains]

/-- A write that keeps names changes the field it names, and no other one. -/
theorem field?_modify {g : Field → Field} (hg : ∀ f, (g f).name = f.name) (other : String) :
    (t.modify name g).field? other =
      (t.field? other).map fun f => if other = name then g f else f := by
  unfold modify field?
  simp only
  induction t.fields with
  | nil => rfl
  | cons f fs ih =>
    simp only [List.map_cons]
    by_cases hf : f.name = other
    · rw [List.find?_cons_of_pos (by split <;> simp [hg, hf]),
        List.find?_cons_of_pos (by simp [hf])]
      simp [hf]
    · rw [List.find?_cons_of_neg (by split <;> simp [hg, hf]),
        List.find?_cons_of_neg (by simp [hf]), ih]

end Facts

end FieldTable

end FormConsole
