import FormConsole.Field.Declaration

/-!
# Live fields

A field of an open form: its declaration, and all that changes while the form is open.

* `Field.ofDeclaration`: the field at first.
* `Field.isDirty`, `Field.display`: what depends on the current value.
-/

namespace FormConsole

/-- A field of an open form. -/
structure Field where
  decl : Declaration
  value : Value
  /-- The value that was saved last. -/
  committed : Value
  /-- The constraints with the overrides of the rules. -/
  effective : Constraints
  choices : List Choice
  /-- Why the field was found invalid. -/
  violation : Option String
  deriving DecidableEq

namespace Field

/-- The field as it is declared. -/
def ofDeclaration (d : Declaration) : Field :=
  ⟨d, d.default, d.default, d.baseline, d.choices, none⟩

/-- The name of a field. -/
abbrev name (f : Field) : String := f.decl.name

/-- Whether the value differs from the one that was saved last. -/
def isDirty (f : Field) : Bool :=
  f.value != f.committed

/-- The label of the first choice that stores the value. -/
def selectedLabel? (f : Field) : Option String :=
  (f.choices.find? fun c => c.value == f.value).map (·.label)

/-- The value as it is shown: stars for a password, the label of the choice for a select, a tick box for
a checkbox. -/
def display (f : Field) : String :=
  match f.decl.kind with
  | .password => String.ofList (List.replicate f.value.asText.length '*')
  | .select => f.selectedLabel?.getD f.value.display
  | .checkbox => if f.value.isTrue then "[x]" else "[ ]"
  | _ => f.value.display

end Field

end FormConsole
