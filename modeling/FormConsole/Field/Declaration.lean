import FormConsole.Value
import FormConsole.Field.Constraint

/-!
# Declared fields

What is fixed about a field before its form is opened: its name and label, the kind of input, the value and the
constraints it starts with, and the choices it offers at first.

* `Declaration.text`, `Declaration.password`, `Declaration.number`, `Declaration.checkbox`,
  `Declaration.select`, `Declaration.multiSelect`: a field of each kind.
* `Declaration.withDefault`, `Declaration.readOnly`, `Declaration.allowBlank`, `Declaration.required`,
  `Declaration.withInfo`: the same field with one thing changed.
-/

namespace FormConsole

/-- How a field is edited and shown. -/
inductive Kind where
  | text
  | password
  | number
  | checkbox
  | select
  | multiSelect
  deriving DecidableEq

namespace Kind

/-- The name of a kind. -/
def name : Kind → String
  | .text => "text"
  | .password => "password"
  | .number => "number"
  | .checkbox => "checkbox"
  | .select => "select"
  | .multiSelect => "multi_select"

/-- All kinds. -/
def all : List Kind := [.text, .password, .number, .checkbox, .select, .multiSelect]

/-- The kind of that name. -/
def ofName? (s : String) : Option Kind :=
  all.find? fun k => k.name == s

end Kind

/-- One entry that a field offers: what is shown and what is stored. -/
structure Choice where
  label : String
  value : Value
  deriving DecidableEq

namespace Choice

/-- The choice that is shown as what it stores. -/
def named (name : String) : Choice := ⟨name, .text name⟩

/-- A choice that stores a text. -/
def ofText (label value : String) : Choice := ⟨label, .text value⟩

/-- Whether one of the choices stores the value. -/
def offers (choices : List Choice) (v : Value) : Bool :=
  choices.any fun c => c.value == v

@[simp] theorem offers_iff {choices : List Choice} {v : Value} :
    offers choices v = true ↔ ∃ c ∈ choices, c.value = v := by
  simp [offers]

end Choice

/-- A declared field. -/
structure Declaration where
  name : String
  label : String
  kind : Kind
  /-- The value at first and after a reset. -/
  default : Value
  /-- The constraints while no rule overrides them. -/
  baseline : Constraints
  /-- The choices at first. -/
  choices : List Choice
  /-- A help text. -/
  info : Option String
  deriving DecidableEq

namespace Declaration

/-! ## Fields of each kind -/

/-- A field of that kind without choices, constraints or help. -/
def plain (name label : String) (kind : Kind) (default : Value) : Declaration :=
  ⟨name, label, kind, default, .free, [], none⟩

/-- A text field. -/
def text (name label : String) : Declaration :=
  plain name label .text (.text "")

/-- A text field that hides what it holds. -/
def password (name label : String) : Declaration :=
  plain name label .password (.text "")

/-- A number field. -/
def number (name label : String) (default : Int64) : Declaration :=
  plain name label .number (.number default)

/-- A checkbox. -/
def checkbox (name label : String) (checked : Bool) : Declaration :=
  plain name label .checkbox (.bool checked)

/-- A field that holds one of its choices. -/
def select (name label : String) (choices : List Choice) (default : Value) : Declaration :=
  { plain name label .select default with choices := choices }

/-- A field that holds any number of its choices. -/
def multiSelect (name label : String) (choices : List Choice) : Declaration :=
  { plain name label .multiSelect (.list []) with choices := choices }

/-! ## Changes -/

/-- The field with another default. -/
def withDefault (d : Declaration) (v : Value) : Declaration :=
  { d with default := v }

/-- The field with read-only given. -/
def readOnly (d : Declaration) (b : Bool) : Declaration :=
  { d with baseline := { d.baseline with readOnly := b } }

/-- The field with the permission to stay blank given. -/
def allowBlank (d : Declaration) (b : Bool) : Declaration :=
  { d with baseline := { d.baseline with allowBlank := b } }

/-- The field, which must not stay blank. -/
def required (d : Declaration) : Declaration :=
  d.allowBlank false

/-- The field with a help text. -/
def withInfo (d : Declaration) (info : String) : Declaration :=
  { d with info := some info }

end Declaration

end FormConsole
