import FormConsole.Form.Propagation
import FormConsole.Validation

/-!
# Forms

A form is opened from its definition and then changed by calls.  Every call leaves the constraints and the choices in
line with the values, and answers with all that it changed.

* `Definition`: fields, rules, cascades and checks; `Form.build` opens a form or says what is wrong.
* `Form.set`, `Form.resetToBaseline`, `Form.load`, `Form.setChoices`, `Form.refresh`, `Form.commit`,
  `Form.validate`: the calls.  A refused call answers with an error.
* `Form.nextField`, `Form.prevField`: the active field.
-/

namespace FormConsole

/-! ## Definitions -/

/-- What a form is made of. -/
structure Definition where
  title : String
  declarations : List Declaration
  rules : RuleSet
  cascades : List Cascade
  checks : Checks

namespace Definition

/-- Changes the first field declared under that name. -/
def adjustIn (name : String) (g : Declaration → Declaration) : List Declaration → List Declaration
  | [] => []
  | d :: ds => if d.name = name then g d :: ds else d :: adjustIn name g ds

/-- The definition with one declared field changed; an undeclared name changes nothing. -/
def adjust (d : Definition) (name : String) (g : Declaration → Declaration) : Definition :=
  { d with declarations := adjustIn name g d.declarations }

/-- Refuses the parts that are not sound for the fields: the rules, then the cascades, then the checks. -/
def checkParts (d : Definition) (t : FieldTable) : Except FormError Unit := do
  RuleSet.check d.rules t
  d.cascades.forM fun c => c.check t
  d.checks.check t

end Definition

/-! ## Open forms -/

/-- An open form. -/
structure Form where
  title : String
  wiring : Wiring
  checks : Checks
  table : FieldTable
  /-- The position of the active field. -/
  active : Nat

/-- The changes that a call made, in the order in which they were made. -/
abbrev ChangeSet := List Change

namespace ChangeSet

/-- The fields that changed, in order of their names. -/
def fields (cs : ChangeSet) : List String :=
  Names.ofList (cs.map (·.field))

/-- Whether something of that kind changed about the field. -/
def touched (cs : ChangeSet) (field : String) (kind : ChangeKind) : Bool :=
  cs.contains ⟨field, kind⟩

end ChangeSet

namespace Form

/-- Runs an edit on the fields of the form.  What a refused edit had written stays. -/
def perform {α : Type} (f : Form) (edit : Edit α) : Form × Except FormError α :=
  match edit.run f.table with
  | .ok a t => ({ f with table := t }, .ok a)
  | .error e t => ({ f with table := t }, .error e)

/-- The form as it is defined, before anything has reacted. -/
def initial (d : Definition) (t : FieldTable) : Form :=
  ⟨d.title, ⟨d.rules, d.cascades⟩, d.checks, t, 0⟩

/-- Opens a form. -/
def build (d : Definition) : Except FormError Form := do
  let t ← FieldTable.ofDeclarations d.declarations
  d.checkParts t
  let form := initial d t
  match form.perform form.wiring.refresh with
  | (form, .ok _) => pure { form with table := form.table.commit }
  | (_, .error e) => throw e

/-! ## Reading -/

section Reading

variable (f : Form)

/-- The fields, in the order of their declaration. -/
def fields : List Field := f.table.fields

/-- The active field. -/
def activeField? : Option Field := f.table.fields[f.active]?

/-- Whether some field differs from what was saved last. -/
def isDirty : Bool := f.table.isDirty

/-- The values by name. -/
def values : NameMap Value := f.table.values

/-- Everything that is wrong with the values. -/
def violations : List Violation := f.checks.violations f.table

end Reading

/-! ## Calls -/

section Calls

variable (f : Form)

/-- Gives a field a value. -/
def set (name : String) (v : Value) : Form × Except FormError ChangeSet :=
  f.perform do
    if ← Edit.setValue name v then f.wiring.settle else pure []

/-- Gives a field its default and its baseline, then brings everything in line: an override that still
holds comes back. -/
def resetToBaseline (name : String) : Form × Except FormError ChangeSet :=
  f.perform do
    Edit.resetToBaseline name
    let changes ← f.wiring.settle
    let more ← f.wiring.refresh
    pure (changes ++ more)

/-- Fills in stored values and takes the result as saved.  All values are written before anything reacts, so
that their order does not matter; names that are not declared are skipped. -/
def load (stored : NameMap Value) : Form × Except FormError Unit :=
  f.perform do
    modify fun t => { t.store stored with pending := [] }
    let _ ← f.wiring.refresh
    modify FieldTable.commit

/-- The value that is left of one when the data layer gives the field these choices: of a list the items that
are still offered, and any other value if it is offered itself. -/
def stillOffered (choices : List Choice) : Value → Value
  | .list items => .list (items.filter fun item => choices.any fun c => c.value.asText == item)
  | v => if Choice.offers choices v then v else v.cleared

/-- Gives a field other choices. -/
def setChoices (name : String) (choices : List Choice) : Form × Except FormError ChangeSet :=
  f.perform do
    let prior ← Edit.ask fun t => t.valueOf name
    let _ ← Edit.replaceChoices name choices
    let _ ← Edit.setValue name (stillOffered choices prior)
    f.wiring.settle

/-- Brings everything in line with the values. -/
def refresh : Form × Except FormError ChangeSet :=
  f.perform f.wiring.refresh

/-- Takes the values as saved. -/
def commit : Form :=
  { f with table := f.table.commit }

/-- Everything that is wrong with the values, marked on the fields. -/
def validate : Form × List Violation :=
  ({ f with table := Checks.mark f.table f.violations }, f.violations)

end Calls

/-! ## The active field -/

section Active

variable (f : Form)

/-- Makes the field at that position the active one. -/
def focus (position : Nat) : Form :=
  { f with active := position }

/-- Makes the next field the active one; after the last comes the first. -/
def nextField : Form :=
  if f.fields.length = 0 then f else f.focus ((f.active + 1) % f.fields.length)

/-- Makes the field before the active one active; before the first comes the last. -/
def prevField : Form :=
  if f.fields.length = 0 then f
  else if f.active = 0 then f.focus (f.fields.length - 1)
  else f.focus (f.active - 1)

end Active

end Form

end FormConsole
