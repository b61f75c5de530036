import FormConsole.Config
import FormConsole.Console.Key
import FormConsole.Source

/-!
# The console

The console shows the form of one panel and is driven by keys.  What a key does depends on the console alone, except that
the keys that change the panel also ask the data layer.

* `Console.start`: the console as it is opened.
* `Console.press`: the effect of a key; a key that is refused answers with an error.
* `editedValue?`: the value that a key gives a field.
-/

namespace FormConsole

/-! ## Editing one field -/

section Editing

/-- The position of the first choice that stores the value. -/
def choicePosition? (choices : List Choice) (v : Value) : Option Nat :=
  choices.findIdx? fun c => c.value == v

/-- The position after one of `count` positions, in a round. -/
def stepForward (count position : Nat) : Nat :=
  (position + 1) % count

/-- The position before one of `count` positions, in a round. -/
def stepBack (count position : Nat) : Nat :=
  (position + count - 1) % count

/-- The position that is chosen after the one of a value.  From a value that is not offered, it is the first. -/
def movedPosition (move : Nat → Nat → Nat) (choices : List Choice) (v : Value) : Nat :=
  match choicePosition? choices v with
  | none => 0
  | some i => move choices.length i

/-- The value of the choice that is chosen after the one of a value. -/
def movedValue? (move : Nat → Nat → Nat) (choices : List Choice) (v : Value) : Option Value :=
  (choices[movedPosition move choices v]?).map (·.value)

/-- The value that a key gives a field, with the option cursor at that position; `none` if the key does not edit a
field of this kind. -/
def editedValue? (f : Field) (code : KeyCode) (cursor : Nat) : Option Value :=
  match f.decl.kind with
  | .checkbox =>
    match code with
    | .char ' ' | .enter => some (.bool !f.value.isTrue)
    | _ => none
  | .multiSelect =>
    match code with
    | .char ' ' | .enter => (f.choices[cursor]?).map fun c => f.value.toggled c.value.asText
    | _ => none
  | .select =>
    match code with
    | .right => movedValue? stepForward f.choices f.value
    | .left => movedValue? stepBack f.choices f.value
    | _ => none
  | .text | .password | .number =>
    match code with
    | .char c => some (f.value.pushed c)
    | .backspace => some f.value.popped
    | _ => none

end Editing

/-! ## The state -/

/-- A line of feedback. -/
inductive Status where
  | saved
  | needAttention (count : Nat)
  | readOnly (label : String)
  deriving DecidableEq

namespace Status

/-- The words of the feedback. -/
def text : Status → String
  | .saved => "Saved"
  | .needAttention count => toString count ++ " field(s) need attention"
  | .readOnly label => label ++ " is read-only"

end Status

/-- The console with one open panel. -/
structure Console where
  config : Config
  panel : Panel
  form : Form
  /-- Whether the console is to be closed. -/
  quit : Bool
  status : Option Status
  /-- What the last check found. -/
  violations : List Violation
  /-- The position of the highlighted choice of a multi-select. -/
  cursor : Nat

/-- What the console is given from outside: the data layer and the time of day. -/
structure Surroundings where
  source : Source
  now : TimeOfDay

/-- Why a key is refused. -/
inductive ConsoleError where
  | source (error : SourceError)
  | form (error : FormError)
  deriving DecidableEq

namespace ConsoleError

/-- The message of an error. -/
def message : ConsoleError → String
  | .source error => error.message
  | .form error => error.message

end ConsoleError

namespace Console

/-- The console with the panel that the configuration asks for. -/
def start (config : Config) (around : Surroundings) : Except SourceError Console := do
  let form ← around.source.openPanel around.now config.panel
  pure ⟨config, config.panel, form, false, none, [], 0⟩

variable (c : Console)

/-! ## Actions -/

section Actions

/-- The console and an answer that nothing was refused. -/
def done : Console × Except ConsoleError Unit := (c, .ok ())

/-- Opens another panel; if that fails, nothing changes. -/
def switchPanel (around : Surroundings) (p : Panel) : Console × Except ConsoleError Unit :=
  match around.source.openPanel around.now p with
  | .error e => (c, .error (.source e))
  | .ok form =>
    { c with form := form, panel := p, violations := [], cursor := 0, status := none }.done

/-- Checks the form, and saves its values if nothing is wrong. -/
def submit : Console :=
  let (form, vs) := c.form.validate
  if vs.isEmpty then
    { c with form := form.commit, violations := vs, status := some .saved }
  else
    { c with form := form, violations := vs, status := some (.needAttention vs.length) }

/-- What follows every edit: the feedback goes, and the form is checked if the configuration asks for it. -/
def afterEdit : Console :=
  if c.config.checksOnChange then
    let (form, vs) := c.form.validate
    { c with form := form, violations := vs, status := none }
  else { c with status := none }

/-- The console with the form that a call left, and what follows an edit if the call was not refused. -/
def finishEdit {α : Type} : Form × Except FormError α → Console × Except ConsoleError Unit
  | (form, .ok _) => ({ c with form := form }.afterEdit).done
  | (form, .error e) => ({ c with form := form }, .error (.form e))

/-- Resets the active field. -/
def resetActive : Console × Except ConsoleError Unit :=
  match c.form.activeField? with
  | none => c.done
  | some f => c.finishEdit (c.form.resetToBaseline f.name)

/-- The cursor that a key moves among the choices of a multi-select. -/
def movedCursor? (f : Field) (code : KeyCode) : Option Nat :=
  if f.decl.kind = .multiSelect ∧ f.choices ≠ [] then
    match code with
    | .right => some (stepForward f.choices.length c.cursor)
    | .left => some (stepBack f.choices.length c.cursor)
    | _ => none
  else none

/-- Gives the active field the value of a key, unless the field is read-only. -/
def editField (f : Field) (v : Value) : Console × Except ConsoleError Unit :=
  if f.effective.readOnly then { c with status := some (.readOnly f.decl.label) }.done
  else c.finishEdit (c.form.set f.name v)

/-- The effect of a key on the active field: it moves the cursor, edits the field, or does nothing. -/
def editActive (code : KeyCode) : Console × Except ConsoleError Unit :=
  match c.form.activeField? with
  | none => c.done
  | some f =>
    match c.movedCursor? f code with
    | some cursor => { c with cursor := cursor }.done
    | none =>
      match editedValue? f code c.cursor with
      | none => c.done
      | some v => c.editField f v

end Actions

/-! ## Keys -/

section Keys

/-- The effect of a key. -/
def press (around : Surroundings) (key : Key) : Console × Except ConsoleError Unit :=
  match key.code with
  | .esc => { c with quit := true }.done
  | .function 2 => c.switchPanel around c.panel.prev
  | .function 3 => c.switchPanel around c.panel.next
  | .tab | .down => { c with form := c.form.nextField, cursor := 0 }.done
  | .backTab | .up => { c with form := c.form.prevField, cursor := 0 }.done
  | .char 's' => if key.control then c.submit.done else c.editActive (.char 's')
  | .char 'r' => if key.control then c.resetActive else c.editActive (.char 'r')
  | code => c.editActive code

/-- The console after a list of keys, each with what surrounds the console when it is pressed.  A key that is
refused leaves what it left, and the next one follows. -/
def run (keys : List (Surroundings × Key)) : Console :=
  keys.foldl (fun c k => (c.press k.1 k.2).1) c

@[simp] theorem run_nil : c.run [] = c := rfl

theorem run_concat (keys : List (Surroundings × Key)) (k : Surroundings × Key) :
    c.run (keys ++ [k]) = ((c.run keys).press k.1 k.2).1 := by
  simp [run, List.foldl_append]

end Keys

end Console

end FormConsole
