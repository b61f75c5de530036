/-!
# Keys

A key press is a key together with the control key held or not; the other modifiers make no difference to the
console.

* `Key.ofName?`: the key press of a written name such as `C-s` or `F2`.
-/

namespace FormConsole

/-- A key of the keyboard. -/
inductive KeyCode where
  | char (c : Char)
  | function (n : Nat)
  | esc
  | tab
  | backTab
  | up
  | down
  | left
  | right
  | enter
  | backspace
  | delete
  | home
  | insert
  /-- Any other key, such as End or Caps Lock; the console does nothing with it. -/
  | other
  deriving DecidableEq

/-- A key press. -/
structure Key where
  code : KeyCode
  control : Bool
  deriving DecidableEq

namespace Key

/-- The press of a key alone. -/
def plain (code : KeyCode) : Key := ⟨code, false⟩

/-- The keys with names of their own. -/
def named : List (String × KeyCode) :=
  [("Esc", .esc), ("Tab", .tab), ("BackTab", .backTab), ("Up", .up), ("Down", .down), ("Left", .left),
    ("Right", .right), ("Enter", .enter), ("Backspace", .backspace), ("Delete", .delete),
    ("Home", .home), ("Insert", .insert)]

/-- The key of a name without modifiers: a single character is that character. -/
def code? (cs : List Char) : Option KeyCode :=
  match cs with
  | [c] => some (.char c)
  | 'F' :: digits =>
    if digits.all Char.isDigit then (String.ofList digits).toNat?.map .function else none
  | _ => (named.find? fun k => k.1.toList == cs).map (·.2)

/-- The key press of a name.  `C-`, `S-` and `A-` in front stand for the modifiers, as long as something follows
them. -/
def ofChars? (control : Bool) : List Char → Option Key
  | 'C' :: '-' :: c :: cs => ofChars? true (c :: cs)
  | 'S' :: '-' :: c :: cs => ofChars? control (c :: cs)
  | 'A' :: '-' :: c :: cs => ofChars? control (c :: cs)
  | cs => (code? cs).map fun code => ⟨code, control⟩

/-- The key press of a name. -/
def ofName? (s : String) : Option Key :=
  ofChars? false s.toList

end Key

end FormConsole
