/-!
# JSON values

The values of a JSON text, with everything that a reader of typed documents has to see: the order and the
repetition of object members, whether a number is written as a plain integer, and whether a string names a
text at all.

* `Json`: the values.
* `Json.member?`, `Json.text`, `Json.record`: look-up and the two constructors that writers use.
-/

namespace FormConsole

/-- A JSON value.  A number is an `integer` if it is written with neither fraction nor exponent and is not
`-0`; any other number is kept as it is spelled.  A string whose escapes leave a surrogate unpaired is
well-formed and names no text: it is `string none`. -/
inductive Json where
  | null
  | bool (b : Bool)
  | integer (n : Int)
  | real (spelling : String)
  | string (s : Option String)
  | array (items : List Json)
  | object (members : List (Option String × Json))
  deriving Inhabited

namespace Json

/-! ## Writing -/

/-- A string that names a text. -/
def text (s : String) : Json :=
  .string (some s)

/-- An object with the given members, in order. -/
def record (members : List (String × Json)) : Json :=
  .object (members.map fun m => (some m.1, m.2))

/-! ## Look-up -/

/-- The value of the last member of that name. -/
def member? (name : String) : Json → Option Json
  | .object members => (members.reverse.find? fun m => m.1 == some name).map (·.2)
  | _ => none

/-- The text of a string that names one. -/
def text? : Json → Option String
  | .string s => s
  | _ => none

/-- The items of an array. -/
def items? : Json → Option (List Json)
  | .array items => some items
  | _ => none

/-- The truth value of `true` and `false`. -/
def bool? : Json → Option Bool
  | .bool b => some b
  | _ => none

/-- The integer of a number written as one. -/
def integer? : Json → Option Int
  | .integer n => some n
  | _ => none

end Json

end FormConsole
