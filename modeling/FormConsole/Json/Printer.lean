import FormConsole.Json.Basic
import FormConsole.Text.Hex

/-!
# Writing JSON

Two written forms: `render`, without any white space, and `renderRecord`, the members of one object on lines of
their own.  In a string only the quote, the backslash and the control characters are escaped.
-/

namespace FormConsole.Json

/-! ## Strings -/

/-- A character as it is written inside a string. -/
def escape (c : Char) : List Char :=
  if c = '"' then ['\\', '"']
  else if c = '\\' then ['\\', '\\']
  else if c = '\x08' then ['\\', 'b']
  else if c = '\t' then ['\\', 't']
  else if c = '\n' then ['\\', 'n']
  else if c = '\x0c' then ['\\', 'f']
  else if c = '\r' then ['\\', 'r']
  else if c.toNat < 0x20 then
    ['\\', 'u', '0', '0', Text.hexDigit (c.toNat / 16), Text.hexDigit (c.toNat % 16)]
  else [c]

/-- A string literal.  One that names no text is written as a lone surrogate. -/
def quote : Option String → List Char
  | some s => '"' :: s.toList.flatMap escape ++ ['"']
  | none => ['"', '\\', 'u', 'd', '8', '0', '0', '"']

/-! ## Values -/

mutual

/-- The characters of a value, without white space. -/
def chars : Json → List Char
  | .null => ['n', 'u', 'l', 'l']
  | .bool true => ['t', 'r', 'u', 'e']
  | .bool false => ['f', 'a', 'l', 's', 'e']
  | .integer n => (toString n).toList
  | .real s => s.toList
  | .string s => quote s
  | .array items => '[' :: (itemChars items ++ [']'])
  | .object members => '\x7b' :: (memberChars members ++ ['\x7d'])

/-- The characters of the items of an array. -/
def itemChars : List Json → List Char
  | [] => []
  | [j] => chars j
  | j :: js => chars j ++ ',' :: itemChars js

/-- The characters of the members of an object. -/
def memberChars : List (Option String × Json) → List Char
  | [] => []
  | [(k, j)] => quote k ++ ':' :: chars j
  | (k, j) :: ms => quote k ++ ':' :: (chars j ++ ',' :: memberChars ms)

end

/-- The text of a value, without white space. -/
def render (j : Json) : String :=
  String.ofList (chars j)

/-- One member on a line of its own, indented by two spaces. -/
def lineChars (m : String × Json) : List Char :=
  [' ', ' '] ++ quote (some m.1) ++ [':', ' '] ++ chars m.2

/-- The text of an object with at least one member, one line a member and no final line break.  The
members' values are written without white space. -/
def renderRecord (members : List (String × Json)) : String :=
  String.ofList
    (['\x7b', '\n'] ++ ((members.map lineChars).intersperse [',', '\n']).flatten ++ ['\n', '\x7d'])

end FormConsole.Json
