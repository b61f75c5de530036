import FormConsole.Text.Hex

/-!
# UUIDs

A UUID is 128 bits.  It is read with or without hyphens, with hyphens also in braces or after `urn:uuid:`, and always
written with hyphens and in lower case.
-/

namespace FormConsole

/-- A universally unique identifier. -/
structure Uuid where
  bits : BitVec 128
  deriving DecidableEq

namespace Uuid

/-- How many digits stand between the hyphens. -/
def groupSizes : List Nat := [8, 4, 4, 4, 12]

/-- The digits of groups of these sizes with a hyphen between each two. -/
def readGroups : List Nat → List Char → Option (List Char)
  | [], cs => if cs.isEmpty then some [] else none
  | [n], cs => if cs.length = n then some cs else none
  | n :: ns, cs =>
    match cs.drop n with
    | '-' :: rest => (readGroups ns rest).map (cs.take n ++ ·)
    | _ => none

/-- The digits, as groups of these sizes with a hyphen between each two. -/
def writeGroups : List Nat → List Char → List Char
  | [], _ => []
  | [n], cs => cs.take n
  | n :: ns, cs => cs.take n ++ '-' :: writeGroups ns (cs.drop n)

/-- The digits of a written UUID. -/
def digits? (cs : List Char) : Option (List Char) :=
  if cs.length = 32 then some cs
  else if (cs.take 9).map Char.toLower = "urn:uuid:".toList then readGroups groupSizes (cs.drop 9)
  else if cs.head? = some '\x7b' ∧ cs.getLast? = some '\x7d' then
    readGroups groupSizes cs.tail.dropLast
  else readGroups groupSizes cs

/-- The UUID that a text writes. -/
def ofText? (s : String) : Option Uuid := do
  let digits ← digits? s.toList
  let n ← Text.hexNumber? digits
  pure ⟨BitVec.ofNat 128 n⟩

/-- The digits of a number, so many of them, the least significant one last. -/
def hexDigits : Nat → Nat → List Char
  | 0, _ => []
  | count + 1, n => hexDigits count (n / 16) ++ [Text.hexDigit (n % 16)]

/-- The text of a UUID. -/
def toText (u : Uuid) : String :=
  String.ofList (writeGroups groupSizes (hexDigits 32 u.bits.toNat))

end Uuid

end FormConsole
