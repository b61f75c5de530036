import FormConsole.Json.Basic

/-!
# Typed documents

How a value of a fixed shape is read from JSON.  A record may be written as an object, in which unknown members
are skipped and no known member may be repeated, or as an array of its fields in order, which may not be
longer than the record.

* `Json.fields?`: what is written for each field of a record, `none` for a field that is left out.
* `Json.list?`, `Json.map?`: arrays of one type, and objects used as maps, in which the last of several
  members of one name counts and all of them have to be well-formed.
-/

namespace FormConsole.Json

variable {α : Type}

/-- What an object says about a field: a repeated member is refused. -/
def uniqueMember? (members : List (Option String × Json)) (name : String) :
    Option (Option Json) :=
  match members.filter fun m => m.1 == some name with
  | [] => some none
  | [m] => some (some m.2)
  | _ => none

/-- What is written for each field of the record with these fields. -/
def fields? (names : List String) : Json → Option (List (Option Json))
  | .object members =>
    if members.all fun m => m.1.isSome then names.mapM (uniqueMember? members) else none
  | .array items =>
    if items.length ≤ names.length then
      some (items.map some ++ List.replicate (names.length - items.length) none)
    else none
  | _ => none

/-- A field that has to be written. -/
def required? (read : Json → Option α) (written : Option Json) : Option α :=
  written.bind read

/-- A field that may be left out. -/
def default? (read : Json → Option α) (default : α) : Option Json → Option α
  | none => some default
  | some j => read j

/-- An array of values of one type. -/
def list? (read : Json → Option α) : Json → Option (List α)
  | .array items => items.mapM read
  | _ => none

/-- The members of an object used as a map, in the order in which they are written. -/
def map? (read : Json → Option α) : Json → Option (List (String × α))
  | .object members => members.mapM fun m => do
    let name ← m.1
    let value ← read m.2
    pure (name, value)
  | _ => none

end FormConsole.Json
