import FormConsole.Value
import FormConsole.Json.Record

/-!
# Values in JSON

A value is written as the JSON value of its kind: `true` or `false`, an integer in the signed 64-bit range, a
string, or an array of strings.  Nothing else is a value.

* `Value.ofJson?`, `Value.toJson`: reading and writing.
* `Value.ofJson?_toJson`: a value that is written reads back.
-/

namespace FormConsole

/-- The number that an integer is, if it is in range. -/
def number? (i : Int) : Option Int64 :=
  if Int64.minValue.toInt ≤ i ∧ i ≤ Int64.maxValue.toInt then some (Int64.ofInt i) else none

@[simp] theorem number?_toInt (n : Int64) : number? n.toInt = some n := by
  rw [number?, if_pos ⟨n.minValue_le_toInt, n.toInt_le⟩, Int64.ofInt_toInt]

namespace Value

/-- The value that is written. -/
def ofJson? : Json → Option Value
  | .bool b => some (.bool b)
  | .integer i => (number? i).map .number
  | .string s => s.map .text
  | .array items => (items.mapM Json.text?).map .list
  | _ => none

/-- A value as it is written. -/
def toJson : Value → Json
  | .bool b => .bool b
  | .number n => .integer n.toInt
  | .text s => .text s
  | .list items => .array (items.map .text)

theorem mapM_text?_map_text (items : List String) :
    (items.map Json.text).mapM Json.text? = some items := by
  induction items with
  | nil => rfl
  | cons item items ih => simp [Json.text, Json.text?, ih]

/-- A value that is written reads back. -/
@[simp] theorem ofJson?_toJson (v : Value) : ofJson? v.toJson = some v := by
  cases v with
  | bool b => rfl
  | number n => simp [toJson, ofJson?]
  | text s => rfl
  | list items =>
    show ((items.map Json.text).mapM Json.text?).map Value.list = some (.list items)
    rw [mapM_text?_map_text]
    rfl

end Value

end FormConsole
