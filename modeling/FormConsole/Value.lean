import FormConsole.Text.Blank

/-!
# Field values

What a field may hold: a truth value, a number, a text or a list of texts, and what editing does to it.

* `Value.pushed`, `Value.popped`: one character typed at the end, and the last one removed.
* `Value.toggled`: one item of a list picked or dropped, with `Value.filter_toggled` and `Value.count_toggled`.
* `Value.cleared`: the empty value of the same kind, with `Value.cleared_cleared`.
* `toInt_saturate`, `toInt_dropDigit`: what the arithmetic on 64-bit numbers does, in integers.
-/

namespace FormConsole

/-- What a field holds. -/
inductive Value where
  | bool (b : Bool)
  | number (n : Int64)
  | text (s : String)
  | list (items : List String)
  deriving DecidableEq

/-! ## Numbers -/

section Numbers

/-- The closest number in the signed 64-bit range. -/
def saturate (i : Int) : Int64 :=
  Int64.ofInt (max Int64.minValue.toInt (min Int64.maxValue.toInt i))

/-- The number with one more decimal digit; each of the two steps stays in range. -/
def appendDigit (n : Int64) (digit : Nat) : Int64 :=
  saturate ((saturate (n.toInt * 10)).toInt + digit)

/-- The number without its last decimal digit. -/
def dropDigit (n : Int64) : Int64 :=
  Int64.ofInt (n.toInt.tdiv 10)

theorem toInt_saturate (i : Int) :
    (saturate i).toInt = max Int64.minValue.toInt (min Int64.maxValue.toInt i) := by
  have hmin := Int64.toInt_minValue
  have hmax := Int64.toInt_maxValue
  exact Int64.toInt_ofInt_of_le (by omega) (by omega)

theorem toInt_dropDigit (n : Int64) : (dropDigit n).toInt = n.toInt.tdiv 10 := by
  have hlo := n.le_toInt
  have hhi := n.toInt_lt
  refine Int64.toInt_ofInt_of_le ?_ ?_
  · have : (-2 ^ 63 : Int) = -9223372036854775808 := by decide
    rcases Int.le_total 0 n.toInt with h | h
    · have := Int.tdiv_nonneg h (by decide : (0 : Int) ≤ 10)
      omega
    · have := Int.neg_tdiv (a := -n.toInt) (b := 10)
      have := Int.tdiv_le_self (a := -n.toInt) 10 (by omega)
      simp only [Int.neg_neg] at *
      omega
  · rcases Int.le_total 0 n.toInt with h | h
    · have := Int.tdiv_le_self (a := n.toInt) 10 h
      omega
    · have := Int.neg_tdiv (a := -n.toInt) (b := 10)
      have := Int.tdiv_nonneg (a := -n.toInt) (by omega) (by decide : (0 : Int) ≤ 10)
      simp only [Int.neg_neg] at *
      omega

end Numbers

namespace Value

instance : Inhabited Value := ⟨.text ""⟩

/-! ## Reading a value -/

section Views

/-- The text of a text; anything else has the empty one. -/
def asText : Value → String
  | .text s => s
  | _ => ""

/-- The number of a number. -/
def asNumber? : Value → Option Int64
  | .number n => some n
  | _ => none

/-- Whether the value is the truth value `true`. -/
def isTrue : Value → Bool
  | .bool b => b
  | _ => false

/-- The items of a list; anything else has none. -/
def asList : Value → List String
  | .list items => items
  | _ => []

/-- Whether nothing was entered: a text of white space only, or a list without items. -/
def isBlank : Value → Bool
  | .text s => Text.isBlank s
  | .list items => items.isEmpty
  | _ => false

/-- The value as it is shown. -/
def display : Value → String
  | .bool b => if b then "yes" else "no"
  | .number n => toString n.toInt
  | .text s => s
  | .list items => ", ".intercalate items

end Views

/-! ## Editing a value -/

section Edits

/-- The empty value of the same kind. -/
def cleared : Value → Value
  | .bool _ => .bool false
  | .number _ => .number 0
  | .text _ => .text ""
  | .list _ => .list []

/-- One character typed at the end: any character into a text, a decimal digit into a number. -/
def pushed (v : Value) (c : Char) : Value :=
  match v with
  | .text s => .text (s.push c)
  | .number n => if c.isDigit then .number (appendDigit n (c.toNat - '0'.toNat)) else v
  | _ => v

/-- The last character of a text, or the last digit of a number, removed. -/
def popped : Value → Value
  | .text s => .text (String.ofList s.toList.dropLast)
  | .number n => .number (dropDigit n)
  | v => v

/-- The list without the first item of that text, or with one added at its end if it has none. -/
def toggled (v : Value) (item : String) : Value :=
  .list (if item ∈ v.asList then v.asList.erase item else v.asList ++ [item])

@[simp] theorem cleared_cleared (v : Value) : v.cleared.cleared = v.cleared := by
  cases v <;> rfl

/-- The other items stay as they are. -/
theorem filter_toggled (v : Value) (item : String) :
    (v.toggled item).asList.filter (· != item) = v.asList.filter (· != item) := by
  rw [toggled, asList]
  split
  · rw [← List.erase_filter, List.erase_of_not_mem (by simp)]
  · simp

/-- The item is there once more or once less. -/
theorem count_toggled (v : Value) (item : String) : (v.toggled item).asList.count item =
    if item ∈ v.asList then v.asList.count item - 1 else 1 := by
  rw [toggled, asList]
  split
  · rw [List.count_erase_self]
  · next hnot => rw [List.count_append, List.count_eq_zero_of_not_mem hnot, List.count_singleton_self]

end Edits

end Value

end FormConsole
