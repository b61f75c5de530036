import Mathlib
import FormConsole.Value

/-!
# Typing and deleting

A character that is typed at the end of a text is what deleting removes, and so is a digit that is typed at the end of a
number, as long as the number is not negative and the one with the digit fits into 64 bits.  A digit after a negative
number is added, although what is shown goes on with it, so that deleting does not lead back.

What a notation reads as is `String.toInt?`.  Mathlib is imported as a whole for the lemmas about it, which no single module
of it brings along.

* `toInt_appendDigit`: the number after a digit, as an integer.
* `toInt?_push_display`: the number that the decimal notation with one more digit is.
* `Value.popped_pushed`: when deleting undoes typing; `Value.exists_lost_digit`: a number for which it does not.
-/

namespace FormConsole

/-! ## Digits -/

section Digits

/-- A digit is added in range: the number is first multiplied by ten, and only that is cut off at the lower end. -/
theorem toInt_appendDigit (n : Int64) {d : Nat} (hd : d < 10) :
    (appendDigit n d).toInt = min (2 ^ 63 - 1) (max (-2 ^ 63) (n.toInt * 10) + d) := by
  have hmin : Int64.minValue.toInt = -2 ^ 63 := Int64.toInt_minValue
  have hmax : Int64.maxValue.toInt = 2 ^ 63 - 1 := Int64.toInt_maxValue
  rw [appendDigit, toInt_saturate, toInt_saturate, hmin, hmax]
  omega

theorem digit_lt {c : Char} (hc : c.isDigit = true) : c.toNat - '0'.toNat < 10 := by
  have hdigit : (decide ('0'.val ≤ c.val) && decide (c.val ≤ '9'.val)) = true := hc
  simp only [Bool.and_eq_true, decide_eq_true_eq, UInt32.le_iff_toNat_le] at hdigit
  have hnine : '9'.val.toNat = 57 := rfl
  have hzero : '0'.toNat = 48 := rfl
  have hcode : c.toNat = c.val.toNat := rfl
  omega

/-- Zero is the only digit of that value. -/
theorem digit_eq_zero_iff {c : Char} (hc : c.isDigit = true) : c.toNat - '0'.toNat = 0 ↔ c = '0' := by
  have hdigit : (decide ('0'.val ≤ c.val) && decide (c.val ≤ '9'.val)) = true := hc
  simp only [Bool.and_eq_true, decide_eq_true_eq, UInt32.le_iff_toNat_le] at hdigit
  have hzero : '0'.toNat = 48 := rfl
  have hval : '0'.val.toNat = 48 := rfl
  have hcode : c.toNat = c.val.toNat := rfl
  constructor
  · intro h
    exact Char.toNat_inj.mp (by omega)
  · rintro rfl
    rfl

/-- The digits of a number with one more digit are ten times the number and the digit. -/
theorem toNat?_push_repr (n : Nat) {c : Char} (hc : c.isDigit = true) :
    (n.repr.push c).toNat? = some (10 * n + (c.toNat - '0'.toNat)) := by
  have hchars : (n.repr.push c).toList = Nat.toDigits 10 n ++ [c] := by
    rw [String.toList_push, Nat.toList_repr]
  have hdigits : ∀ x ∈ Nat.toDigits 10 n ++ [c], x.isDigit = true := by
    intro x hx
    rcases List.mem_append.mp hx with hx | hx
    · exact Nat.isDigit_of_mem_toDigits (by decide) (by decide) hx
    · rwa [List.mem_singleton.mp hx]
  have hnumeral : (n.repr.push c).isNat = true := by
    refine String.isNat_of_isDigit ?_ (hchars ▸ hdigits)
    intro hempty
    rw [hempty] at hchars
    exact absurd hchars.symm (by simp)
  have hplain : (Nat.toDigits 10 n ++ [c]).filter (· != '_') = Nat.toDigits 10 n ++ [c] := by
    refine List.filter_eq_self.mpr fun x hx => ?_
    have hx := hdigits x hx
    rw [bne_iff_ne]
    rintro rfl
    exact absurd hx (by decide)
  rw [String.toNat?_eq_some_ofDigitChars hnumeral, hchars, hplain, Nat.ofDigitChars_append,
    Nat.ofDigitChars_ten_toDigits, Nat.ofDigitChars_cons, Nat.ofDigitChars_nil]

/-- The decimal notation of a number with one more digit is ten times the number and the digit, away from zero. -/
theorem toInt?_push_display (n : Int64) {c : Char} (hc : c.isDigit = true) :
    ((Value.number n).display.push c).toInt? =
      some (if n.toInt < 0 then n.toInt * 10 - (c.toNat - '0'.toNat : Nat)
        else n.toInt * 10 + (c.toNat - '0'.toNat : Nat)) := by
  show ((toString n.toInt).push c).toInt? = _
  cases n.toInt with
  | ofNat m =>
    have hread := String.toInt?_eq_some_of_toNat?_eq_some (toNat?_push_repr m hc)
    rw [Int.ofNat_eq_natCast, if_neg (Int.not_lt.mpr (Int.natCast_nonneg m))]
    refine hread.trans (congrArg some ?_)
    omega
  | negSucc m =>
    have hsign : (toString (Int.negSucc m)).push c = "-" ++ (m + 1).repr.push c := by
      rw [String.push_eq_append, String.push_eq_append, ← String.append_assoc]
      rfl
    rw [hsign, String.toInt?_minus_append, toNat?_push_repr (m + 1) hc, Option.map_some, if_pos (by omega)]
    refine congrArg some ?_
    omega

theorem tdiv_ten_of_nonneg {n d : Int} (hn : 0 ≤ n) (hd : 0 ≤ d) (hlt : d < 10) :
    (n * 10 + d).tdiv 10 = n := by
  rw [Int.tdiv_eq_ediv_of_nonneg (by omega)]
  omega

theorem tdiv_ten_of_nonpos {n d : Int} (hn : n ≤ 0) (hd : 0 ≤ d) (hlt : d < 10) :
    (n * 10 - d).tdiv 10 = n := by
  have hneg : n * 10 - d = -(-n * 10 + d) := by omega
  rw [hneg, Int.neg_tdiv, tdiv_ten_of_nonneg (by omega) hd hlt, Int.neg_neg]

/-- Without its last digit, a number is what it was before a digit was written after it, away from zero. -/
theorem dropDigit_eq {k n : Int64} {d : Nat} (hd : d < 10)
    (hk : k.toInt = if n.toInt < 0 then n.toInt * 10 - d else n.toInt * 10 + d) : dropDigit k = n := by
  apply Int64.toInt_inj.mp
  rw [toInt_dropDigit, hk]
  split
  · next hneg => exact tdiv_ten_of_nonpos (by omega) (by omega) (by omega)
  · next hnonneg => exact tdiv_ten_of_nonneg (by omega) (by omega) (by omega)

end Digits

/-! ## Deleting what was typed -/

namespace Value

section Typing

theorem popped_pushed_text (s : String) (c : Char) : ((Value.text s).pushed c).popped = .text s := by
  rw [pushed, popped, String.toList_push, List.dropLast_concat, String.ofList_toList]

variable {n k : Int64} {c : Char}

theorem pushed_number (n : Int64) (hc : c.isDigit = true) :
    (Value.number n).pushed c = .number (appendDigit n (c.toNat - '0'.toNat)) := by
  rw [pushed, if_pos hc]

/-- The digit is written after the number, unless it is added to a negative one. -/
theorem appendDigit_eq_iff (hc : c.isDigit = true)
    (hk : ((Value.number n).display.push c).toInt? = some k.toInt) :
    appendDigit n (c.toNat - '0'.toNat) = k ↔ 0 ≤ n.toInt ∨ c = '0' := by
  have hlt := digit_lt hc
  have hzero := digit_eq_zero_iff hc
  have hlo := k.le_toInt
  have hhi := k.toInt_lt
  rw [toInt?_push_display n hc, Option.some.injEq] at hk
  rw [← Int64.toInt_inj, toInt_appendDigit n hlt, ← hzero]
  generalize c.toNat - '0'.toNat = d at *
  split at hk
  · next hneg => omega
  · next hnonneg => omega

/-- Deleting leads back from such a number, and from no other one. -/
theorem dropDigit_appendDigit_iff (hc : c.isDigit = true)
    (hk : ((Value.number n).display.push c).toInt? = some k.toInt) :
    dropDigit (appendDigit n (c.toNat - '0'.toNat)) = n ↔ 0 ≤ n.toInt ∨ c = '0' := by
  have hlt := digit_lt hc
  have hread := hk
  rw [toInt?_push_display n hc, Option.some.injEq] at hread
  constructor
  · intro hback
    by_contra hboth
    rw [not_or, Int.not_le] at hboth
    have hdigit : c.toNat - '0'.toNat ≠ 0 := fun h => hboth.2 ((digit_eq_zero_iff hc).mp h)
    have hlo := k.le_toInt
    have hvalue := toInt_appendDigit n hlt
    rw [← Int64.toInt_inj, toInt_dropDigit, hvalue] at hback
    rw [if_pos hboth.1] at hread
    generalize c.toNat - '0'.toNat = d at *
    -- the digit is added, so that one more than the number is left
    have hsum : min (2 ^ 63 - 1) (max (-2 ^ 63) (n.toInt * 10) + (d : Int)) =
        (n.toInt + 1) * 10 - (10 - d) := by
      omega
    rw [hsum, tdiv_ten_of_nonpos (by omega) (by omega) (by omega)] at hback
    omega
  · intro h
    rw [(appendDigit_eq_iff hc hk).mpr h]
    exact dropDigit_eq hlt hread.symm

/-- Deleting undoes typing in a text, and in a number that is not negative.  A typed digit never leaves the range of 64
bits.  Whenever the decimal notation with the digit is a number in this range, deleting leads from that number back to the
one before; and it is the number that typing gives exactly if the number before is not negative or the digit is zero, which
is also exactly when deleting what was typed leads back. -/
theorem popped_pushed (s : String) (n : Int64) (c : Char) :
    ((Value.text s).pushed c).popped = .text s ∧
      (c.isDigit = true → ∃ m : Int64, (Value.number n).pushed c = .number m ∧
        m.toInt = min (2 ^ 63 - 1) (max (-2 ^ 63) (n.toInt * 10) + (c.toNat - '0'.toNat : Nat)) ∧
        ∀ k : Int64, ((Value.number n).display.push c).toInt? = some k.toInt →
          (Value.number k).popped = .number n ∧
          (m = k ↔ 0 ≤ n.toInt ∨ c = '0') ∧
          ((Value.number m).popped = .number n ↔ 0 ≤ n.toInt ∨ c = '0')) := by
  refine ⟨popped_pushed_text s c, fun hc => ?_⟩
  have hlt := digit_lt hc
  refine ⟨_, pushed_number n hc, toInt_appendDigit n hlt, fun k hk => ⟨?_, appendDigit_eq_iff hc hk, ?_⟩⟩
  · have hread := hk
    rw [toInt?_push_display n hc, Option.some.injEq] at hread
    rw [popped, dropDigit_eq hlt hread.symm]
  · rw [popped, Value.number.injEq]
    exact dropDigit_appendDigit_iff hc hk

/-- The largest number is typed and deleted digit by digit. -/
theorem popped_pushed_max : '7'.isDigit = true ∧
    ((Value.number 922337203685477580).display.push '7').toInt? = some Int64.maxValue.toInt ∧
    (Value.number 922337203685477580).pushed '7' = .number Int64.maxValue ∧
    (Value.number Int64.maxValue).popped = .number 922337203685477580 := by
  have hdigit : '7'.isDigit = true := by decide
  have hread : ((Value.number 922337203685477580).display.push '7').toInt? = some Int64.maxValue.toInt := by
    rw [toInt?_push_display _ hdigit]
    decide
  obtain ⟨m, hpushed, -, htyped⟩ := (popped_pushed "" 922337203685477580 '7').2 hdigit
  obtain ⟨hback, hsame, -⟩ := htyped Int64.maxValue hread
  obtain rfl := hsame.mpr (Or.inl (by decide))
  exact ⟨hdigit, hread, hpushed, hback⟩

/-- A three after minus five: with it the notation is that of minus fifty-three, but the number becomes minus forty-seven,
and deleting leaves minus four. -/
theorem exists_lost_digit : ∃ (n k : Int64) (c : Char), c.isDigit = true ∧
    ((Value.number n).display.push c).toInt? = some k.toInt ∧ (Value.number n).pushed c ≠ .number k ∧
    ((Value.number n).pushed c).popped ≠ .number n := by
  refine ⟨-5, -53, '3', by decide, ?_, by decide, by decide⟩
  rw [toInt?_push_display _ (by decide)]
  decide

end Typing

end Value

end FormConsole
