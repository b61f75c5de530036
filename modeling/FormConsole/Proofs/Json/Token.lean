import FormConsole.Json.Printer
import FormConsole.Json.Token
import Mathlib.Data.List.Basic
import Mathlib.Tactic.SplitIfs

/-!
# Tokens that were written

What is written for a text, an integer or a word is cut off as one token again, whatever follows it, as long as no
number or word goes on there.

* `Token.scanPieces_escape`: an escaped character is one unit again.
* `Token.scanUnsigned_toDigits`: decimal digits are their number again.
* `Token.Ends`: what may follow an atom; `Token.ofChars?_quote`, `Token.ofChars?_integer`: the atoms.
-/

namespace FormConsole.Json.Token

/-- A run of characters ends where the first one without the property stands. -/
theorem takeWhile_append_of_head? {p : Char → Bool} {cs rest : List Char} (hcs : ∀ c ∈ cs, p c = true)
    (hrest : ∀ c ∈ rest.head?, p c = false) :
    (cs ++ rest).takeWhile p = cs ∧ (cs ++ rest).dropWhile p = rest := by
  rw [List.takeWhile_append_of_pos hcs, List.dropWhile_append_of_pos hcs]
  cases rest with
  | nil => exact ⟨List.append_nil cs, rfl⟩
  | cons c rest =>
    have hc : p c = false := hrest c rfl
    rw [List.takeWhile_cons_of_neg (by simp [hc]), List.dropWhile_cons_of_neg (by simp [hc])]
    exact ⟨List.append_nil cs, rfl⟩

/-! ## Texts -/

section Texts

theorem hexNumber?_escape {n : Nat} (hn : n < 0x20) :
    Text.hexNumber? ['0', '0', Text.hexDigit (n / 16), Text.hexDigit (n % 16)] = some n := by
  have hzero : Text.hexValue? '0' = some 0 := by decide
  have hhigh := Text.hexValue?_hexDigit (n / 16) (by omega)
  have hlow := Text.hexValue?_hexDigit (n % 16) (by omega)
  simp only [Text.hexNumber?, List.mapM_cons, List.mapM_nil, hzero, hhigh, hlow, Option.pure_def, Option.bind_eq_bind,
    Option.bind_some, Option.map_some, List.foldl_cons, List.foldl_nil]
  congr 1
  omega

/-- A control character without a short form is one unit. -/
theorem scanPieces_control {c : Char} (hc : c.toNat < 0x20) (rest : List Char) :
    scanPieces ('\\' :: 'u' :: '0' :: '0' :: Text.hexDigit (c.toNat / 16) :: Text.hexDigit (c.toNat % 16) :: rest) =
      (scanPieces rest).map fun r => (.char c :: r.1, r.2) := by
  have hpiece : Piece.ofCode c.toNat = .char c := by
    rw [Piece.ofCode, if_neg (by omega), Char.ofNat_toNat]
  rw [scanPieces, hexNumber?_escape hc]
  dsimp only
  rw [hpiece]

/-- An escaped character is one unit. -/
theorem scanPieces_escape (c : Char) (rest : List Char) :
    scanPieces (escape c ++ rest) = (scanPieces rest).map fun r => (.char c :: r.1, r.2) := by
  unfold escape
  split_ifs with hquote hbackslash hbackspace htab hline hfeed hreturn hcontrol
  · subst hquote; rfl
  · subst hbackslash; rfl
  · subst hbackspace; rfl
  · subst htab; rfl
  · subst hline; rfl
  · subst hfeed; rfl
  · subst hreturn; rfl
  · exact scanPieces_control hcontrol rest
  · simp [scanPieces, hbackslash, hcontrol]

/-- The inside of a text is one unit a character, up to the closing quote. -/
theorem scanPieces_flatMap_escape (cs rest : List Char) :
    scanPieces (cs.flatMap escape ++ '"' :: rest) = some (cs.map .char, rest) := by
  induction cs with
  | nil => rfl
  | cons c cs ih => rw [List.flatMap_cons, List.append_assoc, scanPieces_escape, ih, Option.map_some, List.map_cons]

theorem join_map_char (cs : List Char) : join (cs.map .char) = some cs := by
  induction cs with
  | nil => rfl
  | cons c cs ih => rw [List.map_cons, join, ih, Option.map_some]

end Texts

/-! ## Numbers -/

section Numbers

theorem natValue_toDigits (n : Nat) : natValue (Nat.toDigits 10 n) = n := by
  have hvalue : natValue (Nat.toDigits 10 n) = Nat.ofDigitChars 10 (Nat.toDigits 10 n) 0 := by
    simp only [natValue, Nat.ofDigitChars_eq_foldl, Nat.mul_comm]
  rw [hvalue, Nat.ofDigitChars_ten_toDigits]

/-- A number is written without a zero in front. -/
theorem head?_toDigits {n : Nat} (hn : 0 < n) : (Nat.toDigits 10 n).head? ≠ some '0' := by
  induction n using Nat.strongRecOn with
  | ind n ih =>
    by_cases hsmall : n < 10
    · rw [Nat.toDigits_of_lt_base hsmall]
      have hdigit : ∀ m < 10, 0 < m → Nat.digitChar m ≠ '0' := by decide
      simpa using hdigit n hsmall hn
    · rw [Nat.toDigits_of_base_le (by decide) (by omega), List.head?_append_of_ne_nil _ Nat.toDigits_ne_nil]
      exact ih (n / 10) (by omega) (by omega)

/-- What may follow a number or a word: nothing that goes on with it. -/
def Ends (rest : List Char) : Prop :=
  ∀ c ∈ rest.head?, c.isAlpha = false ∧ c.isDigit = false ∧ c ≠ '.'

variable {rest : List Char}

theorem scanDigits_toDigits (n : Nat) (hrest : Ends rest) :
    scanDigits (Nat.toDigits 10 n ++ rest) = some (Nat.toDigits 10 n, rest) := by
  have hdigits : ∀ c ∈ Nat.toDigits 10 n, c.isDigit = true := fun c hc =>
    Nat.isDigit_of_mem_toDigits (by decide) (by decide) hc
  obtain ⟨htake, hdrop⟩ := takeWhile_append_of_head? hdigits fun c hc => (hrest c hc).2.1
  rw [scanDigits, htake, hdrop]
  cases hds : Nat.toDigits 10 n with
  | nil => exact absurd hds Nat.toDigits_ne_nil
  | cons d ds => rfl

theorem scanWhole_toDigits (n : Nat) (hrest : Ends rest) :
    scanWhole (Nat.toDigits 10 n ++ rest) = some (Nat.toDigits 10 n, rest) := by
  rw [scanWhole, scanDigits_toDigits n hrest]
  split
  · next d ds tail heq =>
    -- only zero itself starts with a zero
    have hds : Nat.toDigits 10 n = '0' :: d :: ds := (Prod.mk.inj (Option.some.inj heq)).1
    rcases Nat.eq_zero_or_pos n with rfl | hn
    · rw [Nat.toDigits_zero] at hds
      exact absurd hds (by simp)
    · exact absurd (by rw [hds]; rfl) (head?_toDigits hn)
  · rfl

theorem scanFraction_of_ends (hrest : Ends rest) : scanFraction rest = some ([], rest) := by
  unfold scanFraction
  split
  · next cs => exact absurd rfl (hrest '.' rfl).2.2
  · rfl

theorem scanExponent_of_ends (hrest : Ends rest) : scanExponent rest = some ([], rest) := by
  cases rest with
  | nil => rfl
  | cons c cs =>
    have hmark : ¬ (c = 'e' ∨ c = 'E') := by
      rintro (rfl | rfl)
      · exact absurd (hrest 'e' rfl).1 (by decide)
      · exact absurd (hrest 'E' rfl).1 (by decide)
    exact if_neg hmark

/-- Decimal digits are their number, unless they are a zero after a sign. -/
theorem scanUnsigned_toDigits (negative : Bool) {n : Nat} (hzero : negative = true → n ≠ 0)
    (hrest : Ends rest) : scanUnsigned negative (Nat.toDigits 10 n ++ rest) =
      some (.integer (if negative then -(n : Int) else n), rest) := by
  have hsign : (negative && n == 0) = false := by
    cases negative with
    | false => rfl
    | true => simpa using hzero rfl
  simp only [scanUnsigned, scanWhole_toDigits n hrest, scanFraction_of_ends hrest, scanExponent_of_ends hrest,
    Option.bind_eq_bind, Option.bind_some, Option.pure_def, numberValue, natValue_toDigits, hsign]
  rfl

end Numbers

/-! ## Tokens -/

section Tokens

variable {c : Char} {cs rest : List Char}

theorem ofChars?_of_space (hspace : isSpace c = true) : ofChars? (c :: cs) = ofChars? cs := by
  rw [ofChars?, if_pos hspace]

theorem ofChars?_of_scan {t : Token} (hspace : isSpace c = false) (hscan : scan c cs = some (t, rest)) :
    ofChars? (c :: cs) = (ofChars? rest).map (t :: ·) := by
  rw [ofChars?, if_neg (by simp [hspace])]
  split
  · next hnone => rw [hnone] at hscan; exact absurd hscan (by simp)
  · next t' rest' hsome =>
    rw [hsome] at hscan
    obtain ⟨rfl, rfl⟩ := Prod.mk.inj (Option.some.inj hscan)
    rfl

/-- Brackets and separators are tokens of their own. -/
theorem ofChars?_of_punctuation {t : Token} (h : punctuation? c = some t) :
    ofChars? (c :: rest) = (ofChars? rest).map (t :: ·) := by
  refine ofChars?_of_scan ?_ (by rw [scan, h])
  unfold punctuation? at h
  split at h
  all_goals first | rfl | exact absurd h (by simp)

theorem ofChars?_of_scanAtom {j : Json} (hspace : isSpace c = false) (hatom : punctuation? c = none)
    (hscan : scanAtom c cs = some (j, rest)) : ofChars? (c :: cs) = (ofChars? rest).map (.atom j :: ·) :=
  ofChars?_of_scan hspace (by rw [scan, hatom, hscan]; rfl)

/-- A text is one token, and so is a string that names none. -/
theorem ofChars?_quote (s : Option String) (rest : List Char) :
    ofChars? (quote s ++ rest) = (ofChars? rest).map (.atom (.string s) :: ·) := by
  cases s with
  | none => exact ofChars?_of_scanAtom (by decide) (by decide) rfl
  | some s =>
    have hquote : quote (some s) ++ rest = '"' :: (s.toList.flatMap escape ++ '"' :: rest) := by simp [quote]
    rw [hquote]
    refine ofChars?_of_scanAtom (by decide) (by decide) ?_
    rw [scanAtom, if_pos rfl, scanPieces_flatMap_escape]
    simp only [Option.map_some, join_map_char, String.ofList_toList]

section Alphanumeric

variable (hc : c.isAlphanum = true)
include hc

theorem isSpace_of_isAlphanum : isSpace c = false := by
  simp only [isSpace, Bool.or_eq_false_iff, beq_eq_false_iff_ne]
  refine ⟨⟨⟨?_, ?_⟩, ?_⟩, ?_⟩
  all_goals
    rintro rfl
    exact absurd hc (by decide)

theorem punctuation?_of_isAlphanum : punctuation? c = none := by
  unfold punctuation?
  split
  all_goals first | rfl | exact absurd hc (by decide)

theorem ne_of_isAlphanum {d : Char} (hd : d.isAlphanum = false) : c ≠ d := by
  rintro rfl
  rw [hc] at hd
  exact absurd hd (by decide)

end Alphanumeric

theorem ends_cons (hc : c.isAlphanum = false) (hpoint : c ≠ '.') (rest : List Char) : Ends (c :: rest) := by
  intro d hd
  obtain rfl := Option.some.inj hd
  obtain ⟨halpha, hdigit⟩ := Bool.or_eq_false_iff.mp hc
  exact ⟨halpha, hdigit, hpoint⟩

/-- Brackets and separators end a number or a word. -/
theorem ends_of_punctuation {t : Token} (h : punctuation? c = some t) (rest : List Char) : Ends (c :: rest) := by
  refine ends_cons (Bool.eq_false_iff.mpr fun hc => ?_) ?_ rest
  · rw [punctuation?_of_isAlphanum hc] at h
    exact absurd h (by simp)
  · rintro rfl
    exact absurd h (by simp [punctuation?])

theorem isAlphanum_of_isDigit (hc : c.isDigit = true) : c.isAlphanum = true := by
  rw [Char.isAlphanum, hc, Bool.or_true]

theorem not_isAlpha_of_isDigit (hc : c.isDigit = true) : ¬ c.isAlpha = true := by
  intro halpha
  have hdigit : (decide ('0'.val ≤ c.val) && decide (c.val ≤ '9'.val)) = true := hc
  have hletter : (decide ('A'.val ≤ c.val ∧ c.val ≤ 'Z'.val) ||
      (decide ('a'.val ≤ c.val) && decide (c.val ≤ 'z'.val))) = true := halpha
  simp only [Bool.or_eq_true, Bool.and_eq_true, decide_eq_true_eq, UInt32.le_iff_toNat_le] at hdigit hletter
  have hnine : '9'.val.toNat = 57 := rfl
  have hupper : 'A'.val.toNat = 65 := rfl
  have hlower : 'a'.val.toNat = 97 := rfl
  omega

/-- A word is one token. -/
theorem ofChars?_word {word : List Char} {j : Json} (hword : word? (c :: word) = some j)
    (hletters : (c :: word).all Char.isAlpha = true) (hrest : Ends rest) :
    ofChars? (c :: word ++ rest) = (ofChars? rest).map (.atom j :: ·) := by
  obtain ⟨hfirst, hothers⟩ := List.forall_mem_cons.mp (List.all_eq_true.mp hletters)
  obtain ⟨htake, hdrop⟩ := takeWhile_append_of_head? hothers fun d hd => (hrest d hd).1
  have hc : c.isAlphanum = true := by rw [Char.isAlphanum, hfirst, Bool.true_or]
  refine ofChars?_of_scanAtom (isSpace_of_isAlphanum hc) (punctuation?_of_isAlphanum hc) ?_
  rw [scanAtom, if_neg (ne_of_isAlphanum hc rfl), if_pos hfirst, List.append_eq, htake, hdrop, hword]
  rfl

theorem scanAtom_of_isDigit (hc : c.isDigit = true) : scanAtom c cs = scanUnsigned false (c :: cs) := by
  have hc' := isAlphanum_of_isDigit hc
  rw [scanAtom, if_neg (ne_of_isAlphanum hc' rfl), if_neg (not_isAlpha_of_isDigit hc),
    if_neg (ne_of_isAlphanum hc' rfl), if_pos hc]

/-- An integer is one token. -/
theorem ofChars?_integer (n : Int) (hrest : Ends rest) :
    ofChars? ((toString n).toList ++ rest) = (ofChars? rest).map (.atom (.integer n) :: ·) := by
  cases n with
  | ofNat n =>
    have hdigits : (toString (Int.ofNat n)).toList = Nat.toDigits 10 n := Nat.toList_repr
    have hscan := scanUnsigned_toDigits false (n := n) (by simp) hrest
    rw [hdigits]
    cases hds : Nat.toDigits 10 n with
    | nil => exact absurd hds Nat.toDigits_ne_nil
    | cons d ds =>
      have hd : d.isDigit = true :=
        Nat.isDigit_of_mem_toDigits (by decide) (by decide) (hds ▸ List.mem_cons_self)
      rw [hds] at hscan
      have hd' := isAlphanum_of_isDigit hd
      exact ofChars?_of_scanAtom (isSpace_of_isAlphanum hd') (punctuation?_of_isAlphanum hd')
        ((scanAtom_of_isDigit hd).trans hscan)
  | negSucc n =>
    have hdigits : (toString (Int.negSucc n)).toList = '-' :: Nat.toDigits 10 (n + 1) := by
      show ("-" ++ Nat.repr (n + 1)).toList = _
      rw [String.toList_append, Nat.toList_repr]
      rfl
    have hscan := scanUnsigned_toDigits true (n := n + 1) (by simp) hrest
    rw [hdigits]
    exact ofChars?_of_scanAtom (by decide) (by decide) hscan

end Tokens

end FormConsole.Json.Token
