import FormConsole.Json.Basic
import FormConsole.Text.Hex

/-!
# JSON tokens

A JSON text is cut into tokens: punctuation, and atoms (the values without parts).  White space between tokens is
space, tab, line feed and carriage return only.

* `Token.scanPieces`, `Token.join`: the inside of a string, first as characters and surrogates, then as a text.
* `Token.scanUnsigned`: a number after its sign, up to the first character that cannot continue it.
* `Token.ofText?`: the tokens of a text, or `none` if it is no sequence of tokens.
-/

namespace FormConsole.Json

/-- A token: a bracket, a separator, or a value without parts. -/
inductive Token where
  | leftBrace
  | rightBrace
  | leftBracket
  | rightBracket
  | comma
  | colon
  | atom (value : Json)

namespace Token

/-! ## Strings -/

section Strings

/-- One unit of the inside of a string: a character, or an escaped surrogate that has no partner yet. -/
inductive Piece where
  | char (c : Char)
  | surrogate (n : Nat)

/-- The unit that an escaped code stands for. -/
def Piece.ofCode (n : Nat) : Piece :=
  if 0xD800 ≤ n ∧ n ≤ 0xDFFF then .surrogate n else .char (Char.ofNat n)

/-- The character that a backslash and one more character stand for. -/
def simpleEscape? : Char → Option Char
  | '"' => some '"'
  | '\\' => some '\\'
  | '/' => some '/'
  | 'b' => some '\x08'
  | 'f' => some '\x0c'
  | 'n' => some '\n'
  | 'r' => some '\r'
  | 't' => some '\t'
  | _ => none

/-- The units up to the closing quote and what follows it.  A control character must be escaped. -/
def scanPieces : List Char → Option (List Piece × List Char)
  | [] => none
  | '"' :: rest => some ([], rest)
  | '\\' :: 'u' :: a :: b :: c :: d :: rest =>
    match Text.hexNumber? [a, b, c, d] with
    | none => none
    | some n => (scanPieces rest).map fun r => (Piece.ofCode n :: r.1, r.2)
  | '\\' :: e :: rest =>
    match simpleEscape? e with
    | none => none
    | some c => (scanPieces rest).map fun r => (Piece.char c :: r.1, r.2)
  | c :: rest =>
    if c.toNat < 0x20 then none
    else (scanPieces rest).map fun r => (Piece.char c :: r.1, r.2)

/-- The characters of the units; a high surrogate and the low one after it are one character, and any other
surrogate leaves no text. -/
def join : List Piece → Option (List Char)
  | [] => some []
  | .char c :: rest => (join rest).map (c :: ·)
  | .surrogate high :: .surrogate low :: rest =>
    if high ≤ 0xDBFF ∧ 0xDC00 ≤ low then
      (join rest).map (Char.ofNat (0x10000 + (high - 0xD800) * 0x400 + (low - 0xDC00)) :: ·)
    else none
  | .surrogate _ :: _ => none

theorem length_of_scanPieces {cs rest : List Char} {ps : List Piece}
    (h : scanPieces cs = some (ps, rest)) : rest.length < cs.length := by
  fun_induction scanPieces cs generalizing ps rest with
  | case1 => simp at h
  | case2 r =>
    obtain ⟨-, rfl⟩ := by simpa using h
    simp
  | case3 => simp at h
  | case4 a b c d r n _ ih =>
    obtain ⟨⟨p, q⟩, hr, heq⟩ := Option.map_eq_some_iff.mp h
    obtain ⟨-, rfl⟩ := by simpa using heq
    have := ih hr
    simp only [List.length_cons]
    omega
  | case5 => simp at h
  | case6 e r c _ _ ih =>
    obtain ⟨⟨p, q⟩, hr, heq⟩ := Option.map_eq_some_iff.mp h
    obtain ⟨-, rfl⟩ := by simpa using heq
    have := ih hr
    simp only [List.length_cons]
    omega
  | case7 => simp at h
  | case8 c r _ _ _ _ ih =>
    obtain ⟨⟨p, q⟩, hr, heq⟩ := Option.map_eq_some_iff.mp h
    obtain ⟨-, rfl⟩ := by simpa using heq
    have := ih hr
    simp only [List.length_cons]
    omega

end Strings

/-! ## Numbers -/

section Numbers

/-- The number that decimal digits write. -/
def natValue (digits : List Char) : Nat :=
  digits.foldl (fun n c => n * 10 + (c.toNat - '0'.toNat)) 0

/-- A run of digits, at least one, and what follows it. -/
def scanDigits (cs : List Char) : Option (List Char × List Char) :=
  match cs.takeWhile Char.isDigit with
  | [] => none
  | d :: ds => some (d :: ds, cs.dropWhile Char.isDigit)

/-- The digits before a fraction: a zero in front is the only digit. -/
def scanWhole (cs : List Char) : Option (List Char × List Char) :=
  match scanDigits cs with
  | some ('0' :: _ :: _, _) => none
  | r => r

/-- A fraction, its point included, if there is one. -/
def scanFraction : List Char → Option (List Char × List Char)
  | '.' :: cs => (scanDigits cs).map fun r => ('.' :: r.1, r.2)
  | cs => some ([], cs)

/-- An exponent, its mark and sign included, if there is one. -/
def scanExponent : List Char → Option (List Char × List Char)
  | [] => some ([], [])
  | e :: cs =>
    if e = 'e' ∨ e = 'E' then
      match cs with
      | '+' :: ds => (scanDigits ds).map fun r => (e :: '+' :: r.1, r.2)
      | '-' :: ds => (scanDigits ds).map fun r => (e :: '-' :: r.1, r.2)
      | ds => (scanDigits ds).map fun r => (e :: r.1, r.2)
    else some ([], e :: cs)

/-- The value of a number with that sign, whole part, fraction and exponent. -/
def numberValue (negative : Bool) (whole fraction exponent : List Char) : Json :=
  let n := natValue whole
  if fraction.isEmpty && exponent.isEmpty && !(negative && n == 0) then
    .integer (if negative then -(n : Int) else n)
  else
    .real (String.ofList ((if negative then ['-'] else []) ++ whole ++ fraction ++ exponent))

/-- The number after its sign, and what follows it. -/
def scanUnsigned (negative : Bool) (cs : List Char) : Option (Json × List Char) := do
  let (whole, cs) ← scanWhole cs
  let (fraction, cs) ← scanFraction cs
  let (exponent, cs) ← scanExponent cs
  pure (numberValue negative whole fraction exponent, cs)

theorem length_of_scanDigits {cs ds rest : List Char} (h : scanDigits cs = some (ds, rest)) :
    rest.length < cs.length := by
  unfold scanDigits at h
  split at h
  · simp at h
  · next d ds' htake =>
    obtain ⟨-, rfl⟩ := by simpa using h
    have := congrArg List.length (List.takeWhile_append_dropWhile (p := Char.isDigit) (l := cs))
    rw [htake] at this
    simp only [List.cons_append, List.length_cons, List.length_append] at this
    omega

theorem length_of_scanWhole {cs ds rest : List Char} (h : scanWhole cs = some (ds, rest)) :
    rest.length < cs.length := by
  unfold scanWhole at h
  split at h
  · simp at h
  · exact length_of_scanDigits h

theorem length_of_scanDigits_map {f : List Char → List Char} {cs ds rest : List Char}
    (h : (scanDigits cs).map (fun r => (f r.1, r.2)) = some (ds, rest)) :
    rest.length ≤ cs.length := by
  obtain ⟨⟨p, q⟩, hr, heq⟩ := Option.map_eq_some_iff.mp h
  obtain ⟨-, rfl⟩ := by simpa using heq
  exact Nat.le_of_lt (length_of_scanDigits hr)

theorem length_of_scanFraction {cs ds rest : List Char} (h : scanFraction cs = some (ds, rest)) :
    rest.length ≤ cs.length := by
  unfold scanFraction at h
  split at h
  · have := length_of_scanDigits_map (f := fun r => '.' :: r) h
    simp only [List.length_cons]
    omega
  · obtain ⟨-, rfl⟩ := by simpa using h
    exact Nat.le_refl _

theorem length_of_scanExponent {cs ds rest : List Char} (h : scanExponent cs = some (ds, rest)) :
    rest.length ≤ cs.length := by
  unfold scanExponent at h
  split at h
  · obtain ⟨-, rfl⟩ := by simpa using h
    exact Nat.le_refl _
  · next e cs =>
    split at h
    · split at h
      · have := length_of_scanDigits_map (f := fun r => e :: '+' :: r) h
        simp only [List.length_cons]
        omega
      · have := length_of_scanDigits_map (f := fun r => e :: '-' :: r) h
        simp only [List.length_cons]
        omega
      · have := length_of_scanDigits_map (f := fun r => e :: r) h
        simp only [List.length_cons]
        omega
    · obtain ⟨-, rfl⟩ := by simpa using h
      exact Nat.le_refl _

theorem length_of_scanUnsigned {negative : Bool} {cs rest : List Char} {j : Json}
    (h : scanUnsigned negative cs = some (j, rest)) : rest.length < cs.length := by
  simp only [scanUnsigned, Option.bind_eq_bind, Option.pure_def, Option.bind_eq_some_iff] at h
  obtain ⟨⟨w, c1⟩, h1, ⟨f, c2⟩, h2, ⟨e, c3⟩, h3, heq⟩ := h
  obtain ⟨-, rfl⟩ := by simpa using heq
  have h1 := length_of_scanWhole h1
  have h2 := length_of_scanFraction h2
  have h3 := length_of_scanExponent h3
  simp only at h1 h2 h3
  omega

end Numbers

/-! ## Tokens -/

section Tokens

/-- White space between tokens. -/
def isSpace (c : Char) : Bool :=
  c == ' ' || c == '\t' || c == '\n' || c == '\r'

/-- The atom that a word names. -/
def word? : List Char → Option Json
  | ['t', 'r', 'u', 'e'] => some (.bool true)
  | ['f', 'a', 'l', 's', 'e'] => some (.bool false)
  | ['n', 'u', 'l', 'l'] => some .null
  | _ => none

/-- The bracket or separator that a character is. -/
def punctuation? : Char → Option Token
  | '{' => some .leftBrace
  | '}' => some .rightBrace
  | '[' => some .leftBracket
  | ']' => some .rightBracket
  | ',' => some .comma
  | ':' => some .colon
  | _ => none

/-- The atom that starts with the character `c`, and what follows it.  What may follow is checked by the
reader of the tokens: no two atoms stand side by side. -/
def scanAtom (c : Char) (cs : List Char) : Option (Json × List Char) :=
  if c = '"' then
    (scanPieces cs).map fun r => (.string ((join r.1).map String.ofList), r.2)
  else if c.isAlpha then
    (word? (c :: cs.takeWhile Char.isAlpha)).map fun j => (j, cs.dropWhile Char.isAlpha)
  else if c = '-' then scanUnsigned true cs
  else if c.isDigit then scanUnsigned false (c :: cs)
  else none

/-- The token that starts with the character `c`, and what follows it. -/
def scan (c : Char) (cs : List Char) : Option (Token × List Char) :=
  match punctuation? c with
  | some t => some (t, cs)
  | none => (scanAtom c cs).map fun r => (.atom r.1, r.2)

theorem length_of_scanAtom {c : Char} {cs rest : List Char} {j : Json}
    (h : scanAtom c cs = some (j, rest)) : rest.length ≤ cs.length := by
  unfold scanAtom at h
  split at h
  · obtain ⟨⟨p, q⟩, hr, heq⟩ := Option.map_eq_some_iff.mp h
    obtain ⟨-, rfl⟩ := by simpa using heq
    exact Nat.le_of_lt (length_of_scanPieces hr)
  · split at h
    · obtain ⟨k, -, heq⟩ := Option.map_eq_some_iff.mp h
      obtain ⟨-, rfl⟩ := by simpa using heq
      exact (List.dropWhile_sublist _).length_le
    · split at h
      · exact Nat.le_of_lt (length_of_scanUnsigned h)
      · split at h
        · exact Nat.le_of_lt_succ (length_of_scanUnsigned h)
        · simp at h

theorem length_of_scan {c : Char} {cs rest : List Char} {t : Token}
    (h : scan c cs = some (t, rest)) : rest.length ≤ cs.length := by
  unfold scan at h
  split at h
  · obtain ⟨-, rfl⟩ := by simpa using h
    exact Nat.le_refl _
  · obtain ⟨⟨p, q⟩, hr, heq⟩ := Option.map_eq_some_iff.mp h
    obtain ⟨-, rfl⟩ := by simpa using heq
    exact length_of_scanAtom hr

/-- The tokens of a list of characters. -/
def ofChars? : List Char → Option (List Token)
  | [] => some []
  | c :: cs =>
    if isSpace c then ofChars? cs
    else
      match h : scan c cs with
      | none => none
      | some (t, rest) =>
        have : rest.length < (c :: cs).length := Nat.lt_succ_of_le (length_of_scan h)
        (ofChars? rest).map (t :: ·)
termination_by cs => cs.length
decreasing_by
  · exact Nat.lt_succ_self _
  · exact this

/-- The tokens of a text. -/
def ofText? (s : String) : Option (List Token) :=
  ofChars? s.toList

end Tokens

end Token

end FormConsole.Json
