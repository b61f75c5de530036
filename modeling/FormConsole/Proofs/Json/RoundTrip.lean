import FormConsole.Json.Reader
import FormConsole.Json.Record
import FormConsole.Proofs.Json.Token

/-!
# Values that were written

A value without fractions reads back from either form in which it is written.  The written characters are cut into the
tokens of the value, and the tokens build the value up again, whatever arrays and objects are open around it.

* `Json.Plain`: every number is an integer.
* `Json.tokens`: the tokens of a value; `Json.scans_chars`, `Json.completes`: what is written is cut into them, and they
  build the value up.
* `Json.parse?_render`, `Json.parse?_renderRecord`: values that are written read back.
* `Json.fields?_record`, `Json.list?_map`: the parts of a written record or array.
-/

namespace FormConsole.Json

/-- Every number in the value is an integer. -/
inductive Plain : Json → Prop
  | null : Plain .null
  | bool (b : Bool) : Plain (.bool b)
  | integer (n : Int) : Plain (.integer n)
  | string (s : Option String) : Plain (.string s)
  | array {items : List Json} (h : ∀ j ∈ items, Plain j) : Plain (.array items)
  | object {members : List (Option String × Json)} (h : ∀ m ∈ members, Plain m.2) : Plain (.object members)

theorem Plain.text (s : String) : Plain (.text s) := .string (some s)

/-- An array of plain values is plain. -/
theorem Plain.map {α : Type} {write : α → Json} (h : ∀ x, Plain (write x)) (xs : List α) :
    Plain (.array (xs.map write)) := by
  refine .array fun j hj => ?_
  obtain ⟨x, -, rfl⟩ := List.mem_map.mp hj
  exact h x

theorem Plain.record {members : List (String × Json)} (h : ∀ m ∈ members, Plain m.2) :
    Plain (.record members) := by
  refine .object fun m hm => ?_
  obtain ⟨m, hmem, rfl⟩ := List.mem_map.mp hm
  exact h m hmem

/-! ## The tokens of a value -/

section Tokens

open Token (ofChars? Ends)

mutual

/-- The tokens of a value. -/
def tokens : Json → List Token
  | .array items => .leftBracket :: (itemTokens items ++ [.rightBracket])
  | .object members => .leftBrace :: (memberTokens members ++ [.rightBrace])
  | j => [.atom j]

/-- The tokens of the items of an array. -/
def itemTokens : List Json → List Token
  | [] => []
  | [j] => tokens j
  | j :: js => tokens j ++ .comma :: itemTokens js

/-- The tokens of the members of an object. -/
def memberTokens : List (Option String × Json) → List Token
  | [] => []
  | [(k, j)] => .atom (.string k) :: .colon :: tokens j
  | (k, j) :: ms => .atom (.string k) :: .colon :: (tokens j ++ .comma :: memberTokens ms)

end

/-- The characters are cut into the tokens, whatever follows, as long as no number or word goes on there. -/
def Scans (cs : List Char) (ts : List Token) : Prop :=
  ∀ rest, Ends rest → ofChars? (cs ++ rest) = (ofChars? rest).map (ts ++ ·)

variable {cs cs' : List Char} {ts ts' : List Token}

theorem Scans.comma (h : Scans cs ts) (h' : Scans cs' ts') :
    Scans (cs ++ ',' :: cs') (ts ++ .comma :: ts') := by
  intro rest hrest
  rw [List.append_assoc, List.cons_append, h _ (Token.ends_of_punctuation rfl _),
    Token.ofChars?_of_punctuation rfl, h' rest hrest]
  simp [Option.map_map, Function.comp_def]

theorem Scans.member (h : Scans cs ts) (k : Option String) :
    Scans (quote k ++ ':' :: cs) (.atom (.string k) :: .colon :: ts) := by
  intro rest hrest
  rw [List.append_assoc, List.cons_append, Token.ofChars?_quote, Token.ofChars?_of_punctuation rfl, h rest hrest]
  simp [Option.map_map, Function.comp_def]

theorem Scans.enclosed (h : Scans cs ts) (left right : Char) {t u : Token}
    (hleft : Token.punctuation? left = some t) (hright : Token.punctuation? right = some u) :
    Scans (left :: (cs ++ [right])) (t :: (ts ++ [u])) := by
  intro rest hrest
  rw [List.cons_append, List.append_assoc, List.singleton_append, Token.ofChars?_of_punctuation hleft,
    h _ (Token.ends_of_punctuation hright rest), Token.ofChars?_of_punctuation hright]
  simp [Option.map_map, Function.comp_def]

theorem Scans.space (h : Scans cs ts) {c : Char} (hspace : Token.isSpace c = true) : Scans (c :: cs) ts := by
  intro rest hrest
  rw [List.cons_append, Token.ofChars?_of_space hspace, h rest hrest]

/-- A line break ends whatever stands before it. -/
theorem Scans.line (h : Scans cs ts) : Scans (cs ++ ['\n']) ts := by
  intro rest _
  rw [List.append_assoc, List.singleton_append, h _ (Token.ends_cons (by decide) (by decide) rest),
    Token.ofChars?_of_space (by decide)]

theorem scans_itemChars {items : List Json} (h : ∀ j ∈ items, Scans (chars j) (tokens j)) :
    Scans (itemChars items) (itemTokens items) := by
  induction items with
  | nil =>
    intro rest _
    simp [itemChars, itemTokens]
  | cons j js ih =>
    cases js with
    | nil => exact h j List.mem_cons_self
    | cons k ks =>
      exact (h j List.mem_cons_self).comma (ih fun i hi => h i (List.mem_cons_of_mem j hi))

theorem scans_memberChars {members : List (Option String × Json)}
    (h : ∀ m ∈ members, Scans (chars m.2) (tokens m.2)) :
    Scans (memberChars members) (memberTokens members) := by
  induction members with
  | nil =>
    intro rest _
    simp [memberChars, memberTokens]
  | cons m ms ih =>
    obtain ⟨k, j⟩ := m
    have hj : Scans (chars j) (tokens j) := h (k, j) List.mem_cons_self
    cases ms with
    | nil => exact hj.member k
    | cons m' ms => exact (hj.comma (ih fun i hi => h i (List.mem_cons_of_mem _ hi))).member k

/-- What is written for a value is cut into its tokens. -/
theorem scans_chars {j : Json} (hj : Plain j) : Scans (chars j) (tokens j) := by
  induction hj with
  | null => exact fun rest hrest => Token.ofChars?_word rfl rfl hrest
  | bool b =>
    cases b
    · exact fun rest hrest => Token.ofChars?_word rfl rfl hrest
    · exact fun rest hrest => Token.ofChars?_word rfl rfl hrest
  | integer n => exact fun rest hrest => Token.ofChars?_integer n hrest
  | string s => exact fun rest _ => Token.ofChars?_quote s rest
  | array _ ih => exact (scans_itemChars ih).enclosed '[' ']' rfl rfl
  | object _ ih => exact (scans_memberChars ih).enclosed '\x7b' '\x7d' rfl rfl

/-- What is written for the members of an object, one line each, is cut into their tokens. -/
theorem scans_lines {members : List (String × Json)} (h : ∀ m ∈ members, Plain m.2) :
    Scans ((members.map lineChars).intersperse [',', '\n']).flatten
      (memberTokens (members.map fun m => (some m.1, m.2))) := by
  have hline : ∀ m : String × Json, Plain m.2 →
      Scans (lineChars m) (.atom (.string (some m.1)) :: .colon :: tokens m.2) := by
    intro m hm
    have hmember := ((scans_chars hm).space (c := ' ') (by decide)).member (some m.1)
    have hindented := (hmember.space (c := ' ') (by decide)).space (c := ' ') (by decide)
    simpa [lineChars] using hindented
  induction members with
  | nil =>
    intro rest _
    simp [memberTokens]
  | cons m ms ih =>
    have hm := hline m (h m List.mem_cons_self)
    cases ms with
    | nil => simpa [memberTokens] using hm
    | cons m' ms =>
      have hrest := ih fun i hi => h i (List.mem_cons_of_mem m hi)
      have hlines := hm.comma (hrest.space (c := '\n') (by decide))
      simpa [memberTokens, List.intersperse] using hlines

end Tokens

/-! ## Reading the tokens -/

section Readings

variable {j : Json} {items : List Json} {frames : List Frame}

/-- The tokens of the value complete it, whatever is open around it. -/
def Completes (j : Json) : Prop :=
  ∀ frames, (Reading.value frames).run (tokens j) = some (.complete j frames)

/-- A value may come first in an array. -/
theorem run_firstItem (j : Json) (ts : List Token) (frames : List Frame) :
    (Reading.firstItem frames).run (tokens j ++ ts) = (Reading.value (.array [] :: frames)).run (tokens j ++ ts) := by
  cases j <;> rfl

theorem run_value (hj : Completes j) (ts : List Token) (frames : List Frame) :
    (Reading.value frames).run (tokens j ++ ts) = (Reading.complete j frames).run ts := by
  rw [Reading.run_append, hj, Option.bind_some]

/-- The items of an array are added to those that it already holds. -/
theorem run_itemTokens (before : List Json) (hne : items ≠ []) (h : ∀ j ∈ items, Completes j) :
    (Reading.value (.array before :: frames)).run (itemTokens items ++ [.rightBracket]) =
      some (.complete (.array (before.reverse ++ items)) frames) := by
  induction items generalizing before with
  | nil => exact absurd rfl hne
  | cons j js ih =>
    have hj := h j List.mem_cons_self
    cases js with
    | nil =>
      rw [itemTokens, run_value hj]
      simp [Reading.step]
    | cons k ks =>
      have htokens : itemTokens (j :: k :: ks) ++ [.rightBracket] =
          tokens j ++ .comma :: (itemTokens (k :: ks) ++ [.rightBracket]) := by
        simp [itemTokens]
      rw [htokens, run_value hj, Reading.run_cons, Reading.step, Option.bind_some,
        ih (j :: before) (by simp) fun i hi => h i (List.mem_cons_of_mem j hi)]
      simp

theorem run_member (hj : Completes j) (k : Option String) (ts : List Token)
    (before : List (Option String × Json)) (frames : List Frame) :
    (Reading.name before frames).run (.atom (.string k) :: .colon :: (tokens j ++ ts)) =
      (Reading.complete j (.member before k :: frames)).run ts := by
  rw [Reading.run_cons, Reading.step, Option.bind_some, Reading.run_cons, Reading.step, Option.bind_some,
    run_value hj]

/-- The members of an object are added to those that it already holds. -/
theorem run_memberTokens {members : List (Option String × Json)} (before : List (Option String × Json))
    (hne : members ≠ [])
    (h : ∀ m ∈ members, Completes m.2) :
    (Reading.name before frames).run (memberTokens members ++ [.rightBrace]) =
      some (.complete (.object (before.reverse ++ members)) frames) := by
  induction members generalizing before with
  | nil => exact absurd rfl hne
  | cons m ms ih =>
    obtain ⟨k, j⟩ := m
    have hj : Completes j := h (k, j) List.mem_cons_self
    cases ms with
    | nil =>
      rw [memberTokens, List.cons_append, List.cons_append, run_member hj]
      simp [Reading.step]
    | cons m' ms =>
      have htokens : memberTokens ((k, j) :: m' :: ms) ++ [.rightBrace] =
          .atom (.string k) :: .colon :: (tokens j ++ .comma :: (memberTokens (m' :: ms) ++ [.rightBrace])) := by
        simp [memberTokens]
      rw [htokens, run_member hj, Reading.run_cons, Reading.step, Option.bind_some,
        ih ((k, j) :: before) (by simp) fun i hi => h i (List.mem_cons_of_mem _ hi)]
      simp

/-- The first name of an object is read like any other. -/
theorem run_firstName (k : Option String) (ts : List Token) (frames : List Frame) :
    (Reading.firstName frames).run (.atom (.string k) :: ts) = (Reading.name [] frames).run (.atom (.string k) :: ts) :=
  rfl

/-- The tokens of a value build it up again. -/
theorem completes (hj : Plain j) : Completes j := by
  induction hj with
  | @array items _ ih =>
    intro frames
    cases items with
    | nil => rfl
    | cons i is =>
      have hfirst : ∃ ts, itemTokens (i :: is) ++ [.rightBracket] = tokens i ++ ts := by
        cases is with
        | nil => exact ⟨_, rfl⟩
        | cons k ks => exact ⟨.comma :: (itemTokens (k :: ks) ++ [.rightBracket]), by simp [itemTokens]⟩
      obtain ⟨ts, hts⟩ := hfirst
      rw [tokens, Reading.run_cons, Reading.step, Reading.begin, Option.bind_some, hts, run_firstItem, ← hts]
      exact run_itemTokens [] (by simp) ih
  | @object members _ ih =>
    intro frames
    cases members with
    | nil => rfl
    | cons m ms =>
      have hfirst : ∃ ts, memberTokens (m :: ms) ++ [.rightBrace] = .atom (.string m.1) :: ts := by
        cases ms with
        | nil => exact ⟨_, rfl⟩
        | cons m' ms => exact ⟨_, rfl⟩
      obtain ⟨ts, hts⟩ := hfirst
      rw [tokens, Reading.run_cons, Reading.step, Reading.begin, Option.bind_some, hts, run_firstName, ← hts]
      exact run_memberTokens [] (by simp) ih
  | _ => exact fun frames => rfl

end Readings

/-! ## Texts -/

section Texts

open Token (Ends)

variable {j : Json} {members : List (String × Json)}

theorem parse?_of_scans {cs : List Char} (hscans : Scans cs (tokens j)) (hj : Plain j) :
    parse? (String.ofList cs) = some j := by
  have hscan := hscans [] (by simp [Ends])
  rw [List.append_nil] at hscan
  rw [parse?, Token.ofText?, String.toList_ofList, hscan, Token.ofChars?]
  simp only [Option.map_some, List.append_nil, Option.bind_eq_bind, Option.bind_some, completes hj [], Reading.result?]

/-- A value that is written without white space reads back. -/
theorem parse?_render (hj : Plain j) : parse? j.render = some j :=
  parse?_of_scans (scans_chars hj) hj

/-- An object that is written line by line reads back. -/
theorem parse?_renderRecord (h : ∀ m ∈ members, Plain m.2) :
    parse? (renderRecord members) = some (.record members) := by
  have hscans := ((scans_lines h).space (c := '\n') (by decide)).line.enclosed '\x7b' '\x7d' rfl rfl
  refine parse?_of_scans ?_ (.record h)
  simpa [record, tokens] using hscans

end Texts

/-! ## The parts of what is read -/

section Parts

variable {α β γ : Type}

theorem mapM_map_eq_some {read : β → Option γ} {write : α → β} {again : α → γ} {xs : List α}
    (h : ∀ x ∈ xs, read (write x) = some (again x)) : (xs.map write).mapM read = some (xs.map again) := by
  induction xs with
  | nil => rfl
  | cons x xs ih =>
    have hrest := ih fun y hy => h y (List.mem_cons_of_mem x hy)
    rw [List.map_cons, List.mapM_cons, h x List.mem_cons_self, hrest]
    rfl

theorem exists_of_mem_mapM {read : α → Option β} {xs : List α} {ys : List β} (h : xs.mapM read = some ys) :
    ∀ y ∈ ys, ∃ x ∈ xs, read x = some y := by
  induction xs generalizing ys with
  | nil =>
    obtain rfl := Option.some.inj h
    exact fun y hy => absurd hy List.not_mem_nil
  | cons x xs ih =>
    simp only [List.mapM_cons, Option.bind_eq_bind, Option.bind_eq_some_iff] at h
    obtain ⟨first, hfirst, others, hothers, heq⟩ := h
    obtain rfl := Option.some.inj heq
    intro y hy
    rcases List.mem_cons.mp hy with rfl | hy
    · exact ⟨x, List.mem_cons_self, hfirst⟩
    · obtain ⟨x', hx', hread⟩ := ih hothers y hy
      exact ⟨x', List.mem_cons_of_mem x hx', hread⟩

/-- An array is read item by item. -/
theorem list?_map {read : Json → Option γ} {write : α → Json} {again : α → γ} {xs : List α}
    (h : ∀ x ∈ xs, read (write x) = some (again x)) :
    list? read (.array (xs.map write)) = some (xs.map again) :=
  mapM_map_eq_some h

/-- What an array reads as was read from its items. -/
theorem exists_of_mem_list? {read : Json → Option β} {j : Json} {ys : List β} (h : list? read j = some ys)
    (y : β) (hy : y ∈ ys) : ∃ items, j = .array items ∧ ∃ item ∈ items, read item = some y := by
  unfold list? at h
  split at h
  · next items => exact ⟨items, rfl, exists_of_mem_mapM h y hy⟩
  · exact absurd h (by simp)

theorem map_eq_self_iff {f : α → α} {xs : List α} : xs.map f = xs ↔ ∀ x ∈ xs, f x = x := by
  constructor
  · intro h x hx
    exact List.map_inj_left.mp (h.trans (List.map_id xs).symm) x hx
  · intro h
    exact (List.map_congr_left h).trans (List.map_id xs)

/-- Among members of distinct names, each is the only one of its name. -/
theorem filter_name {members : List (String × Json)} (hnodup : (members.map (·.1)).Nodup)
    {m : String × Json} (hm : m ∈ members) : members.filter (fun n => n.1 == m.1) = [m] := by
  induction members with
  | nil => exact absurd hm List.not_mem_nil
  | cons n ns ih =>
    obtain ⟨hn, hns⟩ := List.nodup_cons.mp hnodup
    rcases List.mem_cons.mp hm with rfl | hm
    · have hnone : ns.filter (fun n => n.1 == m.1) = [] := by
        refine List.filter_eq_nil_iff.mpr fun n hmem heq => hn ?_
        exact List.mem_map.mpr ⟨n, hmem, by simpa using heq⟩
      rw [List.filter_cons_of_pos (by simp), hnone]
    · have hother : n.1 ≠ m.1 := fun heq => hn (List.mem_map.mpr ⟨m, hm, heq.symm⟩)
      rw [List.filter_cons_of_neg (by simpa using hother), ih hns hm]

theorem uniqueMember?_record {members : List (String × Json)} (hnodup : (members.map (·.1)).Nodup)
    {m : String × Json} (hm : m ∈ members) :
    uniqueMember? (members.map fun m => (some m.1, m.2)) m.1 = some (some m.2) := by
  have hfilter : (members.map fun m => (some m.1, m.2)).filter (fun n => n.1 == some m.1) = [(some m.1, m.2)] := by
    have hnames : ((fun n : Option String × Json => n.1 == some m.1) ∘ fun n : String × Json => (some n.1, n.2)) =
        fun n => n.1 == m.1 := by
      funext n
      simp
    rw [List.filter_map, hnames, filter_name hnodup hm, List.map_singleton]
  rw [uniqueMember?, hfilter]

/-- A record has what is written for each of its fields. -/
theorem fields?_record (members : List (String × Json)) (hnodup : (members.map (·.1)).Nodup) :
    fields? (members.map (·.1)) (.record members) = some (members.map fun m => some m.2) := by
  rw [record, fields?, if_pos (by simp)]
  exact mapM_map_eq_some fun m hm => uniqueMember?_record hnodup hm

end Parts

end FormConsole.Json
