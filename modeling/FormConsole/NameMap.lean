/-!
# Names in order

Lists of names in increasing order without repetition, and maps from names to values kept in the same order.
Names are compared character by character, by code point.

* `Names.insert`, `Names.ofList`: the ordered list of the names in a list; `Names.mem_ofList`.
* `NameMap`: a map as the list of its entries; `NameMap.get?_insert`, `NameMap.get?_ofList_of_mem`.
-/

namespace FormConsole

/-! ## Ordered lists of names -/

namespace Names

/-- Puts a name in its place, unless it is there already. -/
def insert (name : String) : List String → List String
  | [] => [name]
  | n :: ns =>
    if name = n then n :: ns
    else if name < n then name :: n :: ns
    else n :: insert name ns

/-- The names of a list, in order and without repetition. -/
def ofList (names : List String) : List String :=
  names.foldr insert []

@[simp] theorem ofList_nil : ofList [] = [] := rfl

@[simp] theorem ofList_cons (name : String) (names : List String) :
    ofList (name :: names) = insert name (ofList names) := rfl

@[simp] theorem mem_insert {m name : String} {ns : List String} :
    m ∈ insert name ns ↔ m = name ∨ m ∈ ns := by
  induction ns with
  | nil => simp [insert]
  | cons n ns ih =>
    unfold insert
    split
    · next h => subst h; simp
    · split
      · simp
      · simp only [List.mem_cons, ih]
        constructor
        · rintro (h | h | h) <;> simp [h]
        · rintro (h | h | h) <;> simp [h]

theorem mem_ofList {m : String} {names : List String} : m ∈ ofList names ↔ m ∈ names := by
  induction names with
  | nil => simp
  | cons n ns ih => simp [ih]

end Names

/-! ## Maps from names -/

/-- A map from names to values: its entries, in the order of their names. -/
structure NameMap (α : Type) where
  /-- The entries, one for each name. -/
  entries : List (String × α)
  deriving DecidableEq

namespace NameMap

variable {α : Type}

/-- The map without entries. -/
def empty : NameMap α := ⟨[]⟩

instance : Inhabited (NameMap α) := ⟨empty⟩

/-- The names that have a value, in order. -/
def names (m : NameMap α) : List String :=
  m.entries.map (·.1)

/-- The value of a name. -/
def get? (m : NameMap α) (name : String) : Option α :=
  (m.entries.find? fun e => e.1 == name).map (·.2)

/-- Puts an entry in its place; one of the same name gives way. -/
def insertEntry (name : String) (value : α) : List (String × α) → List (String × α)
  | [] => [(name, value)]
  | e :: es =>
    if name = e.1 then (name, value) :: es
    else if name < e.1 then (name, value) :: e :: es
    else e :: insertEntry name value es

/-- Gives a name a value, in place of the one it has. -/
def insert (m : NameMap α) (name : String) (value : α) : NameMap α :=
  ⟨insertEntry name value m.entries⟩

/-- The map of a list of entries, in which the last entry of a name counts. -/
def ofList (entries : List (String × α)) : NameMap α :=
  entries.foldl (fun m e => m.insert e.1 e.2) empty

theorem find?_insertEntry (name other : String) (value : α) (es : List (String × α)) :
    ((insertEntry name value es).find? fun e => e.1 == other).map (·.2) =
      if name = other then some value else (es.find? fun e => e.1 == other).map (·.2) := by
  induction es with
  | nil => by_cases h : name = other <;> simp [insertEntry, h]
  | cons e es ih =>
    unfold insertEntry
    by_cases h : name = other
    · subst h
      split
      · simp
      · next hne =>
        split
        · simp
        · rw [List.find?_cons_of_neg (by simpa using fun h => hne h.symm), ih]
          simp
    · split
      · next heq =>
        subst heq
        simp [List.find?_cons_of_neg, h]
      · split
        · simp [List.find?_cons_of_neg, h]
        · by_cases he : e.1 = other
          · simp [List.find?_cons_of_pos, he]
          · rw [List.find?_cons_of_neg (by simpa using he),
              List.find?_cons_of_neg (by simpa using he), ih]
            simp [h]

/-- A name that was given a value has it, and every other name keeps its own. -/
theorem get?_insert (m : NameMap α) (name other : String) (value : α) :
    (m.insert name value).get? other = if name = other then some value else m.get? other :=
  find?_insertEntry name other value m.entries

/-- Entries of other names leave the value of a name alone. -/
theorem get?_foldl_insert_of_not_mem {entries : List (String × α)} {name : String}
    (h : name ∉ entries.map (·.1)) (m : NameMap α) :
    (entries.foldl (fun m e => m.insert e.1 e.2) m).get? name = m.get? name := by
  induction entries generalizing m with
  | nil => rfl
  | cons e es ih =>
    rw [List.map_cons, List.mem_cons, not_or] at h
    rw [List.foldl_cons, ih h.2, get?_insert, if_neg fun he => h.1 he.symm]

/-- If no name has two entries, every entry counts. -/
theorem get?_ofList_of_mem {entries : List (String × α)} (hnodup : (entries.map (·.1)).Nodup)
    {e : String × α} (he : e ∈ entries) : (ofList entries).get? e.1 = some e.2 := by
  unfold ofList
  generalize empty = m
  induction entries generalizing m with
  | nil => exact absurd he List.not_mem_nil
  | cons d es ih =>
    rw [List.map_cons, List.nodup_cons] at hnodup
    rw [List.foldl_cons]
    rcases List.mem_cons.mp he with rfl | he
    · rw [get?_foldl_insert_of_not_mem hnodup.1, get?_insert, if_pos rfl]
    · exact ih hnodup.2 he _

end NameMap

end FormConsole
