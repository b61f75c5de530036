import Mathlib.Algebra.Ring.Parity
import Mathlib.Data.List.Dedup
import FormConsole.Value

/-!
# Toggling item by item

An item that is toggled is dropped where it stands, or added at the end.  So a list without repeated items stays one, and
toggling any items one after the other leaves what is never toggled in front, in its order, and behind it, in the order of
their last turns, those of the others that are there in the end: the ones that changed sides an odd number of times if they
were not there at first, an even number of times if they were.

* `Value.nodup_toggled`, `Value.mem_toggled_iff`: one turn.
* `Value.toggledAll`: any number of turns; `Value.mem_toggledAll_iff` by parity.
* `Value.asList_toggledAll`: the list after them, with its order; `Value.toggledAll_list` is what that comes to.
-/

namespace FormConsole

namespace Value

variable {v : Value} {item x : String} {items : List String}

/-! ## One turn -/

section Turn

theorem asList_toggled_of_mem (h : item ∈ v.asList) : (v.toggled item).asList = v.asList.erase item :=
  if_pos h

theorem asList_toggled_of_not_mem (h : item ∉ v.asList) : (v.toggled item).asList = v.asList ++ [item] :=
  if_neg h

theorem nodup_toggled (hv : v.asList.Nodup) (item : String) : (v.toggled item).asList.Nodup := by
  by_cases h : item ∈ v.asList
  · rw [asList_toggled_of_mem h]
    exact hv.erase item
  · rw [asList_toggled_of_not_mem h, ← List.concat_eq_append]
    exact hv.concat h

/-- The item changes sides, and no other one does. -/
theorem mem_toggled_iff (hv : v.asList.Nodup) : x ∈ (v.toggled item).asList ↔ Xor (x ∈ v.asList) (x = item) := by
  by_cases h : item ∈ v.asList
  · rw [asList_toggled_of_mem h, hv.mem_erase_iff]
    constructor
    · rintro ⟨hne, hx⟩
      exact Or.inl ⟨hx, hne⟩
    · rintro (⟨hx, hne⟩ | ⟨rfl, hnot⟩)
      · exact ⟨hne, hx⟩
      · exact absurd h hnot
  · rw [asList_toggled_of_not_mem h, List.mem_append, List.mem_singleton]
    constructor
    · rintro (hx | rfl)
      · exact Or.inl ⟨hx, fun heq => h (heq ▸ hx)⟩
      · exact Or.inr ⟨rfl, h⟩
    · rintro (⟨hx, -⟩ | ⟨heq, -⟩)
      · exact Or.inl hx
      · exact Or.inr heq

end Turn

/-! ## Any number of turns -/

section Turns

/-- The value after items are toggled one after the other. -/
def toggledAll (v : Value) (items : List String) : Value :=
  items.foldl toggled v

@[simp] theorem toggledAll_nil (v : Value) : v.toggledAll [] = v := rfl

@[simp] theorem toggledAll_cons (v : Value) (item : String) (items : List String) :
    v.toggledAll (item :: items) = (v.toggled item).toggledAll items := rfl

theorem nodup_toggledAll (hv : v.asList.Nodup) (items : List String) : (v.toggledAll items).asList.Nodup := by
  induction items generalizing v with
  | nil => exact hv
  | cons item items ih => exact ih (nodup_toggled hv item)

/-- An item changes sides with each of its turns. -/
theorem mem_toggledAll_iff (hv : v.asList.Nodup) (items : List String) :
    x ∈ (v.toggledAll items).asList ↔ Xor (x ∈ v.asList) (Odd (items.count x)) := by
  induction items generalizing v with
  | nil => simp [xor_iff_iff_not]
  | cons item items ih =>
    rw [toggledAll_cons, ih (nodup_toggled hv item), mem_toggled_iff hv]
    by_cases hx : x = item
    · subst hx
      rw [List.count_cons_self, Nat.odd_add_one]
      by_cases hmem : x ∈ v.asList <;> simp [hmem]
    · rw [List.count_cons_of_ne (Ne.symm hx)]
      simp [xor_iff_iff_not, hx]

/-- Whether an item has a turn makes no difference to a list without it, nor if it has another one. -/
theorem filter_not_mem_cons {l : List String} (h : item ∈ items ∨ item ∉ l) :
    l.filter (· ∉ item :: items) = l.filter (· ∉ items) := by
  refine List.filter_congr fun x hx => ?_
  by_cases heq : x = item
  · subst heq
    simp [h.resolve_right (not_not_intro hx)]
  · simp [heq]

/-- The items without a turn stay as they are. -/
theorem filter_toggled_cons (v : Value) (item : String) (items : List String) :
    (v.toggled item).asList.filter (· ∉ item :: items) = v.asList.filter (· ∉ item :: items) := by
  have hthrough : ∀ l : List String, l.filter (· ∉ item :: items) = (l.filter (· != item)).filter (· ∉ items) := by
    intro l
    rw [List.filter_filter]
    refine List.filter_congr fun x _ => ?_
    by_cases hx : x = item <;> simp [hx]
  rw [hthrough, filter_toggled, ← hthrough]

/-- What is never toggled, as it stood, and then what is toggled and there in the end, in the order of the last turns. -/
theorem asList_toggledAll (hv : v.asList.Nodup) (items : List String) : (v.toggledAll items).asList =
    v.asList.filter (· ∉ items) ++ items.dedup.filter (· ∈ (v.toggledAll items).asList) := by
  induction items generalizing v with
  | nil => simp
  | cons item items ih =>
    have hlast : item ∉ items → (item ∈ (v.toggledAll (item :: items)).asList ↔ item ∉ v.asList) := by
      intro honce
      rw [mem_toggledAll_iff hv, List.count_cons_self, List.count_eq_zero_of_not_mem honce]
      simp [xor_iff_iff_not]
    rw [toggledAll_cons] at hlast ⊢
    refine (ih (nodup_toggled hv item)).trans ?_
    by_cases hagain : item ∈ items
    · rw [List.dedup_cons_of_mem hagain, ← filter_toggled_cons, filter_not_mem_cons (Or.inl hagain)]
    · rw [List.dedup_cons_of_notMem hagain]
      by_cases hmem : item ∈ v.asList
      · have hdropped : item ∉ (v.toggled item).asList := by simp [mem_toggled_iff hv, hmem]
        rw [List.filter_cons_of_neg (by simp [hlast hagain, hmem]), ← filter_toggled_cons,
          filter_not_mem_cons (Or.inr hdropped)]
      · rw [List.filter_cons_of_pos (by simp [hlast hagain, hmem]), filter_not_mem_cons (Or.inr hmem),
          asList_toggled_of_not_mem hmem, List.filter_append, List.append_assoc]
        simp [hagain]

/-- Lists stay lists. -/
theorem toggledAll_list_eq (start items : List String) :
    (Value.list start).toggledAll items = .list ((Value.list start).toggledAll items).asList := by
  induction items generalizing start with
  | nil => rfl
  | cons item items ih => exact ih _

/-- However often items of a list without repeated ones are toggled, a list without repeated items is left.  An item is in
it exactly if it was there at first or was toggled an odd number of times, and not both; what was never toggled keeps its
order; and nothing of that stands behind an item that was toggled. -/
theorem toggledAll_list {start : List String} (hstart : start.Nodup) (items : List String) :
    ∃ left, (Value.list start).toggledAll items = .list left ∧ left.Nodup ∧
      (∀ x, x ∈ left ↔ Xor (x ∈ start) (Odd (items.count x))) ∧
      left.filter (· ∉ items) = start.filter (· ∉ items) ∧
      left.Pairwise fun x y => x ∈ items → y ∈ items := by
  have hv : (Value.list start).asList.Nodup := hstart
  have hleft := asList_toggledAll hv items
  have hfront : ∀ x ∈ (Value.list start).asList.filter (· ∉ items), x ∉ items :=
    fun x hx => of_decide_eq_true (List.mem_filter.mp hx).2
  have hback : ∀ x ∈ items.dedup.filter (· ∈ ((Value.list start).toggledAll items).asList), x ∈ items :=
    fun x hx => List.mem_dedup.mp (List.mem_filter.mp hx).1
  refine ⟨_, toggledAll_list_eq start items, nodup_toggledAll hv items, fun x => mem_toggledAll_iff hv items, ?_, ?_⟩
  · have hnone : (items.dedup.filter (· ∈ ((Value.list start).toggledAll items).asList)).filter (· ∉ items) = [] :=
      List.filter_eq_nil_iff.mpr fun x hx => by simpa using hback x hx
    rw [hleft, List.filter_append, hnone, List.append_nil]
    exact List.filter_eq_self.mpr fun x hx => decide_eq_true (hfront x hx)
  · rw [hleft]
    refine List.pairwise_append.mpr ⟨?_, ?_, fun x _ y hy _ => hback y hy⟩
    · exact List.pairwise_of_forall_mem_list fun x hx y _ hturn => absurd hturn (hfront x hx)
    · exact List.pairwise_of_forall_mem_list fun x _ y hy _ => hback y hy

/-- Two slaves of three are dropped and one of them is taken back, behind a new one. -/
theorem toggledAll_list_slaves : ["eth1", "eth2", "eth3"].Nodup ∧
    (Value.list ["eth1", "eth2", "eth3"]).toggledAll ["eth1", "eth4", "eth2", "eth1"] =
      .list ["eth3", "eth4", "eth1"] ∧
    ["eth3", "eth4", "eth1"].Pairwise fun x y =>
      x ∈ ["eth1", "eth4", "eth2", "eth1"] → y ∈ ["eth1", "eth4", "eth2", "eth1"] := by
  have hstart : ["eth1", "eth2", "eth3"].Nodup := by decide
  have hslaves : (Value.list ["eth1", "eth2", "eth3"]).toggledAll ["eth1", "eth4", "eth2", "eth1"] =
      .list ["eth3", "eth4", "eth1"] := by
    decide
  obtain ⟨left, hleft, -, -, -, horder⟩ := toggledAll_list hstart ["eth1", "eth4", "eth2", "eth1"]
  obtain rfl := Value.list.inj (hslaves.symm.trans hleft)
  exact ⟨hstart, hslaves, horder⟩

end Turns

end Value

end FormConsole
