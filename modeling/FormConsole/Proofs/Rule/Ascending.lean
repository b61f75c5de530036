import FormConsole.Rule.Conflict
import Mathlib.Data.List.Perm.Basic
import Mathlib.Data.String.Basic

/-!
# Names and claims in order

Names are put in order without repetition, and so are claims, by their fields and then by their properties.
There is one way to do it: lists in order are known by their members.

* `Names.pairwise_ofList`: the names of a list, in order, increase.
* `Claim.Ascending`: each claim precedes all that follow it; `Claim.ascending_sorted`.
* `Claim.sorted_congr`: claims in order depend on their membership only.
-/

namespace FormConsole

/-! ## Names in order -/

namespace Names

section Sorted

variable {ns : List String}

theorem pairwise_insert (h : ns.Pairwise (· < ·)) (name : String) :
    (insert name ns).Pairwise (· < ·) := by
  induction ns with
  | nil => exact List.pairwise_singleton _ name
  | cons n ns ih =>
    obtain ⟨hn, hns⟩ := List.pairwise_cons.mp h
    rw [insert]
    split
    · exact h
    · next hne =>
      split
      · next hlt =>
        refine List.pairwise_cons.mpr ⟨fun m hm => ?_, h⟩
        rcases List.mem_cons.mp hm with rfl | hm
        · exact hlt
        · exact lt_trans hlt (hn m hm)
      · next hge =>
        have hlt : n < name := lt_of_le_of_ne (not_lt.mp hge) fun heq => hne heq.symm
        refine List.pairwise_cons.mpr ⟨fun m hm => ?_, ih hns⟩
        rcases mem_insert.mp hm with rfl | hm
        · exact hlt
        · exact hn m hm

theorem pairwise_ofList (names : List String) : (ofList names).Pairwise (· < ·) := by
  induction names with
  | nil => exact List.Pairwise.nil
  | cons n names ih => exact pairwise_insert ih n

end Sorted

end Names

/-! ## Claims in order -/

namespace Claim

section Sorted

variable {b c d : Claim} {cs ds : List Claim}

theorem precedes_iff : c.precedes d = true ↔
    c.field < d.field ∨ c.field = d.field ∧ c.property.rank < d.property.rank := by
  simp [precedes]

theorem not_precedes_self (c : Claim) : ¬ c.precedes c = true := by
  rw [precedes_iff]
  rintro (h | ⟨-, h⟩)
  · exact lt_irrefl _ h
  · exact lt_irrefl _ h

theorem precedes_trans (h : b.precedes c = true) (h' : c.precedes d = true) :
    b.precedes d = true := by
  rw [precedes_iff] at h h' ⊢
  rcases h with h | ⟨heq, h⟩
  · rcases h' with h' | ⟨heq', -⟩
    · exact Or.inl (lt_trans h h')
    · rw [← heq']
      exact Or.inl h
  · rw [heq]
    rcases h' with h' | ⟨heq', h'⟩
    · exact Or.inl h'
    · exact Or.inr ⟨heq', lt_trans h h'⟩

/-- Of two claims, one precedes the other. -/
theorem precedes_or_precedes (h : c ≠ d) : c.precedes d = true ∨ d.precedes c = true := by
  obtain ⟨field, p⟩ := c
  obtain ⟨field', p'⟩ := d
  simp only [precedes_iff]
  rcases lt_trichotomy field field' with hlt | heq | hlt
  · exact Or.inl (Or.inl hlt)
  · subst heq
    cases p <;> cases p' <;> simp_all [Property.rank]
  · exact Or.inr (Or.inl hlt)

/-- Each claim precedes all that follow it. -/
def Ascending (cs : List Claim) : Prop :=
  cs.Pairwise fun c d => c.precedes d = true

theorem ascending_insert (h : Ascending ds) (c : Claim) : Ascending (insert c ds) := by
  induction ds with
  | nil => exact List.pairwise_singleton _ c
  | cons d ds ih =>
    obtain ⟨hd, hds⟩ := List.pairwise_cons.mp h
    rw [insert]
    split
    · exact h
    · next hne =>
      split
      · next hcd =>
        refine List.pairwise_cons.mpr ⟨fun e he => ?_, h⟩
        rcases List.mem_cons.mp he with rfl | he
        · exact hcd
        · exact precedes_trans hcd (hd e he)
      · next hcd =>
        have hdc : d.precedes c = true := (precedes_or_precedes hne).resolve_left hcd
        refine List.pairwise_cons.mpr ⟨fun e he => ?_, ih hds⟩
        rcases mem_insert.mp he with rfl | he
        · exact hdc
        · exact hd e he

theorem ascending_sorted (cs : List Claim) : Ascending (sorted cs) := by
  induction cs with
  | nil => exact List.Pairwise.nil
  | cons c cs ih => exact ascending_insert ih c

theorem Ascending.nodup (h : Ascending cs) : cs.Nodup := by
  refine h.imp ?_
  rintro c d hcd rfl
  exact not_precedes_self c hcd

/-- There is one way to put claims in order. -/
theorem Ascending.eq_of_mem_iff (hc : Ascending cs) (hd : Ascending ds)
    (h : ∀ b, b ∈ cs ↔ b ∈ ds) : cs = ds := by
  have hperm : cs.Perm ds := (List.perm_ext_iff_of_nodup hc.nodup hd.nodup).mpr h
  refine List.Perm.eq_of_pairwise ?_ hc hd hperm
  intro b c _ _ hbc hcb
  exact absurd (precedes_trans hbc hcb) (not_precedes_self b)

theorem sorted_congr (h : ∀ b, b ∈ cs ↔ b ∈ ds) : sorted cs = sorted ds := by
  refine (ascending_sorted cs).eq_of_mem_iff (ascending_sorted ds) fun b => ?_
  rw [mem_sorted, mem_sorted, h b]

end Sorted

end Claim

end FormConsole
