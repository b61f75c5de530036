import FormConsole.Proofs.Form.Propagation
import Mathlib.Logic.Relation

/-!
# Which pass reaches which field

What a pass changes depends on what the pass before it changed, so that a change arrives at a field after as
many passes as there are cascades on the way.

* `Wiring.Drives`, `Wiring.Leads`: one cascade, and a chain of cascades, from a field to another one.
* `Wiring.Acyclic`: no chain of cascades leads back to where it starts; `Wiring.acyclic_of_rank`.
* `Wiring.leads_of_mem_news`: the news after some passes are at the ends of chains of that length.
-/

namespace FormConsole

namespace Wiring

/-! ## Chains of cascades -/

section Chains

variable (w : Wiring)

/-- A cascade into the second field has the first one among its drivers. -/
def Drives (a b : String) : Prop :=
  ∃ c ∈ w.cascades, a ∈ c.drivers ∧ c.dependent = b

/-- A chain of that many cascades leads from the first field to the second one. -/
inductive Leads : Nat → String → String → Prop
  | refl (a : String) : Leads 0 a a
  | step {n : Nat} {a b c : String} : Leads n a b → w.Drives b c → Leads (n + 1) a c

variable {w} in
/-- A chain of cascades is empty, or it ends with a cascade. -/
theorem Leads.eq_or_drives {n : Nat} {a b : String} (h : w.Leads n a b) :
    n = 0 ∧ a = b ∨ ∃ k m, n = k + 1 ∧ w.Leads k a m ∧ w.Drives m b := by
  cases h with
  | refl => exact Or.inl ⟨rfl, rfl⟩
  | step hleads hdrives => exact Or.inr ⟨_, _, rfl, hleads, hdrives⟩

/-- No chain of cascades leads back to the field where it starts. -/
def Acyclic : Prop :=
  ∀ n, ¬ Relation.TransGen w.Drives n n

/-- If the fields can be ranked so that every cascade goes up, there is no cycle. -/
theorem acyclic_of_rank (rank : String → Nat)
    (h : ∀ c ∈ w.cascades, ∀ n ∈ c.drivers, rank n < rank c.dependent) : w.Acyclic := by
  have hup : ∀ a b, Relation.TransGen w.Drives a b → rank a < rank b := by
    intro a b hab
    induction hab with
    | single hdrives =>
      obtain ⟨c, hc, hn, rfl⟩ := hdrives
      exact h c hc _ hn
    | tail _ hdrives ih =>
      obtain ⟨c, hc, hn, rfl⟩ := hdrives
      exact ih.trans (h c hc _ hn)
  intro n hn
  exact absurd (hup n n hn) (lt_irrefl _)

end Chains

/-! ## Chains and passes -/

section Passes

variable {w : Wiring} {t : FieldTable} {c : Cascade}

theorem leads_of_mem_news (h : w.Fits t.names) {n : Nat} {name : String}
    (hname : name ∈ (w.pass^[n] t).news) : ∃ m ∈ t.news, w.Leads n m name := by
  induction n generalizing name with
  | zero => exact ⟨name, hname, Leads.refl name⟩
  | succ n ih =>
    rw [Function.iterate_succ_apply'] at hname
    obtain ⟨c, hc, hdep, m, hm, hwatch⟩ := mem_news_pass
      (h.congr (declarations_iterate_pass n t)) hname
    obtain ⟨a, ha, hleads⟩ := ih hm
    exact ⟨a, ha, hleads.step ⟨c, hc, Cascade.watches_iff.mp hwatch, hdep⟩⟩

theorem leads_of_mem_awakened (h : w.Fits t.names) {n : Nat}
    (hc : c ∈ w.awakened (w.pass^[n] t).news) : ∃ m ∈ t.news, w.Leads (n + 1) m c.dependent := by
  obtain ⟨hmem, m, hm, hwatch⟩ := mem_awakened.mp hc
  obtain ⟨a, ha, hleads⟩ := leads_of_mem_news h hm
  exact ⟨a, ha, hleads.step ⟨c, hmem, Cascade.watches_iff.mp hwatch, rfl⟩⟩

end Passes

end Wiring

end FormConsole
