import FormConsole.Proofs.Field.Table
import Mathlib.Data.List.Forall2

/-!
# Comparing tables

Tables that declare the same have their fields in the same order.  What relates these fields is found name by
name, since no name is declared twice.

* `forall₂_imp_of_mem`: a relation of two lists of fields, with the fields as members of their lists.
* `FieldTable.forall₂_of_lookup`, `FieldTable.forall₂_fields`: a relation of the fields of two tables, from the
  fields that a name finds in both.
-/

namespace FormConsole

section Compare

variable {fs fs' : List Field}

/-- What relates the fields of two lists in order relates them as members of their lists. -/
theorem forall₂_imp_of_mem {R S : Field → Field → Prop} (h : List.Forall₂ R fs fs')
    (hS : ∀ f ∈ fs, ∀ f' ∈ fs', R f f' → S f f') : List.Forall₂ S fs fs' := by
  rw [List.forall₂_iff_zip] at h ⊢
  refine ⟨h.1, fun {f f'} hmem => ?_⟩
  obtain ⟨hf, hf'⟩ := List.of_mem_zip hmem
  exact hS f hf f' hf' (h.2 hmem)

/-- What relates the fields of two tables in order, and their declarations, is known from what relates fields of one
name. -/
theorem FieldTable.forall₂_of_lookup {R S : Field → Field → Prop} {t u : FieldTable}
    (hnodup : t.names.Nodup) (h : List.Forall₂ R t.fields u.fields) (hdecl : ∀ f g, R f g → g.decl = f.decl)
    (hS : ∀ name f g, t.field? name = some f → u.field? name = some g → R f g → S f g) :
    List.Forall₂ S t.fields u.fields := by
  have hsame : List.Forall₂ (fun f g => f.decl = g.decl) t.fields u.fields :=
    h.imp fun f g hfg => (hdecl f g hfg).symm
  have hnames : u.names = t.names := by
    refine FieldTable.names_congr (Eq.symm ?_)
    rwa [FieldTable.declarations, FieldTable.declarations, ← List.forall₂_eq_eq_eq,
      List.forall₂_map_left_iff, List.forall₂_map_right_iff]
  refine forall₂_imp_of_mem h fun f hf g hg hfg => ?_
  have hlookup := FieldTable.field?_name_of_mem (hnames ▸ hnodup) hg
  rw [Field.name, hdecl f g hfg] at hlookup
  exact hS f.name f g (FieldTable.field?_name_of_mem hnodup hf) hlookup hfg

/-- Tables that declare the same are compared name by name. -/
theorem FieldTable.forall₂_fields {t u : FieldTable} (hnodup : t.names.Nodup) (hdecl : u.declarations = t.declarations)
    {R : Field → Field → Prop}
    (hR : ∀ name f g, t.field? name = some f → u.field? name = some g → g.decl = f.decl → R f g) :
    List.Forall₂ R t.fields u.fields := by
  have hrelated : List.Forall₂ (fun f g => g.decl = f.decl) t.fields u.fields := by
    have heq : List.Forall₂ (· = ·) t.declarations u.declarations := by
      rw [List.forall₂_eq_eq_eq, hdecl]
    rw [FieldTable.declarations, FieldTable.declarations, List.forall₂_map_left_iff, List.forall₂_map_right_iff] at heq
    exact heq.imp fun _ _ h => h.symm
  exact forall₂_of_lookup hnodup hrelated (fun _ _ h => h) hR

end Compare

end FormConsole
