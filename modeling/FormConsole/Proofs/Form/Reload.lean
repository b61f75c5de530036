import FormConsole.Proofs.Form.Consistency
import FormConsole.Proofs.Form.Reach

/-!
# Saving and loading

Loading writes all values at once, over choices that still belong to other values.  If the values come from a
consistent form, every cascade then computes the choices that it had there, and finds its value among them; so
nothing is cleared, whatever the order of the cascades, and no news are left for a pass.

* `FieldTable.get?_values`, `FieldTable.valueAt_restored`: what is saved of a table, and what is left of it in another
  one.
* `Wiring.refreshed_of_consistent`: a reaction of everything to the values of a consistent table.
* `Form.load_values`: a form that is loaded with the values of another one shows what that one shows.
-/

namespace FormConsole

namespace FieldTable

/-! ## What is saved -/

section Saved

variable {t u : FieldTable} {name : String}

theorem get?_values (h : t.names.Nodup) (hname : name ∈ t.names) :
    t.values.get? name = some (t.valueAt name) := by
  obtain ⟨f, hf⟩ := mem_names_iff.mp hname
  have hnodup : ((t.fields.map fun f => (f.name, f.value)).map (·.1)).Nodup := by
    rw [List.map_map]
    exact h
  have hentry := NameMap.get?_ofList_of_mem hnodup
    (List.mem_map.mpr ⟨f, mem_of_field? hf, rfl⟩)
  rwa [name_of_field? hf, ← valueAt_of_field? hf] at hentry

theorem valueAt_restored (hname : name ∈ t.names) (stored : NameMap Value) :
    (t.restored stored).valueAt name = (stored.get? name).getD (t.valueAt name) := by
  obtain ⟨f, hf⟩ := mem_names_iff.mp hname
  have hrestored := field?_restored t stored name
  rw [hf, Option.map_some] at hrestored
  rw [valueAt_of_field? hrestored, valueAt_of_field? hf, name_of_field? hf]

theorem choicesAt_restored (t : FieldTable) (stored : NameMap Value) (name : String) :
    (t.restored stored).choicesAt name = t.choicesAt name := by
  rw [choicesAt, field?_restored, Option.map_map, choicesAt]
  rfl

/-- What is restored from another table with the same names are its values. -/
theorem valueAt_restored_values (h : t.names.Nodup) (hnames : u.names = t.names) (name : String) :
    (u.restored t.values).valueAt name = t.valueAt name := by
  by_cases hname : name ∈ t.names
  · rw [valueAt_restored (hnames ▸ hname), get?_values h hname]
    rfl
  · have hnone : (u.restored t.values).field? name = none := by
      rw [field?_restored, field?_eq_none_iff.mpr (hnames ▸ hname)]
      rfl
    rw [valueAt, valueAt, hnone, field?_eq_none_iff.mpr hname]

theorem isDirty_commit (t : FieldTable) : ∀ f ∈ t.commit.fields, f.isDirty = false := by
  intro f hf
  obtain ⟨before, -, hbefore⟩ := List.mem_map.mp hf
  rw [← hbefore, Field.isDirty, bne_self_eq_false]

end Saved

end FieldTable

namespace Cascade

/-! ## Reactions to the values of a consistent table -/

section Consistent

variable {c : Cascade} {cs : List Cascade} {t u : FieldTable}

/-- A run on the values of a table that the cascade is in line with restores the choices, and changes no value. -/
theorem recomputed_of_values (htracks : c.Tracks t) (hheld : c.Held t)
    (hvalues : ∀ n, u.valueAt n = t.valueAt n) :
    recomputed u c = u.putChoices c.dependent (t.choicesAt c.dependent) := by
  have hoffered : c.offered u = t.choicesAt c.dependent :=
    (offered_congr fun n _ => hvalues n).trans htracks.symm
  have hsame : surviving (c.offered u) (u.valueAt c.dependent) =
      (u.putChoices c.dependent (c.offered u)).valueAt c.dependent := by
    rw [FieldTable.valueAt_putChoices, hoffered, hvalues]
    exact hheld
  rw [recomputed, hsame, FieldTable.putValue_valueAt, hoffered]

/-- So do runs of several such cascades, in any order. -/
theorem foldl_recomputed_of_values (hmem : ∀ c ∈ cs, c.dependent ∈ u.names)
    (hcs : ∀ c ∈ cs, c.Tracks t ∧ c.Held t) (hvalues : ∀ n, u.valueAt n = t.valueAt n) :
    (∀ n, (cs.foldl recomputed u).valueAt n = t.valueAt n) ∧
      (cs.foldl recomputed u).news = u.news ∧
      ∀ n, (cs.foldl recomputed u).choicesAt n =
        if n ∈ cs.map (·.dependent) then t.choicesAt n else u.choicesAt n := by
  induction cs generalizing u with
  | nil => exact ⟨hvalues, rfl, fun n => by simp⟩
  | cons c cs ih =>
    obtain ⟨htracks, hheld⟩ := hcs c (by simp)
    have hc := hmem c (by simp)
    have hfirst := recomputed_of_values htracks hheld hvalues
    obtain ⟨hv, hnews, hchoices⟩ := ih (u := recomputed u c)
      (fun e he => by rw [names_recomputed]; exact hmem e (by simp [he]))
      (fun e he => hcs e (by simp [he]))
      (fun n => by rw [hfirst, FieldTable.valueAt_putChoices, hvalues])
    rw [List.foldl_cons]
    refine ⟨hv, ?_, fun n => ?_⟩
    · rw [hnews, hfirst, FieldTable.news_putChoices]
    · rw [hchoices, hfirst, FieldTable.choicesAt_putChoices _ _ hc, List.map_cons]
      by_cases hn : n ∈ cs.map (·.dependent)
      · rw [if_pos hn, if_pos (List.mem_cons_of_mem _ hn)]
      · by_cases heq : n = c.dependent
        · rw [if_neg hn, if_pos heq, if_pos (by simp [heq]), heq]
        · rw [if_neg hn, if_neg heq, if_neg (by simp only [List.mem_cons, heq, hn, or_self,
            not_false_eq_true])]

end Consistent

end Cascade

namespace Wiring

section Consistent

variable {w : Wiring} {t u : FieldTable}

/-- A reaction of everything to the values of a consistent table, and the passes that follow, change no value and give
every dependent the choices that it has there. -/
theorem refreshed_of_consistent (h : w.Fits u.names) (hcons : w.Consistent t)
    (hvalues : ∀ n, u.valueAt n = t.valueAt n) (hquiet : u.news = []) :
    (∀ n, (w.refreshed u).valueAt n = t.valueAt n) ∧
      ∀ c ∈ w.cascades, (w.refreshed u).choicesAt c.dependent = t.choicesAt c.dependent := by
  obtain ⟨hv, hnews, hchoices⟩ := Cascade.foldl_recomputed_of_values
    (dependent_mem_evaluated h) hcons fun n => by rw [RuleSet.valueAt_evaluated, hvalues]
  have hnews : (w.reactedAll u).news = [] := by
    rw [reactedAll, hnews, RuleSet.news_evaluated, hquiet]
  have hreacted : w.refreshed u = (w.reactedAll u).drain := by
    rw [refreshed, settled, iterate_pass_of_quiet w hnews]
  rw [hreacted]
  refine ⟨fun n => hv n, fun c hc => ?_⟩
  rw [FieldTable.choicesAt_drain, reactedAll, hchoices, if_pos (List.mem_map.mpr ⟨c, hc, rfl⟩)]

end Consistent

end Wiring

namespace Form

/-! ## Loading the values of a form -/

section Load

variable {d : Definition} {f g form : Form}

/-- A form that is loaded with the values of a consistent form of the same definition has these values, the constraints
that go with them, and the choices of the dependents. -/
theorem table_load_values (hf : IsOf d f) (hg : IsOf d g) (hcons : d.wiring.Consistent f.table) :
    (∀ n, (g.load f.values).1.table.valueAt n = f.table.valueAt n) ∧
      ∀ c ∈ d.cascades, (g.load f.values).1.table.choicesAt c.dependent =
        f.table.choicesAt c.dependent := by
  have hnames : g.table.names = f.table.names :=
    FieldTable.names_congr (hg.declarations.trans hf.declarations.symm)
  have hfits := hg.fits.congr (FieldTable.declarations_restored g.table f.values)
  rw [← hg.wiring] at hcons
  obtain ⟨hvalues, hchoices⟩ := Wiring.refreshed_of_consistent hfits hcons
    (FieldTable.valueAt_restored_values hf.nodup hnames) rfl
  have halike := FieldTable.alike_commit (g.wiring.refreshed (g.table.restored f.values))
  rw [load_eq hg]
  refine ⟨fun n => (halike.valueAt n).trans (hvalues n), fun c hc => ?_⟩
  refine (halike.choicesAt _).trans (hchoices c ?_)
  rw [hg.wiring]
  exact hc

/-- Loading leaves no field that differs from what was saved. -/
theorem isDirty_load (h : IsOf d g) (stored : NameMap Value) :
    ∀ field ∈ (g.load stored).1.fields, field.isDirty = false := by
  rw [load_eq h]
  exact FieldTable.isDirty_commit (g.wiring.refreshed (g.table.restored stored))

/-- Saving and loading reproduces a form.  After any run that leaves dependents to their cascades, loading the values
into a freshly opened form is not refused; every field then has the value and the constraints that it had, every
dependent the choices that it had, and nothing differs from what was saved. -/
theorem load_values (hbuild : build d = .ok form)
    (hnodup : (d.cascades.map (·.dependent)).Nodup) (hlen : d.cascades.length ≤ 15)
    {calls : List Call} (hcalls : form.RespectsAll calls) :
    ∃ reloaded, form.load (form.run calls).values = (reloaded, .ok ()) ∧
      List.Forall₂ (fun field field' => field'.decl = field.decl ∧ field'.value = field.value ∧
        field'.effective = field.effective ∧ field'.isDirty = false ∧
        ((∃ c ∈ d.cascades, c.dependent = field.name) → field'.choices = field.choices))
        (form.run calls).fields reloaded.fields := by
  have hdeps : d.wiring.dependents.card < Wiring.maxPasses :=
    (Wiring.card_dependents_le d.wiring).trans_lt (Nat.lt_succ_of_le hlen)
  have hform := isOf_of_build hbuild
  have hof : IsOf d (form.run calls) := hform.run calls
  have hcons := consistent_of_respectsAll hform hdeps hnodup
    (consistent_of_build hbuild hdeps hnodup) hcalls
  have hreach : Reachable d (form.run calls) := ⟨form, calls, hbuild, rfl⟩
  have hforce := inForce_of_reachable hreach hdeps
  generalize form.run calls = f at *
  have hforce' : d.rules.InForce (form.load f.values).1.table :=
    inForce_of_reachable ⟨form, [.load f.values], hbuild, rfl⟩ hdeps
  have hof' : IsOf d (form.load f.values).1 := hform.call (.load f.values)
  obtain ⟨hvalues, hchoices⟩ := table_load_values hof hform hcons
  have hclean := isDirty_load hform f.values
  have hload : (form.load f.values).2 = .ok () := by rw [load_eq hform]
  refine ⟨(form.load f.values).1, Prod.ext rfl hload, ?_⟩
  refine FieldTable.forall₂_fields hof.nodup (hof'.declarations.trans hof.declarations.symm) ?_
  intro name field field' hfield hfield' hdecl
  have hvalue := hvalues name
  rw [FieldTable.valueAt_of_field? hfield, FieldTable.valueAt_of_field? hfield'] at hvalue
  refine ⟨hdecl, hvalue, ?_, hclean field' (FieldTable.mem_of_field? hfield'), ?_⟩
  · refine hforce.effective_eq hforce' hof.rules_apart hfield hfield' hdecl fun r _ _ => ?_
    exact Rule.holds_congr fun c _ => hvalues c.field
  · rintro ⟨c, hc, hdep⟩
    have hsame := hchoices c hc
    rw [hdep, FieldTable.name_of_field? hfield, FieldTable.choicesAt_of_field? hfield,
      FieldTable.choicesAt_of_field? hfield'] at hsame
    exact hsame

/-- A slave comes and becomes the primary one. -/
def electionCalls : List Call :=
  [.set "slaves" (.list ["eth0"]), .set "bondprimary" (.text "eth0")]

/-- A chosen primary slave survives, though the form that it is loaded into does not offer it at first. -/
theorem load_values_bond : smallBond.opened.RespectsAll electionCalls ∧
    (smallBond.opened.run electionCalls).table.valueAt "bondprimary" = .text "eth0" ∧
    ∃ reloaded, smallBond.opened.load (smallBond.opened.run electionCalls).values =
        (reloaded, .ok ()) ∧
      List.Forall₂ (fun field field' => field'.value = field.value)
        (smallBond.opened.run electionCalls).fields reloaded.fields := by
  have hcalls : smallBond.opened.RespectsAll electionCalls := by
    decide +kernel
  obtain ⟨reloaded, hload, hfields⟩ := load_values build_smallBond (by decide) (by decide) hcalls
  exact ⟨hcalls, by decide +kernel, reloaded, hload, hfields.imp fun _ _ h => h.2.1⟩

end Load

end Form

end FormConsole
