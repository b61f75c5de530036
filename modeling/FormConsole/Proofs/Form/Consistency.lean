import FormConsole.Proofs.Form.Override

/-!
# Choices and values over whole runs

A driver may change after the choices that depend on it were computed, in the same pass even.  Then the change
is among the news, and the cascade runs once more.  So choices are out of date only while there are news, and
at the end of a call they are those for the current values.

* `Wiring.Consistent`: every dependent has the choices for the current values and holds one of them, or is
  cleared.
* `Form.RespectsAll`: the runs that leave the choices of dependents to their cascades.
* `Form.consistent_run`: such runs keep the form consistent, so that a refresh has nothing to do.
-/

namespace FormConsole

namespace Wiring

section Consistent

variable {w : Wiring} {t t' : FieldTable}

/-- Every dependent has the choices for the current values of the drivers and holds one of them, or is
cleared. -/
def Consistent (w : Wiring) (t : FieldTable) : Prop :=
  ∀ c ∈ w.cascades, c.Tracks t ∧ c.Held t

/-- Consistency is a matter of the choices of the dependents and of the values of what cascades read and write. -/
theorem Consistent.congr (h : w.Consistent t) (hvalue : ∀ c ∈ w.cascades, ∀ n ∈ c.dependent :: c.drivers,
    t'.valueAt n = t.valueAt n) (hchoices : ∀ n, t'.choicesAt n = t.choicesAt n) : w.Consistent t' := by
  intro c hc
  obtain ⟨htracks, hheld⟩ := h c hc
  refine ⟨?_, hheld.congr (hvalue c hc _ (by simp)) (hchoices _)⟩
  rw [Cascade.Tracks, hchoices, Cascade.offered_congr fun n hn => hvalue c hc n (by simp [hn])]
  exact htracks

theorem Consistent.alike (h : w.Consistent t) (ha : t.Alike t') : w.Consistent t' :=
  h.congr (fun _ _ n _ => ha.valueAt n) ha.choicesAt

variable (h : w.Fits t.names) (hdeps : w.dependents.card < maxPasses)
  (hnodup : (w.cascades.map (·.dependent)).Nodup)
include h hdeps hnodup

theorem consistent_settled (hc : ∀ c ∈ w.cascades, c.Abreast t ∧ c.Held t) :
    w.Consistent (w.settled t) := by
  intro c hmem
  obtain ⟨habreast, hheld⟩ := hc c hmem
  exact ⟨tracks_settled h hdeps hnodup hmem habreast, held_settled h hnodup hmem hheld⟩

/-- After a reaction of everything nothing need be known about the table before it. -/
theorem consistent_refreshed : w.Consistent (w.refreshed t) := fun _ hmem =>
  ⟨tracks_refreshed h hdeps hnodup hmem, held_refreshed h hnodup hmem⟩

end Consistent

end Wiring

namespace Form

/-! ## Runs that leave dependents to their cascades -/

section Respects

/-- The call gives no dependent choices, and no value that is not among its choices.  Loading is free to. -/
def Respects (f : Form) : Call → Prop
  | .set name v => name ∈ f.wiring.dependents → Choice.offers (f.table.choicesAt name) v = true
  | .setChoices name _ => name ∉ f.wiring.dependents
  | _ => True

/-- Every call of a run respects the form that it meets. -/
def RespectsAll (f : Form) : List Call → Prop
  | [] => True
  | c :: calls => f.Respects c ∧ RespectsAll (f.call c).1 calls

instance decidableRespects (f : Form) : (c : Call) → Decidable (f.Respects c)
  | .set name v => inferInstanceAs (Decidable (name ∈ f.wiring.dependents →
      Choice.offers (f.table.choicesAt name) v = true))
  | .setChoices name _ => inferInstanceAs (Decidable (name ∉ f.wiring.dependents))
  | .resetToBaseline _ | .load _ | .refresh | .commit | .validate => .isTrue trivial

instance decidableRespectsAll (f : Form) : (calls : List Call) → Decidable (f.RespectsAll calls)
  | [] => .isTrue trivial
  | c :: calls =>
    have := decidableRespectsAll (f.call c).1 calls
    inferInstanceAs (Decidable (f.Respects c ∧ RespectsAll (f.call c).1 calls))

end Respects

section Consistency

variable {d : Definition} {f form : Form}

theorem consistent_after (h : IsOf d f) (hdeps : f.wiring.dependents.card < Wiring.maxPasses)
    (hnodup : (f.wiring.cascades.map (·.dependent)).Nodup) (hcons : f.wiring.Consistent f.table)
    {c : Call} (hc : f.Respects c) : f.wiring.Consistent (f.after c) := by
  cases c with
  | set name v =>
    rw [after]
    split
    · next hname =>
      refine Wiring.consistent_settled (h.fits.congr (FieldTable.declarations_putValue v)) hdeps
        hnodup ?_
      intro e he
      obtain ⟨htracks, hheld⟩ := hcons e he
      have habreast : e.Abreast f.table := fun _ => htracks
      refine ⟨habreast.putValue hname v, hheld.putValue hname fun heq => hc ?_⟩
      rw [heq]
      exact Wiring.mem_dependents he
    · exact hcons
  | resetToBaseline name =>
    rw [after]
    split
    · refine Wiring.consistent_refreshed (h.fits.congr ?_) hdeps hnodup
      rw [Wiring.declarations_settled, FieldTable.declarations_reset]
    · exact hcons
  | load stored =>
    have hfits := h.fits.congr (FieldTable.declarations_restored f.table stored)
    exact (Wiring.consistent_refreshed hfits hdeps hnodup).alike (FieldTable.alike_commit _)
  | setChoices name choices =>
    rw [after]
    split
    · next hname =>
      have hname' : name ∈ (f.table.putChoices name choices).names := by
        rwa [FieldTable.names_putChoices]
      refine Wiring.consistent_settled (h.fits.congr (declarations_offering _ name choices)) hdeps
        hnodup ?_
      · intro e he
        have hne : e.dependent ≠ name := by
          rintro rfl
          exact hc (Wiring.mem_dependents he)
        obtain ⟨htracks, hheld⟩ := hcons e he
        have habreast : e.Abreast f.table := fun _ => htracks
        refine ⟨?_, ?_⟩
        · exact (habreast.putChoices hname hne choices).putValue hname' _
        · exact (hheld.putChoices hname hne choices).putValue hname' fun heq => absurd heq.symm hne
    · exact hcons
  | refresh => exact Wiring.consistent_refreshed h.fits hdeps hnodup
  | commit => exact hcons.alike (FieldTable.alike_commit _)
  | validate => exact hcons.alike (FieldTable.alike_mark _ _)

theorem consistent_of_build (h : build d = .ok form)
    (hdeps : d.wiring.dependents.card < Wiring.maxPasses)
    (hnodup : (d.wiring.cascades.map (·.dependent)).Nodup) : d.wiring.Consistent form.table := by
  obtain ⟨hnames, hparts, rfl⟩ := build_eq_ok_iff.mp h
  exact (Wiring.consistent_refreshed (w := d.wiring) (isOf_initial hnames hparts).fits hdeps
    hnodup).alike (FieldTable.alike_commit _)

theorem consistent_of_respectsAll (h : IsOf d f)
    (hdeps : d.wiring.dependents.card < Wiring.maxPasses)
    (hnodup : (d.wiring.cascades.map (·.dependent)).Nodup) (hcons : d.wiring.Consistent f.table)
    {calls : List Call} (hcalls : f.RespectsAll calls) :
    d.wiring.Consistent (f.run calls).table := by
  induction calls generalizing f with
  | nil => exact hcons
  | cons c calls ih =>
    obtain ⟨hfirst, hrest⟩ := hcalls
    have hafter : d.wiring.Consistent (f.call c).1.table := by
      rw [call_eq_after h]
      rw [← h.wiring] at hdeps hnodup hcons ⊢
      exact consistent_after h hdeps hnodup hcons hfirst
    rw [run_cons]
    exact ih (h.call c) hafter hrest

/-- A run that leaves dependents to their cascades keeps their choices those for the current values, and their
values among the choices or cleared; a refresh then changes nothing. -/
theorem consistent_run (hbuild : build d = .ok form)
    (hnodup : (d.cascades.map (·.dependent)).Nodup) (hlen : d.cascades.length ≤ 15)
    {calls : List Call} (hcalls : form.RespectsAll calls) :
    (∀ c ∈ d.cascades, ∃ field values,
      (form.run calls).table.lookup c.dependent = .ok field ∧
      c.drivers.mapM (form.run calls).table.valueOf = .ok values ∧
      field.choices = c.compute values ∧
      (Choice.offers field.choices field.value = true ∨ field.value = field.value.cleared)) ∧
    (form.run calls).refresh = (form.run calls, .ok []) := by
  have hdeps : d.wiring.dependents.card < Wiring.maxPasses :=
    (Wiring.card_dependents_le d.wiring).trans_lt (Nat.lt_succ_of_le hlen)
  have hof : IsOf d (form.run calls) := (isOf_of_build hbuild).run calls
  have hcons := consistent_of_respectsAll (isOf_of_build hbuild) hdeps hnodup
    (consistent_of_build hbuild hdeps hnodup) hcalls
  have hforce := inForce_of_reachable (f := form.run calls) ⟨form, calls, hbuild, rfl⟩ hdeps
  generalize form.run calls = f at *
  have hfits : d.wiring.Fits f.table.names := by
    rw [← hof.wiring]
    exact hof.fits
  refine ⟨?_, ?_⟩
  · intro c hc
    obtain ⟨htracks, hheld⟩ := hcons c hc
    obtain ⟨field, hfield⟩ := FieldTable.mem_names_iff.mp (hfits.dependent_mem hc)
    refine ⟨field, c.drivers.map f.table.valueAt, ?_, ?_, ?_, ?_⟩
    · rw [FieldTable.lookup, hfield]
    · exact FieldTable.mapM_valueOf_of_mem (hfits.cascades c hc).drivers
    · rw [Cascade.Tracks, FieldTable.choicesAt_of_field? hfield] at htracks
      exact htracks
    · rw [Cascade.Held, FieldTable.choicesAt_of_field? hfield,
        FieldTable.valueAt_of_field? hfield] at hheld
      exact Cascade.surviving_eq_self_iff.mp hheld
  · rw [refresh_eq_self_iff hof, hof.wiring]
    exact ⟨hforce.aligned, fun c hc => (hcons c hc).1, fun c hc => (hcons c hc).2⟩

/-- A slave comes, becomes the primary one, and the mode changes to one that elects none. -/
def primaryCalls : List Call :=
  [.set "slaves" (.list ["eth0"]), .set "bondprimary" (.text "eth0"), .set "bondmode" (.number 0)]

theorem consistent_run_bond : smallBond.opened.RespectsAll primaryCalls ∧
    (smallBond.opened.run primaryCalls).refresh =
      (smallBond.opened.run primaryCalls, .ok []) := by
  have hcalls : smallBond.opened.RespectsAll primaryCalls := by
    decide +kernel
  exact ⟨hcalls, (consistent_run build_smallBond (by decide) (by decide) hcalls).2⟩

end Consistency

end Form

end FormConsole
