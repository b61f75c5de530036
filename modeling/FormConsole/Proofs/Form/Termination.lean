import FormConsole.Proofs.Form.Call
import Mathlib.Data.Nat.Find

/-!
# Propagation ends by itself

Reactions never write a value but the cleared one, and a cleared value stays cleared. So whatever rules and
cascades run after the writes of a call, and in whatever order, the value of a field changes at most once. The
passes of a call are over when there is nothing left to clear, whether their number is limited or not.

* `Wiring.Reacts`: evaluations of rules and runs of cascades one after the other, in any order;
  `Wiring.Reacts.pairwise` says that no two of the runs change the same value, and
  `Wiring.Reacts.exists_changes_of_ne` that a value is changed by nothing else.
* `Form.exists_reacts_after`: after its own writes, a call does nothing else.
* `Wiring.Settles`: the passes without a limit, which are over with the first one that leaves no news
  (`Wiring.settles_iterate_pass`); `Wiring.exists_settles`, `Wiring.Settles.run_propagate`.
* `Form.propagation_ends`: all of this together, for an accepted definition.
-/

namespace FormConsole

/-! ## Runs of cascades -/

/-- A run of a cascade on a table. -/
structure Cascade.Run where
  cascade : Cascade
  before : FieldTable

/-- The run changes the value of that field. -/
def Cascade.Run.Changes (r : Cascade.Run) (name : String) : Prop :=
  ∃ after, r.cascade.recompute.run r.before = .ok () after ∧
    after.valueAt name ≠ r.before.valueAt name

namespace Wiring

/-! ## Reactions in any order -/

section Steps

variable {w : Wiring} {t u : FieldTable}

theorem eq_evaluated_of_run (h : w.Fits t.names) (hrun : w.reactRules.run t = .ok () u) :
    u = w.rules.evaluated t := by
  rw [run_reactRules h] at hrun
  injection hrun with _ hu
  exact hu.symm

theorem eq_recomputed_of_run (h : w.Fits t.names) {c : Cascade} (hc : c ∈ w.cascades)
    (hrun : c.recompute.run t = .ok () u) : u = Cascade.recomputed t c := by
  rw [Cascade.run_recompute (h.cascades c hc)] at hrun
  injection hrun with _ hu
  exact hu.symm

theorem eq_drain_of_run {changes : List Change} (hrun : Edit.takeChanges.run t = .ok changes u) :
    u = t.drain := by
  rw [Edit.run_takeChanges] at hrun
  injection hrun with _ hu
  exact hu.symm

/-- A run that changes a value clears it. -/
theorem cleared_of_changes (h : w.Fits t.names) {c : Cascade} (hc : c ∈ w.cascades) {name : String}
    (hchanges : (⟨c, t⟩ : Cascade.Run).Changes name) :
    ((Cascade.recomputed t c).valueAt name).cleared = (Cascade.recomputed t c).valueAt name := by
  obtain ⟨after, hafter, hne⟩ := hchanges
  obtain rfl := eq_recomputed_of_run h hc hafter
  rw [Cascade.valueAt_recomputed (h.dependent_mem hc)] at hne ⊢
  split at hne
  · next hname =>
    subst hname
    rw [if_pos rfl, Cascade.surviving_of_ne hne, Value.cleared_cleared]
  · exact absurd rfl hne

/-- A run leaves a value that is cleared. -/
theorem valueAt_recomputed_of_cleared (h : w.Fits t.names) {c : Cascade} (hc : c ∈ w.cascades)
    {name : String} (hcleared : (t.valueAt name).cleared = t.valueAt name) :
    (Cascade.recomputed t c).valueAt name = t.valueAt name := by
  rw [Cascade.valueAt_recomputed (h.dependent_mem hc)]
  split
  · next hname =>
    subst hname
    exact Cascade.surviving_eq_self_iff.mpr (Or.inr hcleared.symm)
  · rfl

end Steps

/-- From one table to another by evaluations of the rules, runs of cascades, and taking note of the changes, in
any order; with the runs of cascades, in order. -/
inductive Reacts (w : Wiring) : FieldTable → List Cascade.Run → FieldTable → Prop
  | done (t : FieldTable) : Reacts w t [] t
  | rules {t u v : FieldTable} {runs : List Cascade.Run}
      (hrun : w.reactRules.run t = .ok () u) (hrest : Reacts w u runs v) : Reacts w t runs v
  | cascade {t u v : FieldTable} {runs : List Cascade.Run} {c : Cascade} (hc : c ∈ w.cascades)
      (hrun : c.recompute.run t = .ok () u) (hrest : Reacts w u runs v) :
      Reacts w t (⟨c, t⟩ :: runs) v
  | take {t u v : FieldTable} {runs : List Cascade.Run} {changes : List Change}
      (hrun : Edit.takeChanges.run t = .ok changes u) (hrest : Reacts w u runs v) :
      Reacts w t runs v

namespace Reacts

variable {w : Wiring} {t u v : FieldTable} {runs : List Cascade.Run}

theorem trans {more : List Cascade.Run} (h : w.Reacts t runs u) (h' : w.Reacts u more v) :
    w.Reacts t (runs ++ more) v := by
  induction h with
  | done t => exact h'
  | rules hrun _ ih => exact rules hrun (ih h')
  | cascade hc hrun _ ih => exact cascade hc hrun (ih h')
  | take hrun _ ih => exact take hrun (ih h')

/-- Reactions do not change a value that is cleared. -/
theorem not_changes_of_cleared (hreacts : w.Reacts t runs v) (h : w.Fits t.names) {name : String}
    (hcleared : (t.valueAt name).cleared = t.valueAt name) : ∀ r ∈ runs, ¬ r.Changes name := by
  induction hreacts with
  | done t => exact fun r hr => absurd hr List.not_mem_nil
  | @rules t u v runs hrun _ ih =>
    obtain rfl := eq_evaluated_of_run h hrun
    refine ih (h.congr (RuleSet.declarations_evaluated _ t)) ?_
    rwa [RuleSet.valueAt_evaluated]
  | @cascade t u v runs c hc hrun _ ih =>
    obtain rfl := eq_recomputed_of_run h hc hrun
    have hsame : (Cascade.recomputed t c).valueAt name = t.valueAt name :=
      valueAt_recomputed_of_cleared h hc hcleared
    intro r hr
    rcases List.mem_cons.mp hr with rfl | hr
    · rintro ⟨after, hafter, hne⟩
      obtain rfl := eq_recomputed_of_run h hc hafter
      exact hne hsame
    · refine ih (h.congr Cascade.declarations_recomputed) ?_ r hr
      rwa [hsame]
  | @take t u v runs changes hrun _ ih =>
    obtain rfl := eq_drain_of_run hrun
    exact ih h hcleared

/-- Among reactions in any order, at most one run of a cascade changes the value of a field. -/
theorem pairwise (hreacts : w.Reacts t runs v) (h : w.Fits t.names) (name : String) :
    runs.Pairwise fun r s => r.Changes name → ¬ s.Changes name := by
  induction hreacts with
  | done t => exact List.Pairwise.nil
  | @rules t u v runs hrun _ ih =>
    obtain rfl := eq_evaluated_of_run h hrun
    exact ih (h.congr (RuleSet.declarations_evaluated _ t))
  | @cascade t u v runs c hc hrun hrest ih =>
    obtain rfl := eq_recomputed_of_run h hc hrun
    have hfits : w.Fits (Cascade.recomputed t c).names := h.congr Cascade.declarations_recomputed
    refine List.pairwise_cons.mpr ⟨?_, ih hfits⟩
    intro s hs hchanges
    exact not_changes_of_cleared hrest hfits (cleared_of_changes h hc hchanges) s hs
  | @take t u v runs changes hrun _ ih =>
    obtain rfl := eq_drain_of_run hrun
    exact ih h

/-- A value that reactions have changed was changed by one of the runs. -/
theorem exists_changes_of_ne (hreacts : w.Reacts t runs v) (h : w.Fits t.names) {name : String}
    (hne : v.valueAt name ≠ t.valueAt name) : ∃ r ∈ runs, r.Changes name := by
  induction hreacts with
  | done t => exact absurd rfl hne
  | @rules t u v runs hrun _ ih =>
    obtain rfl := eq_evaluated_of_run h hrun
    refine ih (h.congr (RuleSet.declarations_evaluated _ t)) ?_
    rwa [RuleSet.valueAt_evaluated]
  | @cascade t u v runs c hc hrun _ ih =>
    by_cases hsame : u.valueAt name = t.valueAt name
    · obtain rfl := eq_recomputed_of_run h hc hrun
      rw [← hsame] at hne
      obtain ⟨r, hr, hchanges⟩ := ih (h.congr Cascade.declarations_recomputed) hne
      exact ⟨r, List.mem_cons_of_mem _ hr, hchanges⟩
    · exact ⟨_, List.mem_cons_self, u, hrun, hsame⟩
  | @take t u v runs changes hrun _ ih =>
    obtain rfl := eq_drain_of_run hrun
    exact ih h hne

end Reacts

/-! ## The passes of a call are such reactions -/

section Passes

variable {w : Wiring} {t : FieldTable}

theorem exists_reacts_evaluated (h : w.Fits t.names) :
    ∃ runs, w.Reacts t runs (w.rules.evaluated t) :=
  ⟨[], .rules (run_reactRules h) (.done _)⟩

theorem exists_reacts_drain (w : Wiring) (t : FieldTable) : ∃ runs, w.Reacts t runs t.drain :=
  ⟨[], .take (Edit.run_takeChanges t) (.done _)⟩

theorem exists_reacts_foldl (h : w.Fits t.names) {cs : List Cascade}
    (hcs : ∀ c ∈ cs, c ∈ w.cascades) :
    ∃ runs, w.Reacts t runs (cs.foldl Cascade.recomputed t) := by
  induction cs generalizing t with
  | nil => exact ⟨[], .done t⟩
  | cons c cs ih =>
    have hc : c ∈ w.cascades := hcs c (by simp)
    obtain ⟨runs, hruns⟩ := ih (t := Cascade.recomputed t c)
      (h.congr Cascade.declarations_recomputed) fun d hd => hcs d (by simp [hd])
    exact ⟨⟨c, t⟩ :: runs, .cascade hc (Cascade.run_recompute (h.cascades c hc)) hruns⟩

theorem exists_reacts_pass (h : w.Fits t.names) : ∃ runs, w.Reacts t runs (w.pass t) := by
  unfold pass
  split
  · exact ⟨[], .done t⟩
  · obtain ⟨first, hfirst⟩ := exists_reacts_drain w t
    have hruled : ∃ runs, w.Reacts t.drain runs (w.ruled t.news t.drain) := by
      unfold ruled
      split
      · exact exists_reacts_evaluated (t := t.drain) h
      · exact ⟨[], .done _⟩
    obtain ⟨second, hsecond⟩ := hruled
    have hfits : w.Fits (w.ruled t.news t.drain).names := by
      rw [names_ruled]
      exact h
    have hawake : ∀ c ∈ w.awakened t.news, c ∈ w.cascades := fun c hc => (mem_awakened.mp hc).1
    obtain ⟨third, hthird⟩ := exists_reacts_foldl hfits hawake
    exact ⟨_, hfirst.trans (hsecond.trans hthird)⟩

theorem exists_reacts_settled (h : w.Fits t.names) : ∃ runs, w.Reacts t runs (w.settled t) := by
  have hpasses : ∃ runs, w.Reacts t runs (w.pass^[maxPasses] t) := by
    refine iterate_pass_induct (P := fun u => ∃ runs, w.Reacts t runs u) ?_ h ⟨[], .done t⟩ _
    rintro u hu ⟨runs, hruns⟩
    obtain ⟨more, hmore⟩ := exists_reacts_pass hu
    exact ⟨runs ++ more, hruns.trans hmore⟩
  obtain ⟨runs, hruns⟩ := hpasses
  obtain ⟨more, hmore⟩ := exists_reacts_drain w (w.pass^[maxPasses] t)
  exact ⟨runs ++ more, hruns.trans hmore⟩

theorem exists_reacts_refreshed (h : w.Fits t.names) :
    ∃ runs, w.Reacts t runs (w.refreshed t) := by
  obtain ⟨first, hfirst⟩ := exists_reacts_evaluated h
  have hevaluated : w.Fits (w.rules.evaluated t).names :=
    h.congr (RuleSet.declarations_evaluated _ t)
  obtain ⟨second, hsecond⟩ := exists_reacts_foldl hevaluated fun c hc => hc
  obtain ⟨third, hthird⟩ := exists_reacts_settled (t := w.reactedAll t)
    (h.congr (declarations_reactedAll t))
  exact ⟨_, hfirst.trans (hsecond.trans hthird)⟩

end Passes

/-! ## Passes without a limit -/

/-- The passes over some changes until no value changes any more: their number, all changes, and the table that
is left. -/
inductive Settles (w : Wiring) : List Change → FieldTable → Nat → List Change → FieldTable → Prop
  | quiet {changes : List Change} {t : FieldTable} (hquiet : changedValues changes = []) :
      Settles w changes t 0 changes t
  | pass {changes next rest : List Change} {t u v : FieldTable} {n : Nat}
      (hnews : changedValues changes ≠ [])
      (hrun : (do w.react (changedValues changes); Edit.takeChanges).run t = .ok next u)
      (hrest : Settles w next u n rest v) :
      Settles w changes t (n + 1) (changes ++ rest) v

section Settles

variable {w : Wiring} {t u : FieldTable} {changes made : List Change} {n : Nat}

/-- The passes end in one way at most. -/
theorem Settles.unique (h : w.Settles changes t n made u) {n' : Nat} {made' : List Change}
    {u' : FieldTable} (h' : w.Settles changes t n' made' u') : n' = n ∧ made' = made ∧ u' = u := by
  induction h generalizing n' made' u' with
  | quiet hquiet =>
    cases h' with
    | quiet _ => exact ⟨rfl, rfl, rfl⟩
    | pass hnews _ _ => exact absurd hquiet hnews
  | pass hnews hrun _ ih =>
    cases h' with
    | quiet hquiet => exact absurd hquiet hnews
    | pass _ hrun' hrest' =>
      rw [hrun] at hrun'
      injection hrun' with hnext hu
      subst hnext hu
      obtain ⟨rfl, rfl, rfl⟩ := ih hrest'
      exact ⟨rfl, rfl, rfl⟩

/-- A limit that is not reached makes no difference. -/
theorem Settles.run_propagate (h : w.Settles changes t n made u) {limit : Nat} (hn : n ≤ limit) :
    (w.propagate limit changes).run t = .ok made u := by
  induction h generalizing limit with
  | quiet hquiet =>
    rw [propagate_of_quiet w limit hquiet]
    rfl
  | @pass changes next rest t u v n hnews hrun hrest ih =>
    obtain ⟨limit, rfl⟩ : ∃ k, limit = k + 1 := ⟨limit - 1, by omega⟩
    have hne : ¬ (changedValues changes).isEmpty = true := by rwa [List.isEmpty_iff]
    have hpasses : (w.propagate limit next).run u = .ok rest v := ih (by omega)
    rw [propagate, if_neg hne, ← bind_assoc]
    exact (Edit.run_bind_of_ok hrun).trans (Edit.run_bind_of_ok hpasses)

/-- Passes with news, up to one that leaves none, are such passes. -/
theorem settles_iterate_pass (h : w.Fits t.names) (hnews : ∀ k < n, (w.pass^[k] t).news ≠ [])
    (hquiet : (w.pass^[n] t).news = []) :
    w.Settles t.pending t.drain n (w.history n t) (w.pass^[n] t).drain := by
  induction n generalizing t with
  | zero => exact .quiet hquiet
  | succ n ih =>
    have hfirst : t.news ≠ [] := hnews 0 n.succ_pos
    have hrun : (do w.react (changedValues t.pending); Edit.takeChanges).run t.drain =
        .ok (w.pass t).pending (w.pass t).drain :=
      (Edit.run_bind_of_ok (run_pass h hfirst)).trans (Edit.run_takeChanges _)
    rw [history, if_neg hfirst]
    have hrest : ∀ k < n, (w.pass^[k] (w.pass t)).news ≠ [] := fun k hk => hnews (k + 1) (by omega)
    exact .pass hfirst hrun (ih (h.congr (declarations_pass t)) hrest hquiet)

/-- The passes end without a limit, at the first one that leaves no news. -/
theorem exists_settles (h : w.Fits t.names) (hn : (w.uncleared t).card < n) :
    ∃ m made u, m ≤ n ∧ w.Settles t.pending t.drain m made u := by
  have hquiet : ∃ m, (w.pass^[m] t).news = [] := ⟨n, news_iterate_pass h hn⟩
  exact ⟨Nat.find hquiet, _, _, Nat.find_min' hquiet (news_iterate_pass h hn),
    settles_iterate_pass h (fun _ => Nat.find_min hquiet) (Nat.find_spec hquiet)⟩

end Settles

end Wiring

namespace Form

/-! ## The calls of a form -/

section Calls

variable {d : Definition} {f form : Form}

/-- The fields after the writes of a call, before anything reacts. -/
def written (f : Form) : Call → FieldTable
  | .set name v => if name ∈ f.table.names then f.table.putValue name v else f.table
  | .resetToBaseline name => if name ∈ f.table.names then f.table.reset name else f.table
  | .load stored => f.table.restored stored
  | .setChoices name choices =>
    if name ∈ f.table.names then offering f.table name choices else f.table
  | .refresh => f.table
  | .commit => f.table
  | .validate => f.table

theorem declarations_written (f : Form) (c : Call) :
    (f.written c).declarations = f.table.declarations := by
  cases c with
  | set name v =>
    rw [written]
    split
    · exact FieldTable.declarations_putValue v
    · rfl
  | resetToBaseline name =>
    rw [written]
    split
    · exact FieldTable.declarations_reset _ name
    · rfl
  | load stored => exact FieldTable.declarations_restored _ stored
  | setChoices name choices =>
    rw [written]
    split
    · exact declarations_offering _ name choices
    · rfl
  | refresh => rfl
  | commit => rfl
  | validate => rfl

/-- After its own writes a call does nothing but react, up to the marks of saving and of validation. -/
theorem exists_reacts_after (h : IsOf d f) (c : Call) :
    ∃ runs u, f.wiring.Reacts (f.written c) runs u ∧ u.Alike (f.after c) := by
  have hfits : f.wiring.Fits (f.written c).names := h.fits.congr (declarations_written f c)
  cases c with
  | set name v =>
    by_cases hname : name ∈ f.table.names
    · rw [written, if_pos hname] at hfits ⊢
      rw [after, if_pos hname]
      obtain ⟨runs, hruns⟩ := Wiring.exists_reacts_settled hfits
      exact ⟨runs, _, hruns, .refl _⟩
    · rw [written, if_neg hname, after, if_neg hname]
      exact ⟨[], _, .done _, .refl _⟩
  | resetToBaseline name =>
    by_cases hname : name ∈ f.table.names
    · rw [written, if_pos hname] at hfits ⊢
      rw [after, if_pos hname]
      obtain ⟨runs, hruns⟩ := Wiring.exists_reacts_settled hfits
      have hsettled : f.wiring.Fits (f.wiring.settled (f.table.reset name)).names :=
        hfits.congr (Wiring.declarations_settled _)
      obtain ⟨more, hmore⟩ := Wiring.exists_reacts_refreshed hsettled
      exact ⟨runs ++ more, _, hruns.trans hmore, .refl _⟩
    · rw [written, if_neg hname, after, if_neg hname]
      exact ⟨[], _, .done _, .refl _⟩
  | load stored =>
    rw [written] at hfits ⊢
    rw [after]
    obtain ⟨runs, hruns⟩ := Wiring.exists_reacts_refreshed hfits
    exact ⟨runs, _, hruns, FieldTable.alike_commit _⟩
  | setChoices name choices =>
    by_cases hname : name ∈ f.table.names
    · rw [written, if_pos hname] at hfits ⊢
      rw [after, if_pos hname]
      obtain ⟨runs, hruns⟩ := Wiring.exists_reacts_settled hfits
      exact ⟨runs, _, hruns, .refl _⟩
    · rw [written, if_neg hname, after, if_neg hname]
      exact ⟨[], _, .done _, .refl _⟩
  | refresh =>
    rw [written] at hfits ⊢
    rw [after]
    obtain ⟨runs, hruns⟩ := Wiring.exists_reacts_refreshed hfits
    exact ⟨runs, _, hruns, .refl _⟩
  | commit => exact ⟨[], _, .done _, FieldTable.alike_commit _⟩
  | validate => exact ⟨[], _, .done _, FieldTable.alike_mark _ _⟩

/-- Propagation ends by itself. In every state of a form of an accepted definition, however its cascades depend
on each other: after its own writes a call only reacts, and of all that may react to them, in whatever order, at
most one run of a cascade changes the value of a field. Passes without a limit end after at most one more than
there are dependents, and in one way only. If there are at most fifteen dependents, the limited passes do the
same. -/
theorem propagation_ends (hbuild : build d = .ok form) (hwiring : f.wiring = form.wiring)
    (hdecl : f.table.declarations = form.table.declarations) (hpending : f.table.pending = []) :
    (∀ c : Call,
      (∃ runs u, f.wiring.Reacts (f.written c) runs u ∧ u.Alike (f.call c).1.table) ∧
      ∀ runs u, f.wiring.Reacts (f.written c) runs u →
        ∀ name, runs.Pairwise fun r s => r.Changes name → ¬ s.Changes name) ∧
    ∀ changes, ∃ n made u, n ≤ (d.cascades.map (·.dependent)).toFinset.card + 1 ∧
      (∀ n' made' u', f.wiring.Settles changes f.table n' made' u' ↔
        n' = n ∧ made' = made ∧ u' = u) ∧
      ((d.cascades.map (·.dependent)).toFinset.card ≤ 15 →
        (f.wiring.propagate Wiring.maxPasses changes).run f.table = .ok made u) := by
  have hform : IsOf d { form with table := f.table } :=
    (isOf_of_build hbuild).with_table hdecl hpending
  have hof : IsOf d f := by
    refine ⟨hwiring.trans hform.wiring, hform.declarations, hform.nodup, ?_, ?_, hpending⟩
    · rw [hwiring]
      exact hform.fits
    · rw [hwiring]
      exact hform.apart
  have hdeps : f.wiring.dependents = (d.cascades.map (·.dependent)).toFinset := by
    rw [hof.wiring]
    rfl
  constructor
  · intro c
    constructor
    · obtain ⟨runs, u, hruns, halike⟩ := exists_reacts_after hof c
      refine ⟨runs, u, hruns, ?_⟩
      rwa [call_eq_after hof]
    · intro runs u hruns
      exact hruns.pairwise (hof.fits.congr (declarations_written f c))
  · intro changes
    -- the changes are those that the fields would have before they are taken
    have hfits : f.wiring.Fits ({ f.table with pending := changes } : FieldTable).names := hof.fits
    have hdrain : ({ f.table with pending := changes } : FieldTable).drain = f.table :=
      FieldTable.drain_of_pending hpending
    have hcard : (f.wiring.uncleared { f.table with pending := changes }).card <
        (d.cascades.map (·.dependent)).toFinset.card + 1 := by
      rw [← hdeps]
      exact Nat.lt_succ_of_le (Wiring.card_uncleared_le _ _)
    obtain ⟨n, made, u, hn, hsettles⟩ := Wiring.exists_settles hfits hcard
    rw [hdrain] at hsettles
    refine ⟨n, made, u, hn, fun n' made' u' => ⟨hsettles.unique, ?_⟩, fun hfew => ?_⟩
    · rintro ⟨rfl, rfl, rfl⟩
      exact hsettles
    · have hlimit : n ≤ Wiring.maxPasses := hn.trans (Nat.succ_le_succ hfew)
      exact hsettles.run_propagate hlimit

/-- Two fields that offer each other's value; the second one also offers its own. -/
def ring : Definition where
  title := "Ring"
  declarations := [.select "left" "Left" [] (.text ""), .select "right" "Right" [] (.text "")]
  rules := []
  cascades :=
    [⟨["left", "right"], "right", List.map fun v => ⟨v.asText, v⟩⟩,
      ⟨["right"], "left", List.map fun v => ⟨v.asText, v⟩⟩,
      ⟨["left"], "right", List.map fun v => ⟨v.asText, v⟩⟩]
  checks := ⟨[], []⟩

/-- The ring with another text on either side than it offers. -/
def filledRing : Form :=
  { ring.opened with
    table := ((ring.opened.table.putValue "left" (.text "a")).putValue "right" (.text "b")).drain }

/-- The same fields with a change on the left that is still to be taken. -/
def leftChanged : FieldTable :=
  { filledRing.table with pending := [⟨"left", .value⟩] }

/-- Either text is cleared by a run of a cascade, and by no second one.  After a change on the left, this takes
three passes, as many as two dependents can: the right text is cleared in the first one, the left text in the
second one, and the third one finds nothing more to clear. -/
theorem propagation_ends_ring : build ring = .ok ring.opened ∧
    filledRing.table.declarations = ring.opened.table.declarations ∧ filledRing.table.pending = [] ∧
    filledRing.table.valueAt "left" = .text "a" ∧ filledRing.table.valueAt "right" = .text "b" ∧
    (∃ runs u, filledRing.wiring.Reacts (filledRing.written .refresh) runs u ∧
      u.Alike (filledRing.call .refresh).1.table ∧
      ∀ name ∈ ["left", "right"], (∃ r ∈ runs, r.Changes name) ∧
        runs.Pairwise fun r s => r.Changes name → ¬ s.Changes name) ∧
    ∃ made u, filledRing.wiring.Settles [⟨"left", .value⟩] filledRing.table 3 made u ∧
      (filledRing.wiring.propagate Wiring.maxPasses [⟨"left", .value⟩]).run filledRing.table = .ok made u ∧
      u.valueAt "left" = .text "" ∧ u.valueAt "right" = .text "" := by
  have hbuild : build ring = .ok ring.opened :=
    build_of_checkParts (by decide +kernel) (by decide +kernel)
  have hdecl : filledRing.table.declarations = ring.opened.table.declarations := by
    rw [filledRing, FieldTable.declarations_drain, FieldTable.declarations_putValue,
      FieldTable.declarations_putValue]
  have hfits : filledRing.wiring.Fits filledRing.table.names := (isOf_of_build hbuild).fits.congr hdecl
  obtain ⟨hcalls, hpasses⟩ := propagation_ends (f := filledRing) hbuild rfl hdecl rfl
  refine ⟨hbuild, hdecl, rfl, by decide +kernel, by decide +kernel, ?_, ?_⟩
  · obtain ⟨⟨runs, u, hruns, halike⟩, honce⟩ := hcalls .refresh
    have hcleared : ∀ name ∈ ["left", "right"],
        (filledRing.call .refresh).1.table.valueAt name ≠ filledRing.table.valueAt name := by
      decide +kernel
    refine ⟨runs, u, hruns, halike, fun name hname => ⟨?_, honce runs u hruns name⟩⟩
    refine hruns.exists_changes_of_ne hfits ?_
    rw [← halike.valueAt]
    exact hcleared name hname
  · have hnews : ∀ k < 3, (filledRing.wiring.pass^[k] leftChanged).news ≠ [] := by decide +kernel
    have hquiet : (filledRing.wiring.pass^[3] leftChanged).news = [] := by decide +kernel
    have hthree := Wiring.settles_iterate_pass (t := leftChanged) hfits hnews hquiet
    obtain ⟨n, made, u, -, hsettles, hlimited⟩ := hpasses [⟨"left", .value⟩]
    obtain ⟨rfl, rfl, rfl⟩ := (hsettles _ _ _).mp hthree
    exact ⟨_, _, hthree, hlimited (by decide), by decide +kernel, by decide +kernel⟩

end Calls

end Form

end FormConsole
