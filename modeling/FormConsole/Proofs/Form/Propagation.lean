import FormConsole.Proofs.Cascade
import Mathlib.Data.Finset.Card
import Mathlib.Logic.Function.Iterate

/-!
# Passes as functions on tables

A pass takes the news of a table, lets the rules and then the cascades that watch them react, and leaves the
news that the cascades made.  A table without news is left alone, so that passes can be iterated without
asking whether they are over.

* `Wiring.reacted`, `Wiring.reactedAll`, `Wiring.pass`: what one pass, or a reaction of everything, does to a
  table; `Wiring.run_propagate`, `Wiring.run_refresh` say that the edits do it.
* `Wiring.news_iterate_pass`: a dependent is cleared at most once, so that there are news only for as many
  passes as there are dependents.
* `Wiring.rules_abreast_pass`, `Wiring.cascade_abreast_pass`, `Wiring.held_pass`: what is out of line
  with the values at the end of a pass watches one of its news.
* `Wiring.reactedAll_eq_self_iff`: a reaction of everything changes nothing exactly if all is in line.
-/

namespace FormConsole

namespace Wiring

/-- All names that the rules and the cascades mention are among these. -/
structure Fits (w : Wiring) (names : List String) : Prop where
  rules : w.rules.Fits names
  cascades : ∀ c ∈ w.cascades, c.Fits names

/-- What is declared decides what fits. -/
theorem Fits.congr {w : Wiring} {t t' : FieldTable} (h : w.Fits t.names)
    (hdecl : t'.declarations = t.declarations) : w.Fits t'.names := by
  rwa [FieldTable.names_congr hdecl]

/-! ## Passes -/

section Passes

variable (w : Wiring)

/-- The table after the rules reacted, if they watch one of these fields. -/
def ruled (changed : List String) (t : FieldTable) : FieldTable :=
  if changed.any w.rules.watches then w.rules.evaluated t else t

/-- The cascades that watch one of these fields. -/
def awakened (changed : List String) : List Cascade :=
  w.cascades.filter fun c => changed.any c.watches

/-- The table after the rules and the cascades that watch one of these fields reacted. -/
def reacted (changed : List String) (t : FieldTable) : FieldTable :=
  (w.awakened changed).foldl Cascade.recomputed (w.ruled changed t)

/-- The table after everything reacted. -/
def reactedAll (t : FieldTable) : FieldTable :=
  w.cascades.foldl Cascade.recomputed (w.rules.evaluated t)

/-- The table after a pass over its news. -/
def pass (t : FieldTable) : FieldTable :=
  if t.news = [] then t else w.reacted t.news t.drain

/-- All changes that are made by that many passes, after those that the table starts with. -/
def history : Nat → FieldTable → List Change
  | 0, t => t.pending
  | n + 1, t => if t.news = [] then t.pending else t.pending ++ history n (w.pass t)

/-- At most that many passes over the changes nobody has reacted to. -/
def settleWithin (passes : Nat) : Edit (List Change) := do
  let changes ← Edit.takeChanges
  w.propagate passes changes

/-- The table after the passes that one call makes. -/
def settled (t : FieldTable) : FieldTable :=
  (w.pass^[maxPasses] t).drain

/-- The table after everything reacted and the passes followed. -/
def refreshed (t : FieldTable) : FieldTable :=
  w.settled (w.reactedAll t)

theorem settle_eq_settleWithin : w.settle = w.settleWithin maxPasses := rfl

theorem pass_of_quiet {t : FieldTable} (h : t.news = []) : w.pass t = t := if_pos h

theorem iterate_pass_of_quiet {t : FieldTable} (h : t.news = []) (n : Nat) : w.pass^[n] t = t :=
  Function.iterate_fixed (w.pass_of_quiet h) n

theorem history_of_quiet {t : FieldTable} (h : t.news = []) (n : Nat) :
    w.history n t = t.pending := by
  cases n with
  | zero => rfl
  | succ n => exact if_pos h

/-- One pass more makes the changes that the table has after it. -/
theorem history_succ (n : Nat) (t : FieldTable) :
    w.history (n + 1) t = w.history n t ++
      if (w.pass^[n] t).news = [] then [] else (w.pass^[n + 1] t).pending := by
  induction n generalizing t with
  | zero =>
    rw [history]
    by_cases h : t.news = []
    · simp [history, h]
    · simp [history, h]
  | succ n ih =>
    by_cases h : t.news = []
    · simp [history_of_quiet, iterate_pass_of_quiet, h]
    · rw [history, if_neg h, ih, history, if_neg h, List.append_assoc]
      rfl

theorem pending_prefix_history (n : Nat) (t : FieldTable) : t.pending <+: w.history n t := by
  cases n with
  | zero => exact List.prefix_refl _
  | succ n =>
    rw [history]
    split
    · exact List.prefix_refl _
    · exact List.prefix_append _ _

end Passes

/-! ## The edits make these passes -/

section Run

variable {w : Wiring} {t : FieldTable}

theorem Fits.dependent_mem {names : List String} (h : w.Fits names) {c : Cascade}
    (hc : c ∈ w.cascades) : c.dependent ∈ names :=
  (h.cascades c hc).dependent

theorem mem_awakened {changed : List String} {c : Cascade} :
    c ∈ w.awakened changed ↔ c ∈ w.cascades ∧ ∃ n ∈ changed, c.watches n = true := by
  rw [awakened, List.mem_filter, List.any_eq_true]

@[simp] theorem declarations_ruled (changed : List String) (t : FieldTable) :
    (w.ruled changed t).declarations = t.declarations := by
  unfold ruled
  split
  · exact RuleSet.declarations_evaluated _ t
  · rfl

@[simp] theorem valueAt_ruled (changed : List String) (t : FieldTable) (name : String) :
    (w.ruled changed t).valueAt name = t.valueAt name := by
  unfold ruled
  split
  · exact RuleSet.valueAt_evaluated _ t name
  · rfl

@[simp] theorem choicesAt_ruled (changed : List String) (t : FieldTable) (name : String) :
    (w.ruled changed t).choicesAt name = t.choicesAt name := by
  unfold ruled
  split
  · exact RuleSet.choicesAt_evaluated _ t name
  · rfl

@[simp] theorem news_ruled (changed : List String) (t : FieldTable) :
    (w.ruled changed t).news = t.news := by
  unfold ruled
  split
  · exact RuleSet.news_evaluated _ t
  · rfl

theorem extends_ruled (changed : List String) (t : FieldTable) :
    t.Extends (w.ruled changed t) := by
  unfold ruled
  split
  · exact RuleSet.extends_evaluated _ t
  · exact FieldTable.Extends.refl t

@[simp] theorem names_ruled (changed : List String) (t : FieldTable) :
    (w.ruled changed t).names = t.names :=
  FieldTable.names_congr (declarations_ruled changed t)

@[simp] theorem declarations_reacted (changed : List String) (t : FieldTable) :
    (w.reacted changed t).declarations = t.declarations := by
  rw [reacted, Cascade.declarations_foldl_recomputed, declarations_ruled]

@[simp] theorem declarations_reactedAll (t : FieldTable) :
    (w.reactedAll t).declarations = t.declarations := by
  rw [reactedAll, Cascade.declarations_foldl_recomputed, RuleSet.declarations_evaluated]

@[simp] theorem declarations_pass (t : FieldTable) :
    (w.pass t).declarations = t.declarations := by
  unfold pass
  split
  · rfl
  · rw [declarations_reacted, FieldTable.declarations_drain]

@[simp] theorem declarations_iterate_pass (n : Nat) (t : FieldTable) :
    (w.pass^[n] t).declarations = t.declarations := by
  induction n with
  | zero => rfl
  | succ n ih => rw [Function.iterate_succ_apply', declarations_pass, ih]

@[simp] theorem declarations_settled (t : FieldTable) :
    (w.settled t).declarations = t.declarations := by
  rw [settled, FieldTable.declarations_drain, declarations_iterate_pass]

@[simp] theorem declarations_refreshed (t : FieldTable) :
    (w.refreshed t).declarations = t.declarations := by
  rw [refreshed, declarations_settled, declarations_reactedAll]

theorem settled_of_quiet (h : t.pending = []) : w.settled t = t := by
  have hnews : t.news = [] := by rw [FieldTable.news, h]; rfl
  rw [settled, iterate_pass_of_quiet w hnews, FieldTable.drain_of_pending h]

theorem run_reactRules (h : w.Fits t.names) :
    w.reactRules.run t = .ok () (w.rules.evaluated t) := by
  obtain ⟨changed, hrun⟩ := RuleSet.run_evaluate h.rules
  rw [reactRules, Edit.run_bind_of_ok hrun]
  rfl

theorem run_cascades {cs : List Cascade} (hcs : ∀ c ∈ cs, c.Fits t.names) :
    (cs.forM Cascade.recompute).run t = .ok () (cs.foldl Cascade.recomputed t) := by
  refine Edit.run_forM_of_ok (P := fun u => u.names = t.names) ?_ ?_ t rfl
  · intro c hc u hu
    refine Cascade.run_recompute ?_
    rw [hu]
    exact hcs c hc
  · intro u c hu
    rw [Cascade.names_recomputed, hu]

theorem run_react (h : w.Fits t.names) (changed : List String) :
    (w.react changed).run t = .ok () (w.reacted changed t) := by
  have hcascades : ∀ c ∈ w.awakened changed, c.Fits (w.ruled changed t).names := by
    intro c hc
    rw [names_ruled]
    exact h.cascades c (mem_awakened.mp hc).1
  have hrun := run_cascades hcascades
  rw [react, reacted, ← hrun, ruled]
  split
  · exact Edit.run_bind_of_ok (run_reactRules h)
  · rfl

theorem run_reactAll (h : w.Fits t.names) : w.reactAll.run t = .ok () (w.reactedAll t) := by
  rw [reactAll, Edit.run_bind_of_ok (run_reactRules h)]
  refine run_cascades fun c hc => ?_
  rw [RuleSet.names_evaluated]
  exact h.cascades c hc

theorem run_pass (h : w.Fits t.names) (hnews : t.news ≠ []) :
    (w.react t.news).run t.drain = .ok () (w.pass t) := by
  rw [pass, if_neg hnews]
  exact run_react (t := t.drain) h t.news

theorem run_propagate (h : w.Fits t.names) (n : Nat) :
    (w.propagate n t.pending).run t.drain = .ok (w.history n t) (w.pass^[n] t).drain := by
  induction n generalizing t with
  | zero => rfl
  | succ n ih =>
    by_cases hnews : t.news = []
    · rw [propagate_of_quiet w _ hnews, history_of_quiet w hnews, iterate_pass_of_quiet w hnews]
      rfl
    · have hfits : w.Fits (w.pass t).names := h.congr (declarations_pass t)
      have hne : ¬ (changedValues t.pending).isEmpty = true := by
        rwa [List.isEmpty_iff]
      rw [propagate, if_neg hne, history, if_neg hnews, Function.iterate_succ_apply]
      exact (Edit.run_bind_of_ok (run_pass h hnews)).trans <|
        (Edit.run_bind_of_ok (Edit.run_takeChanges _)).trans (Edit.run_bind_of_ok (ih hfits))

theorem run_settleWithin (h : w.Fits t.names) (n : Nat) :
    (w.settleWithin n).run t = .ok (w.history n t) (w.pass^[n] t).drain := by
  rw [settleWithin, Edit.run_bind_of_ok (Edit.run_takeChanges t)]
  exact run_propagate h n

theorem run_refresh (h : w.Fits t.names) :
    w.refresh.run t = .ok (w.history maxPasses (w.reactedAll t)) (w.refreshed t) := by
  have hfits : w.Fits (w.reactedAll t).names := h.congr (declarations_reactedAll t)
  rw [refresh, Edit.run_bind_of_ok (run_reactAll h), settle_eq_settleWithin]
  exact run_settleWithin hfits maxPasses

end Run

/-! ## When the passes end -/

section Quiet

variable {w : Wiring} {t : FieldTable}

/-- The fields whose choices some cascade computes. -/
def dependents (w : Wiring) : Finset String :=
  (w.cascades.map (·.dependent)).toFinset

theorem mem_dependents {c : Cascade} (hc : c ∈ w.cascades) : c.dependent ∈ w.dependents :=
  List.mem_toFinset.mpr (List.mem_map.mpr ⟨c, hc, rfl⟩)

/-- The dependents that can still be cleared. -/
def uncleared (w : Wiring) (t : FieldTable) : Finset String :=
  w.dependents.filter fun n => t.valueAt n ≠ (t.valueAt n).cleared

theorem uncleared_congr {t' : FieldTable} (h : ∀ n, t'.valueAt n = t.valueAt n) :
    w.uncleared t' = w.uncleared t := by
  simp only [uncleared, h]

/-- A run of a cascade pays for its news with a dependent that was not cleared before. -/
theorem card_uncleared_recomputed {c : Cascade} (hc : c ∈ w.cascades)
    (hmem : c.dependent ∈ t.names) :
    (w.uncleared (Cascade.recomputed t c)).card + (Cascade.recomputed t c).news.length ≤
      (w.uncleared t).card + t.news.length := by
  by_cases hv : t.valueAt c.dependent = Cascade.surviving (c.offered t) (t.valueAt c.dependent)
  · have hvalues : ∀ n, (Cascade.recomputed t c).valueAt n = t.valueAt n := by
      intro n
      rw [Cascade.valueAt_recomputed hmem, ← hv]
      split
      · next hn => rw [hn]
      · rfl
    rw [uncleared_congr hvalues, Cascade.news_recomputed hmem, if_pos hv, List.append_nil]
  · have hcleared := Cascade.surviving_of_ne fun h => hv h.symm
    have hold : c.dependent ∈ w.uncleared t := by
      refine Finset.mem_filter.mpr ⟨mem_dependents hc, ?_⟩
      rwa [← hcleared]
    have hsub : w.uncleared (Cascade.recomputed t c) ⊆ (w.uncleared t).erase c.dependent := by
      intro n hn
      obtain ⟨hdep, hne⟩ := Finset.mem_filter.mp hn
      rw [Cascade.valueAt_recomputed hmem] at hne
      by_cases hname : n = c.dependent
      · rw [if_pos hname, hcleared] at hne
        exact absurd (Value.cleared_cleared _).symm hne
      · rw [if_neg hname] at hne
        exact Finset.mem_erase.mpr ⟨hname, Finset.mem_filter.mpr ⟨hdep, hne⟩⟩
    have hcard := Finset.card_le_card hsub
    have hpos := Finset.card_pos.mpr ⟨_, hold⟩
    rw [Finset.card_erase_of_mem hold] at hcard
    rw [Cascade.news_recomputed hmem, if_neg hv, List.length_append, List.length_singleton]
    omega

theorem card_uncleared_foldl {cs : List Cascade} (hcs : ∀ c ∈ cs, c ∈ w.cascades)
    (hmem : ∀ c ∈ cs, c.dependent ∈ t.names) :
    (w.uncleared (cs.foldl Cascade.recomputed t)).card +
        (cs.foldl Cascade.recomputed t).news.length ≤
      (w.uncleared t).card + t.news.length := by
  induction cs generalizing t with
  | nil => exact le_refl _
  | cons c cs ih =>
    have hfirst := card_uncleared_recomputed (hcs c (by simp)) (hmem c (by simp))
    have hrest := ih (t := Cascade.recomputed t c) (fun d hd => hcs d (by simp [hd])) fun d hd => by
      rw [Cascade.names_recomputed]
      exact hmem d (by simp [hd])
    rw [List.foldl_cons]
    exact hrest.trans hfirst

/-- A pass pays for the news it leaves, not for those it takes. -/
theorem card_uncleared_pass (h : w.Fits t.names) (hnews : t.news ≠ []) :
    (w.uncleared (w.pass t)).card + (w.pass t).news.length ≤ (w.uncleared t).card := by
  have hmem : ∀ c ∈ w.awakened t.news, c.dependent ∈ (w.ruled t.news t.drain).names := by
    intro c hc
    rw [names_ruled]
    exact h.dependent_mem (mem_awakened.mp hc).1
  have hfold := card_uncleared_foldl (fun c hc => (mem_awakened.mp hc).1) hmem
  rw [uncleared_congr (valueAt_ruled t.news t.drain), news_ruled] at hfold
  rw [pass, if_neg hnews]
  exact hfold

/-- The passes are over when more of them were made than there are dependents to clear. -/
theorem news_iterate_pass (h : w.Fits t.names) {n : Nat} (hn : (w.uncleared t).card < n) :
    (w.pass^[n] t).news = [] := by
  induction n generalizing t with
  | zero => omega
  | succ n ih =>
    by_cases hnews : t.news = []
    · rw [iterate_pass_of_quiet w hnews]
      exact hnews
    · rw [Function.iterate_succ_apply]
      by_cases hnext : (w.pass t).news = []
      · rw [iterate_pass_of_quiet w hnext]
        exact hnext
      · refine ih (h.congr (declarations_pass t)) ?_
        have hcard := card_uncleared_pass h hnews
        have hpos := List.length_pos_iff.mpr hnext
        omega

theorem card_uncleared_le (w : Wiring) (t : FieldTable) :
    (w.uncleared t).card ≤ w.dependents.card :=
  Finset.card_le_card (Finset.filter_subset _ _)

theorem card_dependents_le (w : Wiring) : w.dependents.card ≤ w.cascades.length := by
  refine (List.toFinset_card_le _).trans ?_
  rw [List.length_map]

end Quiet

/-! ## What is out of line watches the news -/

section OnePass

variable {w : Wiring} {t : FieldTable} {c : Cascade}

theorem dependent_mem_ruled (h : w.Fits t.names) {changed : List String} :
    ∀ c ∈ w.awakened changed, c.dependent ∈ (w.ruled changed t).names := by
  intro c hc
  rw [names_ruled]
  exact h.dependent_mem (mem_awakened.mp hc).1

theorem dependent_mem_evaluated (h : w.Fits t.names) :
    ∀ c ∈ w.cascades, c.dependent ∈ (w.rules.evaluated t).names := by
  intro c hc
  rw [RuleSet.names_evaluated]
  exact h.dependent_mem hc

/-- Of cascades into pairwise different fields, those that are not awakened keep their fields to themselves.
-/
theorem dependent_not_mem_awakened (hnodup : (w.cascades.map (·.dependent)).Nodup)
    (hc : c ∈ w.cascades) {changed : List String} (h : c ∉ w.awakened changed) :
    c.dependent ∉ (w.awakened changed).map (·.dependent) := by
  intro hmem
  obtain ⟨d, hd, hname⟩ := List.mem_map.mp hmem
  have heq := List.inj_on_of_nodup_map hnodup (mem_awakened.mp hd).1 hc hname
  exact h (heq ▸ hd)

theorem nodup_awakened (hnodup : (w.cascades.map (·.dependent)).Nodup) (changed : List String) :
    ((w.awakened changed).map (·.dependent)).Nodup :=
  hnodup.sublist (List.filter_sublist.map _)

theorem aligned_of_unwatched (ha : w.rules.Abreast t)
    (hwatch : ¬ t.news.any w.rules.watches = true) : w.rules.Aligned t := by
  refine ha fun n hn => ?_
  by_contra hne
  exact hwatch (List.any_eq_true.mpr ⟨n, hn, by simpa using hne⟩)

theorem tracks_of_not_awakened (ha : c.Abreast t) (hc : c ∈ w.cascades)
    (hawake : c ∉ w.awakened t.news) : c.Tracks t := by
  refine ha fun n hn => ?_
  by_contra hne
  exact hawake (mem_awakened.mpr ⟨hc, n, hn, by simpa using hne⟩)

/-- After a pass, constraints are out of line only if the rules watch its news. -/
theorem rules_abreast_pass (h : w.Fits t.names) (ha : w.rules.Abreast t) :
    w.rules.Abreast (w.pass t) := by
  unfold pass
  split
  · exact ha
  · have hruled : w.rules.Abreast (w.ruled t.news t.drain) := by
      unfold ruled
      split
      · exact (RuleSet.aligned_evaluated _ _).abreast
      · next hwatch => exact (aligned_of_unwatched ha hwatch).drain.abreast
    exact hruled.foldl_recomputed (dependent_mem_ruled (t := t.drain) h)

/-- After a pass, choices are out of line only if their cascade watches its news. -/
theorem cascade_abreast_pass (h : w.Fits t.names)
    (hnodup : (w.cascades.map (·.dependent)).Nodup) (hc : c ∈ w.cascades) (ha : c.Abreast t) :
    c.Abreast (w.pass t) := by
  have hmem : ∀ c ∈ w.awakened t.news, c.dependent ∈ (w.ruled t.news t.drain).names :=
    dependent_mem_ruled (t := t.drain) h
  unfold pass
  split
  · exact ha
  · by_cases hawake : c ∈ w.awakened t.news
    · exact Cascade.abreast_foldl_of_mem hawake (nodup_awakened hnodup _) hmem
    · have htracks := tracks_of_not_awakened ha hc hawake
      have hruled : c.Abreast (w.ruled t.news t.drain) := fun _ =>
        htracks.congr (valueAt_ruled t.news t.drain) (choicesAt_ruled t.news t.drain)
      exact hruled.foldl hmem (dependent_not_mem_awakened hnodup hc hawake)

/-- A pass leaves the fields alone that no awakened cascade writes. -/
theorem untouched_pass (h : w.Fits t.names) {name : String}
    (hname : name ∉ (w.awakened t.news).map (·.dependent)) :
    (w.pass t).valueAt name = t.valueAt name ∧
      (w.pass t).choicesAt name = t.choicesAt name := by
  unfold pass
  split
  · exact ⟨rfl, rfl⟩
  · obtain ⟨hvalue, hchoices⟩ :=
      Cascade.untouched_foldl (dependent_mem_ruled (t := t.drain) h) hname
    rw [valueAt_ruled] at hvalue
    rw [choicesAt_ruled] at hchoices
    exact ⟨hvalue, hchoices⟩

/-- Of a value that was held, a pass leaves what is among the choices after the pass. -/
theorem valueAt_pass (h : w.Fits t.names) (hnodup : (w.cascades.map (·.dependent)).Nodup)
    (hc : c ∈ w.cascades) (hheld : c.Held t) :
    (w.pass t).valueAt c.dependent =
      Cascade.surviving ((w.pass t).choicesAt c.dependent) (t.valueAt c.dependent) := by
  by_cases hawake : c ∈ w.awakened t.news
  · have hnews : t.news ≠ [] := by
      obtain ⟨n, hn, -⟩ := (mem_awakened.mp hawake).2
      exact List.ne_nil_of_mem hn
    have hfold := Cascade.valueAt_foldl_of_mem hawake (nodup_awakened hnodup _)
      (dependent_mem_ruled (t := t.drain) h)
    rw [valueAt_ruled] at hfold
    rw [pass, if_neg hnews]
    exact hfold
  · obtain ⟨hvalue, hchoices⟩ :=
      untouched_pass h (dependent_not_mem_awakened hnodup hc hawake)
    rw [hvalue, hchoices]
    exact hheld.symm

theorem held_pass (h : w.Fits t.names) (hnodup : (w.cascades.map (·.dependent)).Nodup)
    (hc : c ∈ w.cascades) (hheld : c.Held t) : c.Held (w.pass t) := by
  rw [Cascade.Held, valueAt_pass h hnodup hc hheld]
  exact Cascade.surviving_surviving

theorem bare_pass (hb : w.rules.Bare t) : w.rules.Bare (w.pass t) := by
  unfold pass
  split
  · exact hb
  · have hruled : w.rules.Bare (w.ruled t.news t.drain) := by
      unfold ruled
      split
      · exact RuleSet.bare_evaluated (t := t.drain) hb
      · exact hb
    exact hruled.congr (Cascade.sameConstraints_foldl _ _)

/-- The news of a pass are dependents of cascades that watch the news before it. -/
theorem mem_news_pass (h : w.Fits t.names) {name : String} (hname : name ∈ (w.pass t).news) :
    ∃ c ∈ w.cascades, c.dependent = name ∧ ∃ n ∈ t.news, c.watches n = true := by
  unfold pass at hname
  split at hname
  · next hnews => simp [hnews] at hname
  · rcases Cascade.mem_news_foldl (dependent_mem_ruled (t := t.drain) h) hname with hold | hnew
    · simp at hold
    · obtain ⟨c, hc, hdep⟩ := hnew
      obtain ⟨hmem, hwatch⟩ := mem_awakened.mp hc
      exact ⟨c, hmem, hdep, hwatch⟩

/-- What every pass keeps is kept by any number of them. -/
theorem iterate_pass_induct {P : FieldTable → Prop}
    (hstep : ∀ u, w.Fits u.names → P u → P (w.pass u)) (h : w.Fits t.names) (ht : P t) (n : Nat) :
    P (w.pass^[n] t) := by
  induction n with
  | zero => exact ht
  | succ n ih =>
    rw [Function.iterate_succ_apply']
    exact hstep _ (h.congr (declarations_iterate_pass n t)) ih

end OnePass

/-! ## A whole call -/

section Settled

variable {w : Wiring} {t : FieldTable} {c : Cascade}

theorem bare_settled (h : w.Fits t.names) (hb : w.rules.Bare t) : w.rules.Bare (w.settled t) := by
  have hpasses := iterate_pass_induct (P := w.rules.Bare) (fun _ _ => bare_pass) h hb maxPasses
  exact hpasses.drain

/-- If there are fewer dependents than passes, no news are left when a call is over. -/
theorem news_passes (h : w.Fits t.names) (hdeps : w.dependents.card < maxPasses) :
    (w.pass^[maxPasses] t).news = [] :=
  news_iterate_pass h ((card_uncleared_le w t).trans_lt hdeps)

theorem aligned_settled (h : w.Fits t.names) (hdeps : w.dependents.card < maxPasses)
    (ha : w.rules.Abreast t) : w.rules.Aligned (w.settled t) := by
  have hpasses := iterate_pass_induct (P := w.rules.Abreast) (fun _ => rules_abreast_pass) h ha
    maxPasses
  exact (hpasses.aligned (news_passes h hdeps)).drain

theorem tracks_settled (h : w.Fits t.names) (hdeps : w.dependents.card < maxPasses)
    (hnodup : (w.cascades.map (·.dependent)).Nodup) (hc : c ∈ w.cascades) (ha : c.Abreast t) :
    c.Tracks (w.settled t) := by
  have hpasses := iterate_pass_induct (P := c.Abreast)
    (fun _ hfits => cascade_abreast_pass hfits hnodup hc) h ha maxPasses
  exact (hpasses.tracks (news_passes h hdeps)).drain

theorem held_settled (h : w.Fits t.names) (hnodup : (w.cascades.map (·.dependent)).Nodup)
    (hc : c ∈ w.cascades) (hheld : c.Held t) : c.Held (w.settled t) := by
  have hpasses := iterate_pass_induct (P := c.Held)
    (fun _ hfits => held_pass hfits hnodup hc) h hheld maxPasses
  exact hpasses.drain

end Settled

/-! ## A reaction of everything -/

section Everything

variable {w : Wiring} {t : FieldTable} {c : Cascade}

theorem rules_abreast_reactedAll (h : w.Fits t.names) : w.rules.Abreast (w.reactedAll t) :=
  (RuleSet.aligned_evaluated w.rules t).abreast.foldl_recomputed (dependent_mem_evaluated h)

theorem bare_reactedAll (hb : w.rules.Bare t) : w.rules.Bare (w.reactedAll t) :=
  (RuleSet.bare_evaluated hb).congr (Cascade.sameConstraints_foldl _ _)

theorem cascade_abreast_reactedAll (h : w.Fits t.names)
    (hnodup : (w.cascades.map (·.dependent)).Nodup) (hc : c ∈ w.cascades) :
    c.Abreast (w.reactedAll t) :=
  Cascade.abreast_foldl_of_mem hc hnodup (dependent_mem_evaluated h)

theorem held_reactedAll (h : w.Fits t.names) (hnodup : (w.cascades.map (·.dependent)).Nodup)
    (hc : c ∈ w.cascades) : c.Held (w.reactedAll t) := by
  rw [Cascade.Held, reactedAll,
    Cascade.valueAt_foldl_of_mem hc hnodup (dependent_mem_evaluated h)]
  exact Cascade.surviving_surviving

theorem bare_refreshed (h : w.Fits t.names) (hb : w.rules.Bare t) :
    w.rules.Bare (w.refreshed t) :=
  bare_settled (h.congr (declarations_reactedAll t)) (bare_reactedAll hb)

theorem aligned_refreshed (h : w.Fits t.names) (hdeps : w.dependents.card < maxPasses) :
    w.rules.Aligned (w.refreshed t) :=
  aligned_settled (h.congr (declarations_reactedAll t)) hdeps (rules_abreast_reactedAll h)

theorem tracks_refreshed (h : w.Fits t.names) (hdeps : w.dependents.card < maxPasses)
    (hnodup : (w.cascades.map (·.dependent)).Nodup) (hc : c ∈ w.cascades) :
    c.Tracks (w.refreshed t) :=
  tracks_settled (h.congr (declarations_reactedAll t)) hdeps hnodup hc
    (cascade_abreast_reactedAll h hnodup hc)

theorem held_refreshed (h : w.Fits t.names) (hnodup : (w.cascades.map (·.dependent)).Nodup)
    (hc : c ∈ w.cascades) : c.Held (w.refreshed t) :=
  held_settled (h.congr (declarations_reactedAll t)) hnodup hc (held_reactedAll h hnodup hc)

/-- Constraints, choices and values are what a reaction of everything would make them. -/
structure InLine (w : Wiring) (t : FieldTable) : Prop where
  aligned : w.rules.Aligned t
  tracks : ∀ c ∈ w.cascades, c.Tracks t
  held : ∀ c ∈ w.cascades, c.Held t

theorem extends_reactedAll (t : FieldTable) : t.Extends (w.reactedAll t) :=
  (RuleSet.extends_evaluated w.rules t).trans
    (FieldTable.extends_foldl Cascade.extends_recomputed w.cascades _)

/-- What is in line does not react. -/
theorem reacted_of_inLine (h : w.Fits t.names) (hin : w.InLine t) (changed : List String) :
    w.reacted changed t = t := by
  have hruled : w.ruled changed t = t := by
    unfold ruled
    split
    · exact RuleSet.evaluated_of_aligned hin.aligned
    · rfl
  rw [reacted, hruled]
  refine FieldTable.foldl_eq_self fun c hc => ?_
  have hmem := (mem_awakened.mp hc).1
  exact (Cascade.recomputed_eq_self_iff (h.dependent_mem hmem)).mpr
    ⟨hin.tracks c hmem, hin.held c hmem⟩

/-- A reaction of everything changes nothing exactly if all is in line. -/
theorem reactedAll_eq_self_iff (h : w.Fits t.names) : w.reactedAll t = t ↔ w.InLine t := by
  refine ⟨?_, ?_⟩
  · intro heq
    -- nothing was recorded at the end, so nothing was recorded on the way
    obtain ⟨hfirst, hcascades⟩ := Cascade.eq_of_foldl_eq (RuleSet.extends_evaluated w.rules t) heq
    have hline : ∀ c ∈ w.cascades, c.Tracks t ∧ c.Held t := fun c hc =>
      (Cascade.recomputed_eq_self_iff (h.dependent_mem hc)).mp (hcascades c hc)
    exact ⟨RuleSet.aligned_iff_evaluated_eq.mpr hfirst, fun c hc => (hline c hc).1,
      fun c hc => (hline c hc).2⟩
  · intro hin
    rw [reactedAll, RuleSet.evaluated_of_aligned hin.aligned]
    exact FieldTable.foldl_eq_self fun c hc =>
      (Cascade.recomputed_eq_self_iff (h.dependent_mem hc)).mpr ⟨hin.tracks c hc, hin.held c hc⟩

/-- A refresh reports no change exactly if all is in line, and then it makes none. -/
theorem run_refresh_eq_iff (h : w.Fits t.names) (hp : t.pending = []) :
    w.refresh.run t = .ok [] t ↔ w.InLine t := by
  rw [run_refresh h, ← reactedAll_eq_self_iff h]
  refine ⟨?_, ?_⟩
  · intro hrun
    have hhistory : w.history maxPasses (w.reactedAll t) = [] := by
      injection hrun
    have hpending : (w.reactedAll t).pending = [] := by
      have hprefix := pending_prefix_history w maxPasses (w.reactedAll t)
      rw [hhistory] at hprefix
      exact List.prefix_nil.mp hprefix
    refine (extends_reactedAll t).eq_of_length_le ?_
    rw [hpending, hp]
  · intro heq
    have hnews : t.news = [] := by rw [FieldTable.news, hp]; rfl
    rw [refreshed, heq, settled_of_quiet hp, history_of_quiet w hnews, hp]

end Everything

end Wiring

end FormConsole
