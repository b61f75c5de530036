import FormConsole.Proofs.Form.Call
import FormConsole.Proofs.Form.Dependency

/-!
# When a change has settled

The passes of a call are limited, so that they may end before the changes do.  Whatever is out of line then
watches the news of the last pass.  So one pass more tells whether the changes had settled, and if they had
not it goes on with them.

* `Form.AtRest`: a refresh would change nothing.
* `Form.atRest_setWithin_iff`: a call left the form at rest exactly if one pass more would have done nothing.
* `Form.atRest_set`: what this says about the passes of a call, with a chain of cascades that is longer
  (`Form.exists_not_atRest`).
-/

namespace FormConsole

namespace Wiring

section Abreast

variable {w : Wiring} {t : FieldTable}

/-- Whatever is out of line watches the news, and no dependent holds a value that it does not offer. -/
structure Abreast (w : Wiring) (t : FieldTable) : Prop where
  rules : w.rules.Abreast t
  cascades : ∀ c ∈ w.cascades, c.Abreast t
  held : ∀ c ∈ w.cascades, c.Held t

theorem abreast_iterate_pass (h : w.Fits t.names) (hnodup : (w.cascades.map (·.dependent)).Nodup)
    (ha : w.Abreast t) (n : Nat) : w.Abreast (w.pass^[n] t) :=
  iterate_pass_induct (P := w.Abreast)
    (fun _ hfits hu => ⟨rules_abreast_pass hfits hu.rules,
      fun c hc => cascade_abreast_pass hfits hnodup hc (hu.cascades c hc),
      fun c hc => held_pass hfits hnodup hc (hu.held c hc)⟩) h ha n

/-- A value written to a field that no cascade writes is news, and nothing else is out of line. -/
theorem InLine.putValue (hin : w.InLine t) {name : String} (hmem : name ∈ t.names)
    (hname : name ∉ w.cascades.map (·.dependent)) (v : Value) : w.Abreast (t.putValue name v) := by
  refine ⟨?_, ?_, ?_⟩
  · exact hin.aligned.abreast.putValue hmem v
  · intro c hc
    have habreast : c.Abreast t := fun _ => hin.tracks c hc
    exact habreast.putValue hmem v
  · intro c hc
    refine (hin.held c hc).putValue hmem fun heq => ?_
    exact absurd (List.mem_map.mpr ⟨c, hc, heq.symm⟩) hname

/-- If nothing that watches the news would change anything, all is in line. -/
theorem inLine_drain_iff (h : w.Fits t.names) (ha : w.Abreast t) :
    w.InLine t.drain ↔ w.reacted t.news t.drain = t.drain := by
  refine ⟨fun hin => reacted_of_inLine (t := t.drain) h hin t.news, fun heq => ?_⟩
  obtain ⟨hfirst, hcascades⟩ := Cascade.eq_of_foldl_eq (extends_ruled t.news t.drain) heq
  refine ⟨?_, ?_, ?_⟩
  · -- either the rules had their turn, or no news concern them
    by_cases hwatch : t.news.any w.rules.watches = true
    · rw [ruled, if_pos hwatch] at hfirst
      exact RuleSet.aligned_iff_evaluated_eq.mpr hfirst
    · exact (aligned_of_unwatched ha.rules hwatch).drain
  · intro c hc
    by_cases hawake : c ∈ w.awakened t.news
    · have hmem : c.dependent ∈ t.drain.names := h.dependent_mem hc
      exact ((Cascade.recomputed_eq_self_iff hmem).mp (hcascades c hawake)).1
    · exact (tracks_of_not_awakened (ha.cascades c hc) hc hawake).drain
  · exact fun c hc => (ha.held c hc).drain

/-- What nothing watches has no effect. -/
theorem reacted_of_unwatched {changed : List String} (t : FieldTable)
    (h : ∀ b ∈ changed, w.rules.watches b = false ∧ ∀ c ∈ w.cascades, c.watches b = false) :
    w.reacted changed t = t := by
  have hrules : ¬ changed.any w.rules.watches = true := by
    intro hany
    obtain ⟨b, hb, hwatch⟩ := List.any_eq_true.mp hany
    rw [(h b hb).1] at hwatch
    simp at hwatch
  have hawake : w.awakened changed = [] := by
    refine List.filter_eq_nil_iff.mpr fun c hc hany => ?_
    obtain ⟨b, hb, hwatch⟩ := List.any_eq_true.mp hany
    rw [(h b hb).2 c hc] at hwatch
    simp at hwatch
  rw [reacted, hawake, ruled, if_neg hrules]
  rfl

/-- What watches the news would change nothing exactly if the next pass changes nothing and has nothing to
report. -/
theorem reacted_eq_drain_iff : w.reacted t.news t.drain = t.drain ↔
    (w.pass t).drain = t.drain ∧ (if t.news = [] then [] else (w.pass t).pending) = [] := by
  by_cases hnews : t.news = []
  · rw [pass_of_quiet w hnews, if_pos hnews, hnews,
      reacted_of_unwatched t.drain fun b hb => absurd hb List.not_mem_nil]
    simp
  · rw [pass, if_neg hnews, if_neg hnews]
    refine ⟨?_, ?_⟩
    · intro heq
      rw [heq]
      exact ⟨rfl, rfl⟩
    · rintro ⟨hdrain, hpending⟩
      rwa [FieldTable.drain_of_pending hpending] at hdrain

end Abreast

end Wiring

namespace Form

/-! ## Forms at rest -/

section AtRest

variable {d : Definition} {f : Form} {name : String}

/-- A refresh would change nothing. -/
def AtRest (f : Form) : Prop :=
  f.refresh = (f, .ok [])

theorem atRest_iff (h : IsOf d f) : f.AtRest ↔ f.wiring.reactedAll f.table = f.table := by
  rw [AtRest, refresh_eq_self_iff h, Wiring.reactedAll_eq_self_iff h.fits]

/-- A call left the form at rest exactly if what watches its last news would change nothing. -/
theorem atRest_setWithin_iff_reacted (h : IsOf d f)
    (hnodup : (f.wiring.cascades.map (·.dependent)).Nodup) (hrest : f.AtRest)
    (hname : name ∉ f.wiring.cascades.map (·.dependent)) (hmem : name ∈ f.table.names) (v : Value)
    (n : Nat) : (f.setWithin n name v).1.AtRest ↔
      f.wiring.reacted (f.wiring.pass^[n] (f.table.putValue name v)).news
        (f.wiring.pass^[n] (f.table.putValue name v)).drain =
      (f.wiring.pass^[n] (f.table.putValue name v)).drain := by
  have hin : f.wiring.InLine f.table := (refresh_eq_self_iff h).mp hrest
  have hfits : f.wiring.Fits (f.table.putValue name v).names :=
    h.fits.congr (FieldTable.declarations_putValue v)
  have hfits' : f.wiring.Fits (f.wiring.pass^[n] (f.table.putValue name v)).names :=
    hfits.congr (Wiring.declarations_iterate_pass n _)
  have habreast := Wiring.abreast_iterate_pass hfits hnodup (hin.putValue hmem hname v) n
  have hof : IsOf d { f with
      table := (f.wiring.pass^[n] (f.table.putValue name v)).drain } := by
    refine h.with_table ?_ rfl
    rw [FieldTable.declarations_drain, Wiring.declarations_iterate_pass,
      FieldTable.declarations_putValue]
  rw [setWithin_of_mem h hmem, AtRest, refresh_eq_self_iff hof]
  exact Wiring.inLine_drain_iff hfits' habreast

/-- A call left the form at rest exactly if one pass more would have done nothing. -/
theorem atRest_setWithin_iff (h : IsOf d f) (hnodup : (f.wiring.cascades.map (·.dependent)).Nodup)
    (hrest : f.AtRest) (hname : name ∉ f.wiring.cascades.map (·.dependent)) (v : Value) (n : Nat) :
    (f.setWithin n name v).1.AtRest ↔ f.setWithin (n + 1) name v = f.setWithin n name v := by
  by_cases hmem : name ∈ f.table.names
  · rw [atRest_setWithin_iff_reacted h hnodup hrest hname hmem, setWithin_of_mem h hmem,
      setWithin_of_mem h hmem, Wiring.history_succ, Function.iterate_succ_apply',
      Wiring.reacted_eq_drain_iff]
    refine ⟨?_, ?_⟩
    · rintro ⟨hdrain, hpending⟩
      rw [hdrain, hpending, List.append_nil]
    · intro heq
      obtain ⟨hform, hanswer⟩ := Prod.mk.inj heq
      have hdrain := congrArg Form.table hform
      dsimp only at hdrain
      exact ⟨hdrain, List.append_right_eq_self.mp (Except.ok.inj hanswer)⟩
  · rw [setWithin_of_not_mem hmem, setWithin_of_not_mem hmem]
    exact ⟨fun _ => rfl, fun _ => hrest⟩

theorem atRest_setWithin_of_unwatched (h : IsOf d f)
    (hnodup : (f.wiring.cascades.map (·.dependent)).Nodup) (hrest : f.AtRest)
    (hname : name ∉ f.wiring.cascades.map (·.dependent)) (v : Value) (n : Nat)
    (hnews : ∀ b ∈ (f.wiring.pass^[n] (f.table.putValue name v)).news,
      f.wiring.rules.watches b = false ∧ ∀ c ∈ f.wiring.cascades, c.watches b = false) :
    (f.setWithin n name v).1.AtRest := by
  by_cases hmem : name ∈ f.table.names
  · rw [atRest_setWithin_iff_reacted h hnodup hrest hname hmem]
    exact Wiring.reacted_of_unwatched _ hnews
  · rw [setWithin_of_not_mem hmem]
    exact hrest

/-- A value given to a field of a form at rest leaves it at rest exactly if a seventeenth pass would do
nothing.  It always does with more passes than there are cascades, and it does if nothing watches the ends of
chains of sixteen cascades. -/
theorem atRest_set (h : Reachable d f) (hnodup : (d.cascades.map (·.dependent)).Nodup)
    (hrest : f.AtRest) (hname : name ∉ d.cascades.map (·.dependent)) (v : Value) :
    ((f.set name v).1.AtRest ↔ f.setWithin 17 name v = f.set name v) ∧
    (∀ n, d.cascades.length < n → (f.setWithin n name v).1.AtRest) ∧
    ((∀ b, d.wiring.Leads 16 name b →
        d.rules.watches b = false ∧ ∀ c ∈ d.cascades, c.watches b = false) →
      (f.set name v).1.AtRest) := by
  have hof := isOf_of_reachable h
  have hwiring := hof.wiring
  have hnodup' : (f.wiring.cascades.map (·.dependent)).Nodup := by rwa [hwiring]
  have hname' : name ∉ f.wiring.cascades.map (·.dependent) := by rwa [hwiring]
  have hfits : f.wiring.Fits (f.table.putValue name v).names :=
    hof.fits.congr (FieldTable.declarations_putValue v)
  refine ⟨?_, ?_, ?_⟩
  · exact atRest_setWithin_iff hof hnodup' hrest hname' v 16
  · intro n hn
    have hcard : (f.wiring.uncleared (f.table.putValue name v)).card < n := by
      refine ((Wiring.card_uncleared_le _ _).trans (Wiring.card_dependents_le _)).trans_lt ?_
      rwa [hwiring]
    refine atRest_setWithin_of_unwatched hof hnodup' hrest hname' v n ?_
    rw [Wiring.news_iterate_pass hfits hcard]
    simp
  · intro hends
    refine atRest_setWithin_of_unwatched hof hnodup' hrest hname' v 16 fun b hb => ?_
    obtain ⟨m, hm, hleads⟩ := Wiring.leads_of_mem_news hfits hb
    by_cases hmem : name ∈ f.table.names
    · rw [hof.eq_of_mem_news_putValue hmem hm, hwiring] at hleads
      rw [hwiring]
      exact hends b hleads
    · -- an undeclared field makes no news
      rw [FieldTable.putValue, FieldTable.write, FieldTable.field?_eq_none_iff.mpr hmem] at hm
      simp [hof.news] at hm

end AtRest

/-! ## Chains -/

section Chain

/-- The name of a field in a row. -/
def link (i : Nat) : String :=
  String.ofList (List.replicate (i + 1) 'x')

/-- Checkboxes in a row, all ticked at first: each but the first one offers a tick while the one before it is
ticked. -/
def chain (n : Nat) : Definition where
  title := "Chain"
  declarations := (List.range (n + 1)).map fun i => .checkbox (link i) (link i) true
  rules := []
  cascades := (List.range n).map fun i => ⟨[link i], link (i + 1), fun vs =>
    if vs = [.bool true] then [⟨"on", .bool true⟩] else []⟩
  checks := ⟨[], []⟩

theorem acyclic_chain (n : Nat) : (chain n).wiring.Acyclic := by
  refine Wiring.acyclic_of_rank _ String.length fun c hc name hname => ?_
  obtain ⟨i, -, rfl⟩ := List.mem_map.mp hc
  rw [List.mem_singleton.mp hname]
  simp [link]

theorem atRest_set_chain : Reachable (chain 2) (chain 2).opened ∧ (chain 2).opened.AtRest ∧
    ((chain 2).opened.setWithin 3 (link 0) (.bool false)).1.AtRest := by
  have hbuild : build (chain 2) = .ok (chain 2).opened :=
    build_of_checkParts (by decide +kernel) (by decide +kernel)
  have hrest : (chain 2).opened.AtRest :=
    (atRest_iff (isOf_of_build hbuild)).mpr (by decide +kernel)
  have hreach : Reachable (chain 2) (chain 2).opened := ⟨_, [], hbuild, rfl⟩
  have hcalls := atRest_set hreach (by decide +kernel) hrest
    (by decide +kernel : link 0 ∉ (chain 2).cascades.map (·.dependent)) (.bool false)
  exact ⟨hreach, hrest, hcalls.2.1 3 (by decide)⟩

/-- In a row of eighteen checkboxes without a cycle, the tick of the last one is still there when the call
that takes away the first one is over; a refresh takes it away. -/
theorem exists_not_atRest : ∃ d f name v, Reachable d f ∧ d.wiring.Acyclic ∧
    (d.cascades.map (·.dependent)).Nodup ∧ f.refresh = (f, .ok []) ∧
    name ∉ d.cascades.map (·.dependent) ∧
    (f.set name v).1.refresh ≠ ((f.set name v).1, .ok []) := by
  have hbuild : build (chain 17) = .ok (chain 17).opened :=
    build_of_checkParts (by decide +kernel) (by decide +kernel)
  have hof := isOf_of_build hbuild
  have hlate : ¬ ((chain 17).opened.set (link 0) (.bool false)).1.AtRest := by
    rw [atRest_iff (hof.set (link 0) (.bool false))]
    decide +kernel
  refine ⟨chain 17, (chain 17).opened, link 0, .bool false, ⟨_, [], hbuild, rfl⟩, acyclic_chain 17,
    by decide +kernel, (atRest_iff hof).mpr (by decide +kernel), by decide +kernel, hlate⟩

end Chain

end Form

end FormConsole
