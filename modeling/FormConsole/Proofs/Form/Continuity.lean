import FormConsole.Proofs.Form.Call
import FormConsole.Proofs.Form.Dependency

/-!
# What is left of a selection

A cascade may run in several passes of one call, with old values of some drivers and new ones of others, and
what it clears stays cleared.  So a selection outlives a call if it is offered after every pass of the call,
and not merely after the last one.  A cascade that all changes reach in the same pass runs once, and then the
last pass decides.

* `Wiring.valueAt_iterate_pass`: the value of a dependent after any number of passes.
* `Wiring.choicesAt_iterate_pass_eq_or`: the choices of a field that is reached in one pass only change once.
* `Form.valueAt_set`: both facts about a call, with a selection that is offered before and after a call and
  lost all the same (`Form.exists_lost_selection`).
-/

namespace FormConsole

namespace Wiring

section Selection

variable {w : Wiring} {t : FieldTable} {c : Cascade}

/-- A value that is held stays as long as it is offered after every pass, and is cleared otherwise. -/
theorem valueAt_iterate_pass (h : w.Fits t.names) (hnodup : (w.cascades.map (·.dependent)).Nodup)
    (hc : c ∈ w.cascades) (hheld : c.Held t) (n : Nat) :
    (w.pass^[n] t).valueAt c.dependent =
      if ∀ k ≤ n, Choice.offers ((w.pass^[k] t).choicesAt c.dependent) (t.valueAt c.dependent) = true
      then t.valueAt c.dependent else (t.valueAt c.dependent).cleared := by
  induction n with
  | zero =>
    split
    · rfl
    · next hnot =>
      rcases Cascade.surviving_eq_self_iff.mp hheld with hoffers | hcleared
      · exact absurd (fun k hk => by rwa [Nat.le_zero.mp hk]) hnot
      · exact hcleared
  | succ n ih =>
    have hstep : c.Held (w.pass^[n] t) :=
      iterate_pass_induct (P := c.Held) (fun _ hfits => held_pass hfits hnodup hc) h hheld n
    have hfits : w.Fits (w.pass^[n] t).names := h.congr (declarations_iterate_pass n t)
    have hnext := valueAt_pass hfits hnodup hc hstep
    rw [← Function.iterate_succ_apply' w.pass n t, ih] at hnext
    rw [hnext]
    by_cases hall : ∀ k ≤ n, Choice.offers ((w.pass^[k] t).choicesAt c.dependent)
        (t.valueAt c.dependent) = true
    · rw [if_pos hall, Cascade.surviving]
      refine if_congr ⟨fun hlast k hk => ?_, fun hmore => hmore (n + 1) le_rfl⟩ rfl rfl
      rcases Nat.le_succ_iff.mp hk with hk | rfl
      · exact hall k hk
      · exact hlast
    · have hmore : ¬ ∀ k ≤ n + 1, Choice.offers ((w.pass^[k] t).choicesAt c.dependent)
          (t.valueAt c.dependent) = true := fun hmore => hall fun k hk => hmore k (by omega)
      rw [if_neg hall, if_neg hmore, Cascade.surviving_cleared]

/-- Passes that do not awaken a cascade leave the choices of its dependent alone. -/
theorem choicesAt_iterate_pass_of_asleep (h : w.Fits t.names)
    (hnodup : (w.cascades.map (·.dependent)).Nodup) (hc : c ∈ w.cascades) {i j : Nat} (hij : i ≤ j)
    (hasleep : ∀ k, i ≤ k → k < j → c ∉ w.awakened (w.pass^[k] t).news) :
    (w.pass^[j] t).choicesAt c.dependent = (w.pass^[i] t).choicesAt c.dependent := by
  induction j, hij using Nat.le_induction with
  | base => rfl
  | succ j hij ih =>
    have hfits : w.Fits (w.pass^[j] t).names := h.congr (declarations_iterate_pass j t)
    have huntouched := untouched_pass hfits
      (dependent_not_mem_awakened hnodup hc (hasleep j hij (by omega)))
    rw [Function.iterate_succ_apply', huntouched.2]
    exact ih fun k hik hkj => hasleep k hik (by omega)

/-- If a cascade is awakened in one pass at most, the choices of its dependent change once at most. -/
theorem choicesAt_iterate_pass_eq_or (h : w.Fits t.names)
    (hnodup : (w.cascades.map (·.dependent)).Nodup) (hc : c ∈ w.cascades)
    (hone : ∀ i j, c ∈ w.awakened (w.pass^[i] t).news → c ∈ w.awakened (w.pass^[j] t).news → i = j)
    {k n : Nat} (hk : k ≤ n) :
    (w.pass^[k] t).choicesAt c.dependent = t.choicesAt c.dependent ∨
      (w.pass^[k] t).choicesAt c.dependent = (w.pass^[n] t).choicesAt c.dependent := by
  by_cases hbefore : ∃ i < k, c ∈ w.awakened (w.pass^[i] t).news
  · -- the one pass that awakens the cascade lies behind
    obtain ⟨i, hi, hawake⟩ := hbefore
    right
    refine (choicesAt_iterate_pass_of_asleep h hnodup hc hk fun j hkj _ hj => ?_).symm
    have := hone i j hawake hj
    omega
  · left
    have hasleep : ∀ i, 0 ≤ i → i < k → c ∉ w.awakened (w.pass^[i] t).news :=
      fun i _ hi hawake => hbefore ⟨i, hi, hawake⟩
    exact choicesAt_iterate_pass_of_asleep h hnodup hc (Nat.zero_le k) hasleep

/-- What is left of a value whose cascade is awakened in one pass at most is what the last choices leave of
it. -/
theorem valueAt_iterate_pass_of_one (h : w.Fits t.names)
    (hnodup : (w.cascades.map (·.dependent)).Nodup) (hc : c ∈ w.cascades) (hheld : c.Held t)
    (hone : ∀ i j, c ∈ w.awakened (w.pass^[i] t).news → c ∈ w.awakened (w.pass^[j] t).news → i = j)
    (n : Nat) :
    (w.pass^[n] t).valueAt c.dependent =
      Cascade.surviving ((w.pass^[n] t).choicesAt c.dependent) (t.valueAt c.dependent) := by
  rw [valueAt_iterate_pass h hnodup hc hheld, Cascade.surviving]
  rcases Cascade.surviving_eq_self_iff.mp hheld with hoffers | hcleared
  · refine if_congr ⟨fun hall => hall n le_rfl, fun hlast k hk => ?_⟩ rfl rfl
    rcases choicesAt_iterate_pass_eq_or h hnodup hc hone hk with heq | heq
    · rwa [heq]
    · rwa [heq]
  · rw [← hcleared, ite_self, ite_self]

end Selection

end Wiring

namespace Form

/-! ## What a call leaves of a selection -/

section Selection

variable {d : Definition} {f : Form} {name : String} {c : Cascade}

theorem table_setWithin (h : IsOf d f) (hmem : name ∈ f.table.names) (v : Value) (n : Nat) :
    (f.setWithin n name v).1.table = (f.wiring.pass^[n] (f.table.putValue name v)).drain := by
  rw [setWithin_of_mem h hmem]

/-- A value that is held outlives a call that gives another field a value if it is offered after every
pass. -/
theorem valueAt_setWithin (h : IsOf d f) (hnodup : (f.wiring.cascades.map (·.dependent)).Nodup)
    (hc : c ∈ f.wiring.cascades) (hheld : c.Held f.table) (hne : c.dependent ≠ name) (v : Value)
    (n : Nat) :
    (f.setWithin n name v).1.table.valueAt c.dependent =
      if ∀ k ≤ n, Choice.offers ((f.setWithin k name v).1.table.choicesAt c.dependent)
        (f.table.valueAt c.dependent) = true
      then f.table.valueAt c.dependent else (f.table.valueAt c.dependent).cleared := by
  by_cases hmem : name ∈ f.table.names
  · have hfits : f.wiring.Fits (f.table.putValue name v).names :=
      h.fits.congr (FieldTable.declarations_putValue v)
    have hstart : c.Held (f.table.putValue name v) :=
      hheld.putValue hmem fun heq => absurd heq.symm hne
    have hvalue : (f.table.putValue name v).valueAt c.dependent = f.table.valueAt c.dependent := by
      rw [FieldTable.valueAt_putValue v _ hmem, if_neg hne]
    have hpasses := Wiring.valueAt_iterate_pass hfits hnodup hc hstart n
    rw [hvalue] at hpasses
    rw [table_setWithin h hmem, FieldTable.valueAt_drain, hpasses]
    refine if_congr (forall₂_congr fun k _ => ?_) rfl rfl
    rw [table_setWithin h hmem, FieldTable.choicesAt_drain]
  · -- a refused call changes nothing
    have hrefused : ∀ k, (f.setWithin k name v).1 = f := fun k => by
      rw [setWithin_of_not_mem hmem]
    rw [hrefused n]
    rcases Cascade.surviving_eq_self_iff.mp hheld with hoffers | hcleared
    · exact (if_pos fun k _ => by rwa [hrefused k]).symm
    · rw [← hcleared, ite_self]

/-- Where all chains of cascades have one length, the choices after the call decide. -/
theorem valueAt_setWithin_of_leads (h : IsOf d f)
    (hnodup : (f.wiring.cascades.map (·.dependent)).Nodup) (hc : c ∈ f.wiring.cascades)
    (hheld : c.Held f.table) (hne : c.dependent ≠ name)
    (hleads : ∀ i j, f.wiring.Leads i name c.dependent → f.wiring.Leads j name c.dependent → i = j)
    (v : Value) (n : Nat) :
    (f.setWithin n name v).1.table.valueAt c.dependent =
      Cascade.surviving ((f.setWithin n name v).1.table.choicesAt c.dependent)
        (f.table.valueAt c.dependent) := by
  by_cases hmem : name ∈ f.table.names
  · have hfits : f.wiring.Fits (f.table.putValue name v).names :=
      h.fits.congr (FieldTable.declarations_putValue v)
    have hstart : c.Held (f.table.putValue name v) :=
      hheld.putValue hmem fun heq => absurd heq.symm hne
    have hvalue : (f.table.putValue name v).valueAt c.dependent = f.table.valueAt c.dependent := by
      rw [FieldTable.valueAt_putValue v _ hmem, if_neg hne]
    have hone : ∀ i j,
        c ∈ f.wiring.awakened (f.wiring.pass^[i] (f.table.putValue name v)).news →
        c ∈ f.wiring.awakened (f.wiring.pass^[j] (f.table.putValue name v)).news → i = j := by
      intro i j hi hj
      obtain ⟨m, hm, hchain⟩ := Wiring.leads_of_mem_awakened hfits hi
      obtain ⟨m', hm', hchain'⟩ := Wiring.leads_of_mem_awakened hfits hj
      rw [h.eq_of_mem_news_putValue hmem hm] at hchain
      rw [h.eq_of_mem_news_putValue hmem hm'] at hchain'
      exact Nat.succ_injective (hleads _ _ hchain hchain')
    have hpasses := Wiring.valueAt_iterate_pass_of_one hfits hnodup hc hstart hone n
    rw [hvalue] at hpasses
    rw [table_setWithin h hmem, FieldTable.valueAt_drain, FieldTable.choicesAt_drain]
    exact hpasses
  · rw [setWithin_of_not_mem hmem]
    exact hheld.symm

/-- A dependent keeps its value in a call that gives another field a value if it is offered after every pass
of the call, and is cleared otherwise.  If all chains of cascades to the dependent have one length, the
choices after the call decide. -/
theorem valueAt_set (h : Reachable d f) (hnodup : (d.cascades.map (·.dependent)).Nodup)
    (hheld : ∀ c ∈ d.cascades,
      Choice.offers (f.table.choicesAt c.dependent) (f.table.valueAt c.dependent) = true ∨
        f.table.valueAt c.dependent = (f.table.valueAt c.dependent).cleared)
    (hc : c ∈ d.cascades) (hne : c.dependent ≠ name) (v : Value) :
    ((f.set name v).1.table.valueAt c.dependent =
      if ∀ k ≤ Wiring.maxPasses, Choice.offers
        ((f.setWithin k name v).1.table.choicesAt c.dependent) (f.table.valueAt c.dependent) = true
      then f.table.valueAt c.dependent else (f.table.valueAt c.dependent).cleared) ∧
    ((∀ i j, d.wiring.Leads i name c.dependent → d.wiring.Leads j name c.dependent → i = j) →
      (f.set name v).1.table.valueAt c.dependent =
        if Choice.offers ((f.set name v).1.table.choicesAt c.dependent)
          (f.table.valueAt c.dependent) = true
        then f.table.valueAt c.dependent else (f.table.valueAt c.dependent).cleared) := by
  have hof := isOf_of_reachable h
  have hold : c.Held f.table := Cascade.surviving_eq_self_iff.mpr (hheld c hc)
  have hnodup' : (f.wiring.cascades.map (·.dependent)).Nodup := by rwa [hof.wiring]
  have hc' : c ∈ f.wiring.cascades := by rwa [hof.wiring]
  refine ⟨?_, ?_⟩
  · exact valueAt_setWithin hof hnodup' hc' hold hne v Wiring.maxPasses
  · intro hleads
    rw [← hof.wiring] at hleads
    exact valueAt_setWithin_of_leads hof hnodup' hc' hold hne hleads v Wiring.maxPasses

end Selection

/-! ## A selection that is lost -/

section Diamond

/-- The choices of the third field of a diamond: one while the first two agree or the second one is blank. -/
def agreeing : Cascade where
  drivers := ["a", "b"]
  dependent := "c"
  compute
    | [a, b] => if b = a ∨ b = .text "" then [.named "x"] else []
    | _ => []

/-- The choices of the second field of a diamond: the value of the first one. -/
def echoing : Cascade := ⟨["a"], "b", fun vs => vs.map fun v => ⟨v.asText, v⟩⟩

/-- The second field depends on the first one, and the third one, which is declared before it, on both. -/
def diamond : Definition where
  title := "Diamond"
  declarations := [(Declaration.text "a" "A").withDefault (.text "p"),
    .select "b" "B" [] (.text "p"), .select "c" "C" [] (.text "x")]
  rules := []
  cascades := [agreeing, echoing]
  checks := ⟨[], []⟩

theorem build_diamond : build diamond = .ok diamond.opened :=
  build_of_checkParts (by decide) (by decide +kernel)

theorem acyclic_diamond : diamond.wiring.Acyclic :=
  Wiring.acyclic_of_rank _ (fun n => if n = "a" then 0 else if n = "b" then 1 else 2) (by decide)

theorem drives_diamond {a b : String} (h : diamond.wiring.Drives a b) :
    b = "c" ∨ a = "a" ∧ b = "b" := by
  obtain ⟨c, hc, ha, rfl⟩ := h
  rcases List.mem_cons.mp hc with rfl | hc
  · exact Or.inl rfl
  · rw [List.mem_singleton.mp hc] at ha ⊢
    exact Or.inr ⟨List.mem_singleton.mp ha, rfl⟩

/-- Only the cascade itself leads to the second field of the diamond. -/
theorem leads_diamond {n : Nat} (h : diamond.wiring.Leads n "a" "b") : n = 1 := by
  rcases h.eq_or_drives with ⟨-, hab⟩ | ⟨k, m, rfl, hleads, hdrives⟩
  · exact absurd hab (by decide)
  · rcases drives_diamond hdrives with hc | ⟨rfl, -⟩
    · exact absurd hc (by decide)
    · rcases hleads.eq_or_drives with ⟨rfl, -⟩ | ⟨j, m, -, -, hback⟩
      · rfl
      · rcases drives_diamond hback with hc | ⟨-, hb⟩
        · exact absurd hc (by decide)
        · exact absurd hb (by decide)

theorem valueAt_set_diamond : Reachable diamond diamond.opened ∧
    (diamond.opened.set "a" (.text "z")).1.table.valueAt "b" = .text "" ∧
    (diamond.opened.set "a" (.text "z")).1.table.valueAt agreeing.dependent = .text "" := by
  have hreach : Reachable diamond diamond.opened := ⟨_, [], build_diamond, rfl⟩
  have hheld : ∀ c ∈ diamond.cascades,
      Choice.offers (diamond.opened.table.choicesAt c.dependent)
        (diamond.opened.table.valueAt c.dependent) = true ∨
      diamond.opened.table.valueAt c.dependent =
        (diamond.opened.table.valueAt c.dependent).cleared := by
    decide +kernel
  have hnodup : (diamond.cascades.map (·.dependent)).Nodup := by decide
  have hne : agreeing.dependent ≠ "a" := by decide
  have hne' : echoing.dependent ≠ "a" := by decide
  have hmem : agreeing ∈ diamond.cascades := List.mem_cons_self
  have hmem' : echoing ∈ diamond.cascades := List.mem_cons_of_mem _ List.mem_cons_self
  have hsecond := (valueAt_set hreach hnodup hheld hmem' hne' (.text "z")).2 fun i j hi hj =>
    (leads_diamond hi).trans (leads_diamond hj).symm
  have hthird := (valueAt_set hreach hnodup hheld hmem hne (.text "z")).1
  rw [if_neg (by decide +kernel)] at hsecond hthird
  refine ⟨hreach, hsecond.trans ?_, hthird.trans ?_⟩
  · decide +kernel
  · decide +kernel

/-- The third field of the diamond is cleared although its value is offered before the call and after it: in
between, the first field is new and the second one old. -/
theorem exists_lost_selection : ∃ d f name v, ∃ c ∈ d.cascades, Reachable d f ∧
    d.wiring.Acyclic ∧ (d.cascades.map (·.dependent)).Nodup ∧ d.cascades.length ≤ 15 ∧
    (∀ e ∈ d.cascades,
      Choice.offers (f.table.choicesAt e.dependent) (f.table.valueAt e.dependent) = true ∨
        f.table.valueAt e.dependent = (f.table.valueAt e.dependent).cleared) ∧
    c.dependent ≠ name ∧
    Choice.offers (f.table.choicesAt c.dependent) (f.table.valueAt c.dependent) = true ∧
    Choice.offers ((f.set name v).1.table.choicesAt c.dependent) (f.table.valueAt c.dependent) =
      true ∧
    (f.set name v).1.table.valueAt c.dependent ≠ f.table.valueAt c.dependent := by
  refine ⟨diamond, diamond.opened, "a", .text "z", agreeing, List.mem_cons_self,
    ⟨_, [], build_diamond, rfl⟩, acyclic_diamond, by decide, by decide, ?_, by decide, ?_, ?_, ?_⟩
  · decide +kernel
  · decide +kernel
  · decide +kernel
  · decide +kernel

end Diamond

end Form

end FormConsole
