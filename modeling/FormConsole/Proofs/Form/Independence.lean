import FormConsole.Proofs.Form.FixedPoint
import FormConsole.Proofs.Form.Reach

/-!
# Edits that do not depend on each other

Two edits that reach no field in common can be made in either order.  The passes of the two orders are not the same,
and the rules may have conditions on what both edits reach.  But on a set of fields whose cascades read nothing
else, passes do the same whatever the other fields are, so that an edit outside the set makes no difference to it; and
in the end the constraints are those for the values, however these came about.

* `FieldTable.AgreeOn`: tables that cannot be told apart on a set of fields.
* `Wiring.SelfContained`: a set of fields whose cascades read nothing else; `Wiring.SelfContained.settled`.
* `FieldTable.fields_eq_of_views`: fields are known by what can be asked about them.
* `Form.set_set_comm`: edits that reach no field in common commute.
-/

namespace FormConsole

namespace FieldTable

/-! ## Agreement on a set of fields -/

section AgreeOn

variable {s : Set String} {t u v : FieldTable} {name : String} {c : Cascade}

/-- The tables have the same values and choices on the set, and the same news of it. -/
structure AgreeOn (s : Set String) (t u : FieldTable) : Prop where
  declarations : u.declarations = t.declarations
  value : ∀ n ∈ s, u.valueAt n = t.valueAt n
  choices : ∀ n ∈ s, u.choicesAt n = t.choicesAt n
  news : ∀ n ∈ s, n ∈ u.news ↔ n ∈ t.news

theorem AgreeOn.refl (s : Set String) (t : FieldTable) : AgreeOn s t t :=
  ⟨rfl, fun _ _ => rfl, fun _ _ => rfl, fun _ _ => Iff.rfl⟩

theorem AgreeOn.symm (h : AgreeOn s t u) : AgreeOn s u t :=
  ⟨h.declarations.symm, fun n hn => (h.value n hn).symm, fun n hn => (h.choices n hn).symm,
    fun n hn => (h.news n hn).symm⟩

theorem AgreeOn.trans (h : AgreeOn s t u) (h' : AgreeOn s u v) : AgreeOn s t v :=
  ⟨h'.declarations.trans h.declarations, fun n hn => (h'.value n hn).trans (h.value n hn),
    fun n hn => (h'.choices n hn).trans (h.choices n hn),
    fun n hn => (h'.news n hn).trans (h.news n hn)⟩

theorem AgreeOn.names (h : AgreeOn s t u) : u.names = t.names :=
  names_congr h.declarations

/-- What is recorded does not matter once it was dealt with. -/
theorem AgreeOn.drain (h : AgreeOn s t u) : AgreeOn s t.drain u.drain :=
  ⟨h.declarations, h.value, h.choices, fun _ _ => Iff.rfl⟩

/-- A value that is written outside the set makes no difference to it. -/
theorem agreeOn_putValue_of_not_mem (hname : name ∉ s) (x : Value) (t : FieldTable) :
    AgreeOn s t (t.putValue name x) := by
  have hne : ∀ n ∈ s, n ≠ name := by
    rintro n hn rfl
    exact hname hn
  refine ⟨declarations_putValue x, fun n hn => valueAt_putValue_of_ne x (hne n hn),
    fun n _ => choicesAt_putValue x n, fun n hn => ?_⟩
  by_cases hmem : name ∈ t.names
  · rw [news_putValue x hmem, List.mem_append]
    refine ⟨fun h => h.resolve_right fun hnew => ?_, Or.inl⟩
    split at hnew
    · simp at hnew
    · exact hne n hn (List.mem_singleton.mp hnew)
  · rw [putValue_of_not_mem x hmem]

/-- A value that is written to both tables makes the same difference to both. -/
theorem AgreeOn.putValue (h : AgreeOn s t u) (name : String) (x : Value) :
    AgreeOn s (t.putValue name x) (u.putValue name x) := by
  by_cases hname : name ∈ s
  · by_cases hmem : name ∈ t.names
    · have hmem' : name ∈ u.names := by rwa [h.names]
      refine ⟨?_, fun n hn => ?_, fun n hn => ?_, fun n hn => ?_⟩
      · rw [declarations_putValue, declarations_putValue, h.declarations]
      · rw [valueAt_putValue x n hmem', valueAt_putValue x n hmem, h.value n hn]
      · rw [choicesAt_putValue, choicesAt_putValue, h.choices n hn]
      · rw [news_putValue x hmem', news_putValue x hmem, List.mem_append, List.mem_append,
          h.news n hn, h.value name hname]
    · have hmem' : name ∉ u.names := by rwa [h.names]
      rwa [putValue_of_not_mem x hmem, putValue_of_not_mem x hmem']
  · exact (agreeOn_putValue_of_not_mem hname x t).symm.trans
      (h.trans (agreeOn_putValue_of_not_mem hname x u))

theorem AgreeOn.putChoices (h : AgreeOn s t u) (hmem : name ∈ t.names) (choices : List Choice) :
    AgreeOn s (t.putChoices name choices) (u.putChoices name choices) := by
  have hmem' : name ∈ u.names := by rwa [h.names]
  refine ⟨?_, fun n hn => ?_, fun n hn => ?_, fun n hn => ?_⟩
  · rw [declarations_putChoices, declarations_putChoices, h.declarations]
  · rw [valueAt_putChoices, valueAt_putChoices, h.value n hn]
  · rw [choicesAt_putChoices choices n hmem', choicesAt_putChoices choices n hmem, h.choices n hn]
  · rw [news_putChoices, news_putChoices, h.news n hn]

theorem agreeOn_putChoices_of_not_mem (hmem : name ∈ t.names) (hname : name ∉ s)
    (choices : List Choice) : AgreeOn s t (t.putChoices name choices) := by
  refine ⟨declarations_putChoices choices, fun n _ => valueAt_putChoices choices n,
    fun n hn => ?_, fun n _ => by rw [news_putChoices]⟩
  rw [choicesAt_putChoices choices n hmem, if_neg]
  rintro rfl
  exact hname hn

/-- A cascade into a field outside the set makes no difference to it. -/
theorem agreeOn_recomputed_of_not_mem (hmem : c.dependent ∈ t.names) (hdep : c.dependent ∉ s) :
    AgreeOn s t (Cascade.recomputed t c) :=
  (agreeOn_putChoices_of_not_mem hmem hdep _).trans (agreeOn_putValue_of_not_mem hdep _ _)

/-- A cascade that reads and writes the set does the same to both tables. -/
theorem AgreeOn.recomputed (h : AgreeOn s t u) (hmem : c.dependent ∈ t.names)
    (hdep : c.dependent ∈ s) (hdrivers : ∀ n ∈ c.drivers, n ∈ s) :
    AgreeOn s (Cascade.recomputed t c) (Cascade.recomputed u c) := by
  have hoffered : c.offered u = c.offered t :=
    Cascade.offered_congr fun n hn => h.value n (hdrivers n hn)
  rw [Cascade.recomputed, Cascade.recomputed, hoffered, h.value c.dependent hdep]
  exact (h.putChoices hmem _).putValue c.dependent _

end AgreeOn

end FieldTable

namespace Wiring

/-! ## Passes on a set that reads nothing else -/

section SelfContained

variable {w : Wiring} {s : Set String} {t u : FieldTable}

/-- Cascades into the set have their drivers in it. -/
def SelfContained (w : Wiring) (s : Set String) : Prop :=
  ∀ c ∈ w.cascades, c.dependent ∈ s → ∀ n ∈ c.drivers, n ∈ s

/-- What a field does not reach is self-contained. -/
theorem selfContained_not_reaches (w : Wiring) (name : String) :
    w.SelfContained {n | ¬ w.Reaches name n} :=
  fun c hc hdep _ hn hreach => hdep (hreach.drives ⟨c, hc, hn, rfl⟩)

theorem agreeOn_ruled (s : Set String) (changed : List String) (t : FieldTable) :
    t.AgreeOn s (w.ruled changed t) :=
  ⟨declarations_ruled changed t, fun n _ => valueAt_ruled changed t n,
    fun n _ => choicesAt_ruled changed t n, fun n _ => by rw [news_ruled]⟩

/-- Cascades that agree on which of those into the set run do the same to it. -/
theorem agreeOn_foldl_filter {cs : List Cascade} {p q : Cascade → Bool} (h : t.AgreeOn s u)
    (hmem : ∀ c ∈ cs, c.dependent ∈ t.names)
    (hs : ∀ c ∈ cs, c.dependent ∈ s → p c = q c ∧ ∀ n ∈ c.drivers, n ∈ s) :
    ((cs.filter p).foldl Cascade.recomputed t).AgreeOn s
      ((cs.filter q).foldl Cascade.recomputed u) := by
  rw [List.foldl_filter, List.foldl_filter]
  induction cs generalizing t u with
  | nil => exact h
  | cons c cs ih =>
    have hc := hmem c (by simp)
    have hc' : c.dependent ∈ u.names := by rwa [h.names]
    rw [List.foldl_cons, List.foldl_cons]
    refine ih ?_ (fun e he => ?_) fun e he => hs e (by simp [he])
    · by_cases hdep : c.dependent ∈ s
      · obtain ⟨hsame, hdrivers⟩ := hs c (by simp) hdep
        rw [hsame]
        split
        · exact h.recomputed hc hdep hdrivers
        · exact h
      · have hfirst : t.AgreeOn s (if p c then Cascade.recomputed t c else t) := by
          split
          · exact FieldTable.agreeOn_recomputed_of_not_mem hc hdep
          · exact .refl s t
        have hsecond : u.AgreeOn s (if q c then Cascade.recomputed u c else u) := by
          split
          · exact FieldTable.agreeOn_recomputed_of_not_mem hc' hdep
          · exact .refl s u
        exact hfirst.symm.trans (h.trans hsecond)
    · split
      · rw [Cascade.names_recomputed]
        exact hmem e (by simp [he])
      · exact hmem e (by simp [he])

/-- A pass does to the set what a reaction to its news does, also if there are none. -/
theorem agreeOn_pass_reacted (s : Set String) (t : FieldTable) :
    (w.pass t).AgreeOn s (w.reacted t.news t.drain) := by
  by_cases hnews : t.news = []
  · rw [pass_of_quiet w hnews, hnews,
      reacted_of_unwatched t.drain fun b hb => absurd hb List.not_mem_nil]
    exact ⟨rfl, fun _ _ => rfl, fun _ _ => rfl, fun _ _ => by rw [hnews]; rfl⟩
  · rw [pass, if_neg hnews]
    exact .refl s _

/-- A pass does the same to a self-contained set whatever the other fields are. -/
theorem SelfContained.pass (hs : w.SelfContained s) (hfits : w.Fits t.names)
    (h : t.AgreeOn s u) : (w.pass t).AgreeOn s (w.pass u) := by
  have hruled : (w.ruled t.news t.drain).AgreeOn s (w.ruled u.news u.drain) :=
    (agreeOn_ruled s t.news t.drain).symm.trans (h.drain.trans (agreeOn_ruled s u.news u.drain))
  have hreacted : (w.reacted t.news t.drain).AgreeOn s (w.reacted u.news u.drain) := by
    refine agreeOn_foldl_filter hruled (fun c hc => ?_) fun c hc hdep => ⟨?_, hs c hc hdep⟩
    · rw [names_ruled]
      exact hfits.dependent_mem hc
    · -- only drivers can wake the cascade, and the news agree on them
      rw [Bool.eq_iff_iff, List.any_eq_true, List.any_eq_true]
      refine exists_congr fun n => and_congr_left fun hwatch => ?_
      exact (h.news n (hs c hc hdep n (Cascade.watches_iff.mp hwatch))).symm
  exact (agreeOn_pass_reacted s t).trans (hreacted.trans (agreeOn_pass_reacted s u).symm)

/-- So do all passes of a call. -/
theorem SelfContained.settled (hs : w.SelfContained s) (hfits : w.Fits t.names)
    (h : t.AgreeOn s u) : (w.settled t).AgreeOn s (w.settled u) := by
  have hpasses : ∀ k, (w.pass^[k] t).AgreeOn s (w.pass^[k] u) := by
    intro k
    induction k with
    | zero => exact h
    | succ k ih =>
      rw [Function.iterate_succ_apply', Function.iterate_succ_apply']
      exact hs.pass (hfits.congr (declarations_iterate_pass k t)) ih
  exact (hpasses maxPasses).drain

end SelfContained

end Wiring

namespace FieldTable

/-! ## What can be asked about fields -/

section Views

variable {t u : FieldTable}

/-- Fields with different names are known by what is fixed about them, their values, choices and constraints. -/
theorem fields_eq_of_views (hnodup : t.names.Nodup)
    (hfixed : u.fields.map Field.fixed = t.fields.map Field.fixed)
    (hvalue : ∀ n, u.valueAt n = t.valueAt n) (hchoices : ∀ n, u.choicesAt n = t.choicesAt n)
    (heffective : ∀ n f g, t.field? n = some f → u.field? n = some g → g.decl = f.decl →
      g.effective = f.effective) : u.fields = t.fields := by
  have hrelated : List.Forall₂ (fun f g => g.fixed = f.fixed) t.fields u.fields := by
    rw [← List.forall₂_eq_eq_eq, List.forall₂_map_left_iff, List.forall₂_map_right_iff] at hfixed
    exact hfixed.flip
  have hequal : List.Forall₂ (fun f g => g = f) t.fields u.fields := by
    refine forall₂_of_lookup hnodup hrelated (fun f g h => congrArg Prod.fst h) fun n f g hf hg hgf => ?_
    simp only [Field.fixed, Prod.mk.injEq] at hgf
    obtain ⟨hdecl, hcommitted, hviolation⟩ := hgf
    have hv := hvalue n
    rw [valueAt_of_field? hf, valueAt_of_field? hg] at hv
    have hc := hchoices n
    rw [choicesAt_of_field? hf, choicesAt_of_field? hg] at hc
    have he := heffective n f g hf hg hdecl
    cases f
    cases g
    simp only [Field.mk.injEq]
    exact ⟨hdecl, hv, hcommitted, he, hc, hviolation⟩
  rw [← List.forall₂_eq_eq_eq]
  exact hequal.flip

end Views

end FieldTable

namespace Form

/-! ## Two edits -/

section Independence

variable {d : Definition} {f g : Form} {s : Set String}

/-- What an edit does not reach cannot tell whether it was made. -/
theorem agreeOn_set (h : IsOf d f) (name : String) (v : Value) :
    f.table.AgreeOn {n | ¬ d.wiring.Reaches name n} (f.set name v).1.table := by
  have h' : IsOf d (f.set name v).1 := h.set name v
  refine ⟨h'.declarations.trans h.declarations.symm,
    fun n hn => valueAt_set_of_not_reaches h hn v, fun n hn => ?_, fun n _ => ?_⟩
  · refine (untouched_set h (fun c hc hdep m hm hreach => ?_) v).2
    exact hn (hreach.drives ⟨c, hc, hm, hdep⟩)
  · rw [h.news, h'.news]

/-- Forms that agree on a self-contained set still do after the same edit. -/
theorem agreeOn_set_of_agreeOn (hs : d.wiring.SelfContained s) (hf : IsOf d f) (hg : IsOf d g)
    (h : f.table.AgreeOn s g.table) (name : String) (v : Value) :
    (f.set name v).1.table.AgreeOn s (g.set name v).1.table := by
  have hfits : f.wiring.Fits (f.table.putValue name v).names :=
    hf.fits.congr (FieldTable.declarations_putValue v)
  rw [hf.wiring] at hfits
  rw [table_set hf, table_set hg, hg.wiring, hf.wiring]
  exact hs.settled hfits (h.putValue name v)

/-- What the second of two edits does not reach cannot tell in which order they were made. -/
theorem agreeOn_set_set (h : IsOf d f) (x y : String) (a b : Value) :
    ((f.set x a).1.set y b).1.table.AgreeOn {n | ¬ d.wiring.Reaches y n}
      ((f.set y b).1.set x a).1.table := by
  have hlast := agreeOn_set (h.set x a) y b
  have hfirst := agreeOn_set_of_agreeOn (d.wiring.selfContained_not_reaches y) h (h.set y b)
    (agreeOn_set h y b) x a
  exact hlast.symm.trans hfirst

theorem fixed_set (h : IsOf d f) (name : String) (v : Value) :
    (f.set name v).1.fields.map Field.fixed = f.fields.map Field.fixed := by
  obtain ⟨cs, haccounts⟩ := accounts_set h name v
  exact haccounts.fixed

/-- Two edits change nothing but the fields. -/
theorem set_set_eq_with (h : IsOf d f) (x y : String) (a b : Value) :
    ((f.set x a).1.set y b).1 = { f with table := ((f.set x a).1.set y b).1.table } := by
  rw [set_eq_settled (h.set x a) y b, set_eq_settled h x a]

/-- Independent edits commute.  In every form in use, two edits that reach no field in common lead to the same form in
either order, even if the rules have conditions on what both of them reach. -/
theorem set_set_comm (h : InUse d f) (hdeps : (d.cascades.map (·.dependent)).toFinset.card ≤ 15)
    {x y : String} (hdisjoint : ∀ n, d.wiring.Reaches x n → ¬ d.wiring.Reaches y n) (a b : Value) :
    ((f.set x a).1.set y b).1 = ((f.set y b).1.set x a).1 := by
  have hof := h.isOf
  have hxy : IsOf d ((f.set x a).1.set y b).1 := (hof.set x a).set y b
  have hyx : IsOf d ((f.set y b).1.set x a).1 := (hof.set y b).set x a
  -- every field is missed by one of the edits
  have hviews : ∀ n,
      ((f.set x a).1.set y b).1.table.valueAt n = ((f.set y b).1.set x a).1.table.valueAt n ∧
        ((f.set x a).1.set y b).1.table.choicesAt n =
          ((f.set y b).1.set x a).1.table.choicesAt n := by
    intro n
    by_cases hx : d.wiring.Reaches x n
    · have hagree := agreeOn_set_set hof x y a b
      exact ⟨(hagree.value n (hdisjoint n hx)).symm, (hagree.choices n (hdisjoint n hx)).symm⟩
    · have hagree := agreeOn_set_set hof y x b a
      exact ⟨hagree.value n hx, hagree.choices n hx⟩
  have hdeps' : d.wiring.dependents.card < Wiring.maxPasses := Nat.lt_succ_of_le hdeps
  have hin : d.rules.InForce ((f.set x a).1.set y b).1.table :=
    ((h.called (.set x a)).called (.set y b)).inForce hdeps'
  have hin' : d.rules.InForce ((f.set y b).1.set x a).1.table :=
    ((h.called (.set y b)).called (.set x a)).inForce hdeps'
  have hfields : ((f.set x a).1.set y b).1.table.fields =
      ((f.set y b).1.set x a).1.table.fields := by
    refine FieldTable.fields_eq_of_views hyx.nodup ?_ (fun n => (hviews n).1)
      (fun n => (hviews n).2) fun n field field' hfield hfield' hdecl => ?_
    · exact ((fixed_set (hof.set x a) y b).trans (fixed_set hof x a)).trans
        ((fixed_set (hof.set y b) x a).trans (fixed_set hof y b)).symm
    · refine hin'.effective_eq hin hof.rules_apart hfield hfield' hdecl fun r _ _ => ?_
      exact Rule.holds_congr fun c _ => (hviews c.field).1
  have htable : ((f.set x a).1.set y b).1.table = ((f.set y b).1.set x a).1.table :=
    FieldTable.eq_of_fields hxy.pending hyx.pending hfields
  rw [set_set_eq_with hof, htable, ← set_set_eq_with hof]

/-- Two boxes, each with a twin that can be ticked while the box is ticked, and a note that must not stay blank once
both twins are cleared. -/
def twins : Definition where
  title := "Twins"
  declarations := [.checkbox "left" "Left" true, .checkbox "lefttwin" "Left twin" true,
    .checkbox "right" "Right" true, .checkbox "righttwin" "Right twin" true, .text "note" "Note"]
  rules := [(((Rule.on ["note"]).when "lefttwin" (.bool false)).when "righttwin"
    (.bool false)).giving .mandatory]
  cascades := [⟨["left"], "lefttwin", fun vs =>
      if vs = [.bool true] then [⟨"on", .bool true⟩] else []⟩,
    ⟨["right"], "righttwin", fun vs => if vs = [.bool true] then [⟨"on", .bool true⟩] else []⟩]
  checks := ⟨[], []⟩

/-- Either box may be cleared first: the note is needed after the second one only. -/
theorem set_set_comm_twins : InUse twins twins.opened ∧
    ((twins.opened.set "left" (.bool false)).1.set "right" (.bool false)).1 =
      ((twins.opened.set "right" (.bool false)).1.set "left" (.bool false)).1 ∧
    ((twins.opened.set "left" (.bool false)).1.table.field? "note").map (·.effective) ≠
      (((twins.opened.set "left" (.bool false)).1.set "right" (.bool false)).1.table.field?
        "note").map (·.effective) := by
  have huse : InUse twins twins.opened :=
    .opened (build_of_checkParts (by decide +kernel) (by decide +kernel))
  have hleft : {n | twins.wiring.Reaches "left" n} ⊆ {n | n ∈ ["left", "lefttwin"]} :=
    (Wiring.isLeast_reaches twins.wiring "left").2 ⟨by decide, by decide⟩
  have hright : {n | twins.wiring.Reaches "right" n} ⊆ {n | n ∈ ["right", "righttwin"]} :=
    (Wiring.isLeast_reaches twins.wiring "right").2 ⟨by decide, by decide⟩
  have hdisjoint : ∀ n ∈ ["left", "lefttwin"], n ∉ ["right", "righttwin"] := by decide
  refine ⟨huse, ?_, by decide +kernel⟩
  exact set_set_comm huse (by decide) (fun n hx hy => hdisjoint n (hleft hx) (hright hy))
    (.bool false) (.bool false)

end Independence

end Form

end FormConsole
