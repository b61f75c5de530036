import FormConsole.Proofs.Rule.Evaluation

/-!
# What a cascade does when it runs

A cascade that runs replaces the choices of its dependent and keeps or clears the value.  Only the choices,
the value and the news of the dependent can differ afterwards, and a value that is cleared stays so.

* `Cascade.recomputed`: a run as a function on tables, with `Cascade.valueAt_recomputed`,
  `Cascade.choicesAt_recomputed` and `Cascade.news_recomputed`.
* `Cascade.Tracks`, `Cascade.Held`: the choices are those for the current values, and the value is one of them
  or cleared. Together they say that another run would change nothing (`Cascade.recomputed_eq_self_iff`).
* `Cascade.Abreast`: the choices are right unless a driver changed; kept by the runs of other cascades and
  established by the cascade itself.
-/

namespace FormConsole

namespace Cascade

/-! ## A run as a function -/

section Recomputed

variable {c : Cascade} {t : FieldTable}

/-- All names that a cascade mentions are among these. -/
structure Fits (c : Cascade) (names : List String) : Prop where
  dependent : c.dependent ∈ names
  drivers : ∀ n ∈ c.drivers, n ∈ names

theorem fits_of_check (h : c.check t = .ok ()) : c.Fits t.names := by
  have hnames := forM_eq_ok_iff.mp h
  refine ⟨?_, ?_⟩
  · exact FieldTable.require_eq_ok_iff.mp (hnames c.dependent (by simp))
  · intro n hn
    exact FieldTable.require_eq_ok_iff.mp (hnames n (by simp [hn]))

/-- The choices for the current values of the drivers. -/
def offered (c : Cascade) (t : FieldTable) : List Choice :=
  c.compute (c.drivers.map t.valueAt)

/-- The table after the cascade ran. -/
def recomputed (t : FieldTable) (c : Cascade) : FieldTable :=
  (t.putChoices c.dependent (c.offered t)).putValue c.dependent
    (surviving (c.offered t) (t.valueAt c.dependent))

/-- A cascade is not refused if all names that it mentions are declared. -/
theorem run_recompute (h : c.Fits t.names) : c.recompute.run t = .ok () (recomputed t c) := by
  have hdrivers : (fun t : FieldTable => c.drivers.mapM t.valueOf) t =
      .ok (c.drivers.map t.valueAt) := FieldTable.mapM_valueOf_of_mem h.drivers
  have hprior : (fun t : FieldTable => t.valueOf c.dependent) t = .ok (t.valueAt c.dependent) :=
    FieldTable.valueOf_of_mem h.dependent
  obtain ⟨b, hchoices⟩ := Edit.run_replaceChoices_of_mem h.dependent (c.offered t)
  have hmem : c.dependent ∈ (t.putChoices c.dependent (c.offered t)).names := by
    rw [FieldTable.names_putChoices]
    exact h.dependent
  have hvalue := Edit.run_setValue_of_mem hmem (surviving (c.offered t) (t.valueAt c.dependent))
  rw [recompute, Edit.run_bind_of_ok (Edit.run_ask_of_ok hdrivers),
    Edit.run_bind_of_ok (Edit.run_ask_of_ok hprior)]
  exact (Edit.run_bind_of_ok hchoices).trans (Edit.run_bind_of_ok hvalue)

end Recomputed

/-! ## What is left of a value -/

section Surviving

variable {choices : List Choice} {v : Value}

theorem surviving_eq_self_iff :
    surviving choices v = v ↔ Choice.offers choices v = true ∨ v = v.cleared := by
  unfold surviving
  by_cases h : Choice.offers choices v = true
  · simp [h]
  · simp [h, eq_comm]

theorem surviving_of_ne (h : surviving choices v ≠ v) : surviving choices v = v.cleared := by
  unfold surviving at h ⊢
  split
  · next hoffers => exact absurd (if_pos hoffers) h
  · rfl

theorem surviving_cleared : surviving choices v.cleared = v.cleared := by
  rw [surviving_eq_self_iff]
  exact Or.inr (Value.cleared_cleared v).symm

theorem surviving_surviving : surviving choices (surviving choices v) = surviving choices v := by
  by_cases h : surviving choices v = v
  · rw [h, h]
  · rw [surviving_of_ne h, surviving_cleared]

end Surviving

/-! ## What a run changes -/

section Effect

variable {c : Cascade} {t : FieldTable}

@[simp] theorem names_recomputed : (recomputed t c).names = t.names := by
  rw [recomputed, FieldTable.names_putValue, FieldTable.names_putChoices]

@[simp] theorem declarations_recomputed : (recomputed t c).declarations = t.declarations := by
  rw [recomputed, FieldTable.declarations_putValue, FieldTable.declarations_putChoices]

theorem mem_names_putChoices (h : c.dependent ∈ t.names) :
    c.dependent ∈ (t.putChoices c.dependent (c.offered t)).names := by
  rwa [FieldTable.names_putChoices]

theorem valueAt_recomputed (h : c.dependent ∈ t.names) (name : String) :
    (recomputed t c).valueAt name =
      if name = c.dependent then surviving (c.offered t) (t.valueAt c.dependent)
      else t.valueAt name := by
  rw [recomputed, FieldTable.valueAt_putValue _ _ (mem_names_putChoices h),
    FieldTable.valueAt_putChoices]

theorem choicesAt_recomputed (h : c.dependent ∈ t.names) (name : String) :
    (recomputed t c).choicesAt name =
      if name = c.dependent then c.offered t else t.choicesAt name := by
  rw [recomputed, FieldTable.choicesAt_putValue, FieldTable.choicesAt_putChoices _ _ h]

theorem news_recomputed (h : c.dependent ∈ t.names) :
    (recomputed t c).news = t.news ++
      if t.valueAt c.dependent = surviving (c.offered t) (t.valueAt c.dependent) then []
      else [c.dependent] := by
  rw [recomputed, FieldTable.news_putValue _ (mem_names_putChoices h),
    FieldTable.news_putChoices, FieldTable.valueAt_putChoices]

theorem sameConstraints_recomputed (t : FieldTable) (c : Cascade) :
    t.SameConstraints (recomputed t c) :=
  (FieldTable.sameConstraints_putChoices _).trans (FieldTable.sameConstraints_putValue _)

theorem extends_recomputed (t : FieldTable) (c : Cascade) : t.Extends (recomputed t c) :=
  (FieldTable.extends_write ..).trans (FieldTable.extends_write ..)

end Effect

/-! ## Cascades that are in line with the values -/

section Consistent

variable {c d : Cascade} {t : FieldTable}

/-- The dependent has the choices for the current values of the drivers. -/
def Tracks (c : Cascade) (t : FieldTable) : Prop :=
  t.choicesAt c.dependent = c.offered t

/-- The value of the dependent is one of its choices, or it is cleared. -/
def Held (c : Cascade) (t : FieldTable) : Prop :=
  surviving (t.choicesAt c.dependent) (t.valueAt c.dependent) = t.valueAt c.dependent

/-- The dependent has the choices for the current values of the drivers, unless a driver changed and that was
not dealt with. -/
def Abreast (c : Cascade) (t : FieldTable) : Prop :=
  (∀ n ∈ t.news, c.watches n = false) → c.Tracks t

theorem Abreast.tracks (h : c.Abreast t) (hquiet : t.news = []) : c.Tracks t := by
  refine h fun n hn => ?_
  rw [hquiet] at hn
  exact absurd hn List.not_mem_nil

/-- A cascade that is in line with the values changes nothing, and no other one does. -/
theorem recomputed_eq_self_iff (h : c.dependent ∈ t.names) :
    recomputed t c = t ↔ c.Tracks t ∧ c.Held t := by
  refine ⟨?_, ?_⟩
  · intro heq
    have htracks : c.Tracks t := by
      have := choicesAt_recomputed h c.dependent
      rwa [heq, if_pos rfl] at this
    have hvalue := valueAt_recomputed h c.dependent
    rw [heq, if_pos rfl, ← htracks] at hvalue
    exact ⟨htracks, hvalue.symm⟩
  · rintro ⟨htracks, hheld⟩
    rw [Held, htracks] at hheld
    rw [recomputed, hheld, ← htracks, FieldTable.putChoices_choicesAt,
      FieldTable.putValue_valueAt]

theorem watches_iff {name : String} : c.watches name = true ↔ name ∈ c.drivers := by
  simp [watches]

theorem offered_congr {t' : FieldTable} (h : ∀ n ∈ c.drivers, t'.valueAt n = t.valueAt n) :
    c.offered t' = c.offered t := by
  rw [offered, offered, List.map_congr_left h]

theorem Tracks.congr (h : c.Tracks t) {t' : FieldTable} (hv : ∀ n, t'.valueAt n = t.valueAt n)
    (hc : ∀ n, t'.choicesAt n = t.choicesAt n) : c.Tracks t' := by
  rw [Tracks, hc, offered_congr fun n _ => hv n]
  exact h

theorem Held.congr (h : c.Held t) {t' : FieldTable}
    (hv : t'.valueAt c.dependent = t.valueAt c.dependent)
    (hc : t'.choicesAt c.dependent = t.choicesAt c.dependent) : c.Held t' := by
  rw [Held, hc, hv]
  exact h

theorem Tracks.drain (h : c.Tracks t) : c.Tracks t.drain := h

theorem Held.drain (h : c.Held t) : c.Held t.drain := h

/-- If no news concern the cascade, the drivers have their old values. -/
theorem offered_putValue {name : String} {v : Value} (hmem : name ∈ t.names)
    (hnews : ∀ n ∈ (t.putValue name v).news, c.watches n = false) :
    c.offered (t.putValue name v) = c.offered t := by
  refine offered_congr fun n hn => ?_
  rw [FieldTable.valueAt_putValue v n hmem]
  split
  · next heq =>
    by_contra hne
    subst heq
    rw [FieldTable.news_putValue v hmem, if_neg fun h => hne h.symm] at hnews
    have := hnews n (by simp)
    rw [watches_iff.mpr hn] at this
    simp at this
  · rfl

theorem Abreast.putValue (h : c.Abreast t) {name : String} (hmem : name ∈ t.names) (v : Value) :
    c.Abreast (t.putValue name v) := by
  intro hnews
  have hold : ∀ n ∈ t.news, c.watches n = false := by
    intro n hn
    refine hnews n ?_
    rw [FieldTable.news_putValue v hmem]
    exact List.mem_append_left _ hn
  rw [Tracks, FieldTable.choicesAt_putValue, offered_putValue hmem hnews]
  exact h hold

theorem Abreast.putChoices (h : c.Abreast t) {name : String} (hmem : name ∈ t.names)
    (hne : c.dependent ≠ name) (choices : List Choice) : c.Abreast (t.putChoices name choices) := by
  intro hnews
  rw [FieldTable.news_putChoices] at hnews
  rw [Tracks, FieldTable.choicesAt_putChoices _ _ hmem, if_neg hne,
    offered_congr fun n _ => FieldTable.valueAt_putChoices choices n]
  exact h hnews

/-- A run of another cascade leaves the cascade abreast. -/
theorem Abreast.recomputed (h : c.Abreast t) (hmem : d.dependent ∈ t.names)
    (hne : c.dependent ≠ d.dependent) : c.Abreast (recomputed t d) :=
  (h.putChoices hmem hne _).putValue (mem_names_putChoices hmem) _

/-- A cascade that ran is abreast, even if it drives itself. -/
theorem abreast_recomputed_self (hmem : c.dependent ∈ t.names) :
    c.Abreast (Cascade.recomputed t c) := by
  have hchosen : c.Abreast (t.putChoices c.dependent (c.offered t)) := by
    intro _
    rw [Tracks, FieldTable.choicesAt_putChoices _ _ hmem, if_pos rfl,
      offered_congr fun n _ => FieldTable.valueAt_putChoices _ n]
  exact hchosen.putValue (mem_names_putChoices hmem) _

/-- A value that is written from outside has to be one of the choices. -/
theorem Held.putValue (h : c.Held t) {name : String} (hmem : name ∈ t.names) {v : Value}
    (hv : name = c.dependent → Choice.offers (t.choicesAt name) v = true) :
    c.Held (t.putValue name v) := by
  rw [Held, FieldTable.choicesAt_putValue, FieldTable.valueAt_putValue _ _ hmem]
  split
  · next hname =>
    rw [hname]
    exact surviving_eq_self_iff.mpr (Or.inl (hv hname.symm))
  · exact h

theorem Held.putChoices (h : c.Held t) {name : String} (hmem : name ∈ t.names)
    (hne : c.dependent ≠ name) (choices : List Choice) : c.Held (t.putChoices name choices) := by
  rw [Held, FieldTable.valueAt_putChoices, FieldTable.choicesAt_putChoices _ _ hmem, if_neg hne]
  exact h

end Consistent

/-! ## Several cascades one after the other -/

section Runs

variable {t : FieldTable} {cs : List Cascade}

@[simp] theorem names_foldl_recomputed (cs : List Cascade) (t : FieldTable) :
    (cs.foldl recomputed t).names = t.names := by
  induction cs generalizing t with
  | nil => rfl
  | cons c cs ih => rw [List.foldl_cons, ih, names_recomputed]

@[simp] theorem declarations_foldl_recomputed (cs : List Cascade) (t : FieldTable) :
    (cs.foldl recomputed t).declarations = t.declarations := by
  induction cs generalizing t with
  | nil => rfl
  | cons c cs ih => rw [List.foldl_cons, ih, declarations_recomputed]

theorem sameConstraints_foldl (cs : List Cascade) (t : FieldTable) :
    t.SameConstraints (cs.foldl recomputed t) := by
  induction cs generalizing t with
  | nil => exact fun _ => rfl
  | cons c cs ih => exact (sameConstraints_recomputed t c).trans (ih _)

/-- If cascades bring a table back that was only ever extended, none of them did anything. -/
theorem eq_of_foldl_eq {u : FieldTable} (hu : t.Extends u) (h : cs.foldl recomputed u = t) :
    u = t ∧ ∀ c ∈ cs, recomputed t c = t := by
  have hfold := FieldTable.extends_foldl extends_recomputed cs u
  have hlen : (cs.foldl recomputed u).pending.length = t.pending.length := by rw [h]
  have hfirst : u = t := hu.eq_of_length_le (by rw [← hlen]; exact hfold.length_le)
  have hcascades := FieldTable.eq_of_foldl_length_le extends_recomputed
    (by rw [hlen]; exact hu.length_le)
  rw [hfirst] at hcascades
  exact ⟨hfirst, hcascades⟩

/-- Runs of cascades into other fields leave value and choices of a field alone. -/
theorem untouched_foldl {name : String} (hmem : ∀ c ∈ cs, c.dependent ∈ t.names)
    (hname : name ∉ cs.map (·.dependent)) :
    (cs.foldl recomputed t).valueAt name = t.valueAt name ∧
      (cs.foldl recomputed t).choicesAt name = t.choicesAt name := by
  induction cs generalizing t with
  | nil => exact ⟨rfl, rfl⟩
  | cons c cs ih =>
    rw [List.map_cons, List.mem_cons, not_or] at hname
    have hc := hmem c (by simp)
    obtain ⟨hvalue, hchoices⟩ := ih (t := recomputed t c) (fun d hd => by
      rw [names_recomputed]
      exact hmem d (by simp [hd])) hname.2
    rw [List.foldl_cons, hvalue, hchoices, valueAt_recomputed hc, choicesAt_recomputed hc,
      if_neg hname.1, if_neg hname.1]
    exact ⟨rfl, rfl⟩

theorem Abreast.foldl {c : Cascade} (h : c.Abreast t) (hmem : ∀ c ∈ cs, c.dependent ∈ t.names)
    (hc : c.dependent ∉ cs.map (·.dependent)) : c.Abreast (cs.foldl Cascade.recomputed t) := by
  induction cs generalizing t with
  | nil => exact h
  | cons d cs ih =>
    rw [List.map_cons, List.mem_cons, not_or] at hc
    refine ih (h.recomputed (hmem d (by simp)) hc.1) (fun e he => ?_) hc.2
    rw [names_recomputed]
    exact hmem e (by simp [he])

/-- Of cascades into pairwise different fields, those before and after one of them run into other fields. -/
theorem split_of_mem {c : Cascade} (hc : c ∈ cs) (hnodup : (cs.map (·.dependent)).Nodup) :
    ∃ before after, cs = before ++ c :: after ∧ c.dependent ∉ before.map (·.dependent) ∧
      c.dependent ∉ after.map (·.dependent) := by
  obtain ⟨before, after, rfl⟩ := List.append_of_mem hc
  rw [List.map_append, List.map_cons, List.nodup_middle, List.nodup_cons, List.mem_append,
    not_or] at hnodup
  exact ⟨before, after, rfl, hnodup.1⟩

/-- A cascade that ran among others, into pairwise different fields, is abreast. -/
theorem abreast_foldl_of_mem {c : Cascade} (hc : c ∈ cs) (hnodup : (cs.map (·.dependent)).Nodup)
    (hmem : ∀ c ∈ cs, c.dependent ∈ t.names) : c.Abreast (cs.foldl recomputed t) := by
  obtain ⟨before, after, rfl, -, hafter⟩ := split_of_mem hc hnodup
  rw [List.foldl_append, List.foldl_cons]
  have hcmem : c.dependent ∈ (before.foldl recomputed t).names := by
    rw [names_foldl_recomputed]
    exact hmem c (by simp)
  refine (abreast_recomputed_self hcmem).foldl (fun d hd => ?_) hafter
  rw [names_recomputed, names_foldl_recomputed]
  exact hmem d (by simp [hd])

/-- What a cascade that ran among others, into pairwise different fields, left of the value of its dependent.
-/
theorem valueAt_foldl_of_mem {c : Cascade} (hc : c ∈ cs) (hnodup : (cs.map (·.dependent)).Nodup)
    (hmem : ∀ c ∈ cs, c.dependent ∈ t.names) :
    (cs.foldl recomputed t).valueAt c.dependent =
      surviving ((cs.foldl recomputed t).choicesAt c.dependent) (t.valueAt c.dependent) := by
  obtain ⟨before, after, rfl, hbefore, hafter⟩ := split_of_mem hc hnodup
  rw [List.foldl_append, List.foldl_cons]
  obtain ⟨hprior, -⟩ := untouched_foldl (fun d hd => hmem d (by simp [hd])) hbefore
  have hcmem : c.dependent ∈ (before.foldl recomputed t).names := by
    rw [names_foldl_recomputed]
    exact hmem c (by simp)
  obtain ⟨hvalue, hchoices⟩ := untouched_foldl (t := recomputed (before.foldl recomputed t) c)
    (fun d hd => by
      rw [names_recomputed, names_foldl_recomputed]
      exact hmem d (by simp [hd])) hafter
  rw [hvalue, hchoices, valueAt_recomputed hcmem, choicesAt_recomputed hcmem, if_pos rfl,
    if_pos rfl, hprior]

/-- Only dependents of cascades that ran are among the news. -/
theorem mem_news_foldl {name : String} (hmem : ∀ c ∈ cs, c.dependent ∈ t.names)
    (h : name ∈ (cs.foldl recomputed t).news) :
    name ∈ t.news ∨ ∃ c ∈ cs, c.dependent = name := by
  induction cs generalizing t with
  | nil => exact Or.inl h
  | cons c cs ih =>
    have hc := hmem c (by simp)
    rcases ih (t := recomputed t c) (fun d hd => by
      rw [names_recomputed]
      exact hmem d (by simp [hd])) h with h | ⟨d, hd, hname⟩
    · rw [news_recomputed hc, List.mem_append] at h
      rcases h with h | h
      · exact Or.inl h
      · split at h
        · simp at h
        · exact Or.inr ⟨c, by simp, (List.mem_singleton.mp h).symm⟩
    · exact Or.inr ⟨d, by simp [hd], hname⟩

end Runs

end Cascade

/-- A run of a cascade leaves the rules abreast. -/
theorem RuleSet.Abreast.recomputed {rules : RuleSet} {t : FieldTable} (h : rules.Abreast t)
    {c : Cascade} (hmem : c.dependent ∈ t.names) : rules.Abreast (Cascade.recomputed t c) :=
  (h.putChoices _).putValue (Cascade.mem_names_putChoices hmem) _

theorem RuleSet.Abreast.foldl_recomputed {rules : RuleSet} {cs : List Cascade} {t : FieldTable}
    (h : rules.Abreast t) (hmem : ∀ c ∈ cs, c.dependent ∈ t.names) :
    rules.Abreast (cs.foldl Cascade.recomputed t) := by
  induction cs generalizing t with
  | nil => exact h
  | cons c cs ih =>
    refine ih (h.recomputed (hmem c (by simp))) fun d hd => ?_
    rw [Cascade.names_recomputed]
    exact hmem d (by simp [hd])

end FormConsole
