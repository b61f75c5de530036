import FormConsole.Proofs.Field.Compare
import FormConsole.Proofs.Form.FixedPoint
import FormConsole.Proofs.Form.Use

/-!
# Change sets are complete

Every write is recorded where it is made, and whatever takes the records of a table hands them on.  So the changes
that a call answers with account for all that is different after it, over any number of passes and also when
these are cut off.

* `Field.ChangedBy`: what may be different about a field once some changes were made.
* `Accounts`: a list of changes accounts for the difference between two lists of fields; `Accounts.trans`.
* `FieldTable.Logs`: the changes that were recorded since then account for the difference; kept by every write,
  and hence by rules, cascades and passes (`Wiring.exists_history_eq`).
* `Form.changes_complete`: the change set of a call is complete, and nothing is left over for the next call.
-/

namespace FormConsole

/-! ## What changes account for -/

section Accounts

variable {cs cs' : ChangeSet} {f f' f'' : Field} {fs fs' fs'' : List Field}

theorem ChangeSet.touched_iff {name : String} {kind : ChangeKind} :
    cs.touched name kind = true ↔ ⟨name, kind⟩ ∈ cs := by
  rw [ChangeSet.touched, List.contains_iff_mem]

/-- Only the value, the effective constraints and the choices of the field may be different, and each of them only
if it is among what the changes touch. -/
structure Field.ChangedBy (cs : ChangeSet) (f f' : Field) : Prop where
  decl : f'.decl = f.decl
  committed : f'.committed = f.committed
  violation : f'.violation = f.violation
  value : f'.value ≠ f.value → cs.touched f.name .value = true
  effective : f'.effective ≠ f.effective → cs.touched f.name .constraints = true
  choices : f'.choices ≠ f.choices → cs.touched f.name .choices = true

theorem Field.ChangedBy.refl (cs : ChangeSet) (f : Field) : f.ChangedBy cs f :=
  ⟨rfl, rfl, rfl, absurd rfl, absurd rfl, absurd rfl⟩

theorem Field.ChangedBy.trans (h : f.ChangedBy cs f') (h' : f'.ChangedBy cs' f'') :
    f.ChangedBy (cs ++ cs') f'' := by
  have hname : f'.name = f.name := congrArg Declaration.name h.decl
  have htouched : ∀ kind, cs.touched f.name kind = true ∨ cs'.touched f'.name kind = true →
      ChangeSet.touched (cs ++ cs') f.name kind = true := by
    intro kind hkind
    simp only [ChangeSet.touched_iff, List.mem_append]
    rwa [ChangeSet.touched_iff, ChangeSet.touched_iff, hname] at hkind
  -- what both steps leave alone is the same at the end
  refine ⟨h'.decl.trans h.decl, h'.committed.trans h.committed, h'.violation.trans h.violation,
    fun hne => htouched _ ?_, fun hne => htouched _ ?_, fun hne => htouched _ ?_⟩
  · by_cases hfirst : f'.value = f.value
    · exact Or.inr (h'.value (hfirst ▸ hne))
    · exact Or.inl (h.value hfirst)
  · by_cases hfirst : f'.effective = f.effective
    · exact Or.inr (h'.effective (hfirst ▸ hne))
    · exact Or.inl (h.effective hfirst)
  · by_cases hfirst : f'.choices = f.choices
    · exact Or.inr (h'.choices (hfirst ▸ hne))
    · exact Or.inl (h.choices hfirst)

theorem Field.changedBy_value (f : Field) (v : Value) :
    f.ChangedBy [⟨f.name, .value⟩] { f with value := v } :=
  ⟨rfl, rfl, rfl, fun _ => by simp [ChangeSet.touched], absurd rfl, absurd rfl⟩

theorem Field.changedBy_constraints (f : Field) (c : Constraints) :
    f.ChangedBy [⟨f.name, .constraints⟩] { f with effective := c } :=
  ⟨rfl, rfl, rfl, absurd rfl, fun _ => by simp [ChangeSet.touched], absurd rfl⟩

theorem Field.changedBy_choices (f : Field) (choices : List Choice) :
    f.ChangedBy [⟨f.name, .choices⟩] { f with choices := choices } :=
  ⟨rfl, rfl, rfl, absurd rfl, absurd rfl, fun _ => by simp [ChangeSet.touched]⟩

/-- What no change is about. -/
def Field.fixed (f : Field) : Declaration × Value × Option String :=
  (f.decl, f.committed, f.violation)

theorem Field.ChangedBy.fixed (h : f.ChangedBy cs f') : f'.fixed = f.fixed := by
  rw [Field.fixed, Field.fixed, h.decl, h.committed, h.violation]

theorem Field.ChangedBy.rest (h : f.ChangedBy cs f') :
    f' = { f with value := f'.value, choices := f'.choices, effective := f'.effective } := by
  cases f
  cases f'
  simp only [Field.mk.injEq, true_and]
  exact ⟨h.decl, h.committed, h.violation⟩

/-- Without a change nothing is different. -/
theorem Field.ChangedBy.eq_of_nil (h : f.ChangedBy [] f') : f' = f := by
  have hvalue : f'.value = f.value := by
    by_contra hne
    simpa [ChangeSet.touched] using h.value hne
  have heffective : f'.effective = f.effective := by
    by_contra hne
    simpa [ChangeSet.touched] using h.effective hne
  have hchoices : f'.choices = f.choices := by
    by_contra hne
    simpa [ChangeSet.touched] using h.choices hne
  rw [h.rest, hvalue, hchoices, heffective]

/-- The changes are changes of these fields, and account for all that is different about them. -/
structure Accounts (cs : ChangeSet) (fs fs' : List Field) : Prop where
  changed : List.Forall₂ (Field.ChangedBy cs) fs fs'
  declared : ∀ c ∈ cs, c.field ∈ fs.map (·.name)

theorem Accounts.refl (fs : List Field) : Accounts [] fs fs :=
  ⟨List.forall₂_same.mpr fun f _ => .refl [] f, fun _ hc => absurd hc List.not_mem_nil⟩

theorem forall₂_changedBy_trans (h : List.Forall₂ (Field.ChangedBy cs) fs fs')
    (h' : List.Forall₂ (Field.ChangedBy cs') fs' fs'') :
    List.Forall₂ (Field.ChangedBy (cs ++ cs')) fs fs'' := by
  induction h generalizing fs'' with
  | nil =>
    cases h' with
    | nil => exact .nil
  | cons hfirst _ ih =>
    cases h' with
    | cons hfirst' hrest' => exact .cons (hfirst.trans hfirst') (ih hrest')

theorem Accounts.fixed (h : Accounts cs fs fs') : fs'.map Field.fixed = fs.map Field.fixed := by
  have hchanged := h.changed
  clear h
  induction hchanged with
  | nil => rfl
  | cons hfirst _ ih => rw [List.map_cons, List.map_cons, hfirst.fixed, ih]

theorem names_eq_of_fixed (h : fs'.map Field.fixed = fs.map Field.fixed) :
    fs'.map (·.name) = fs.map (·.name) := by
  have := congrArg (List.map fun fixed => fixed.1.name) h
  rwa [List.map_map, List.map_map] at this

/-- Changes that were made one after the other account for what they did together. -/
theorem Accounts.trans (h : Accounts cs fs fs') (h' : Accounts cs' fs' fs'') :
    Accounts (cs ++ cs') fs fs'' := by
  refine ⟨forall₂_changedBy_trans h.changed h'.changed, fun c hc => ?_⟩
  rcases List.mem_append.mp hc with hc | hc
  · exact h.declared c hc
  · rw [← names_eq_of_fixed h.fixed]
    exact h'.declared c hc

theorem Accounts.eq_of_nil (h : Accounts [] fs fs') : fs' = fs := by
  have heq : List.Forall₂ (· = ·) fs fs' := h.changed.imp fun _ _ hf => hf.eq_of_nil.symm
  rw [List.forall₂_eq_eq_eq] at heq
  exact heq.symm

end Accounts

/-! ## Writes are recorded -/

namespace FieldTable

section Logs

variable {t t' t'' : FieldTable}

@[simp] theorem fields_drain (t : FieldTable) : t.drain.fields = t.fields := rfl

/-- The changes that were recorded since the first table account for the difference between the two. -/
def Logs (t t' : FieldTable) : Prop :=
  ∃ cs, t'.pending = t.pending ++ cs ∧ Accounts cs t.fields t'.fields

theorem Logs.refl (t : FieldTable) : Logs t t :=
  ⟨[], (List.append_nil _).symm, .refl _⟩

theorem Logs.trans (h : Logs t t') (h' : Logs t' t'') : Logs t t'' := by
  obtain ⟨cs, hpending, haccounts⟩ := h
  obtain ⟨cs', hpending', haccounts'⟩ := h'
  exact ⟨cs ++ cs', by rw [hpending', hpending, List.append_assoc], haccounts.trans haccounts'⟩

/-- If nothing was recorded at first, the records account for the difference. -/
theorem Logs.accounts (h : Logs t t') (hpending : t.pending = []) :
    Accounts t'.pending t.fields t'.fields := by
  obtain ⟨cs, hcs, haccounts⟩ := h
  rwa [hcs, hpending, List.nil_append]

/-- A write is recorded if the kind of its record is the kind of what it writes. -/
theorem logs_write {kind : ChangeKind} {g : Field → Field}
    (hg : ∀ f : Field, f.ChangedBy [⟨f.name, kind⟩] (g f)) (t : FieldTable) (name : String) :
    Logs t (t.write name kind g) := by
  unfold write
  split
  · exact .refl t
  · next f hf =>
    split
    · exact .refl t
    · refine ⟨[⟨name, kind⟩], rfl, ?_, ?_⟩
      · refine List.forall₂_map_right_iff.mpr (List.forall₂_same.mpr fun f _ => ?_)
        split
        · next hname =>
          subst hname
          exact hg f
        · exact .refl _ f
      · intro c hc
        rw [List.mem_singleton.mp hc]
        exact List.mem_map.mpr ⟨f, mem_of_field? hf, name_of_field? hf⟩

theorem logs_value (v : Field → Value) (t : FieldTable) (name : String) :
    Logs t (t.write name .value fun f => { f with value := v f }) :=
  logs_write (fun f => f.changedBy_value (v f)) t name

theorem logs_putConstraints (c : Field → Constraints) (t : FieldTable) (name : String) :
    Logs t (t.putConstraints name c) :=
  logs_write (fun f => f.changedBy_constraints (c f)) t name

theorem logs_putChoices (choices : List Choice) (t : FieldTable) (name : String) :
    Logs t (t.putChoices name choices) :=
  logs_write (fun f => f.changedBy_choices choices) t name

theorem logs_putValue (v : Value) (t : FieldTable) (name : String) : Logs t (t.putValue name v) :=
  logs_value (fun _ => v) t name

theorem logs_reset (t : FieldTable) (name : String) : Logs t (t.reset name) :=
  (logs_value (·.decl.default) t name).trans (logs_putConstraints _ _ name)

theorem logs_foldl {α : Type} {step : FieldTable → α → FieldTable} (hstep : ∀ t a, Logs t (step t a))
    (as : List α) (t : FieldTable) : Logs t (as.foldl step t) := by
  induction as generalizing t with
  | nil => exact .refl t
  | cons a as ih => exact (hstep t a).trans (ih (step t a))

end Logs

end FieldTable

/-! ## Passes hand on what they record -/

namespace Wiring

section Passes

variable {w : Wiring} {t u : FieldTable}

theorem logs_putState (ws : List (Claim × Bool)) (t : FieldTable) (c : Claim) :
    t.Logs (RuleSet.putState ws t c) :=
  FieldTable.logs_putConstraints _ t c.field

theorem logs_evaluated (rules : RuleSet) (t : FieldTable) : t.Logs (rules.evaluated t) :=
  FieldTable.logs_foldl (logs_putState _) rules.claims t

theorem logs_recomputed (t : FieldTable) (c : Cascade) : t.Logs (Cascade.recomputed t c) :=
  (FieldTable.logs_putChoices _ t c.dependent).trans (FieldTable.logs_putValue _ _ c.dependent)

theorem logs_reacted (w : Wiring) (changed : List String) (t : FieldTable) :
    t.Logs (w.reacted changed t) := by
  have hruled : t.Logs (w.ruled changed t) := by
    unfold ruled
    split
    · exact logs_evaluated _ t
    · exact .refl t
  exact hruled.trans (FieldTable.logs_foldl logs_recomputed _ _)

theorem logs_reactedAll (w : Wiring) (t : FieldTable) : t.Logs (w.reactedAll t) :=
  (logs_evaluated _ t).trans (FieldTable.logs_foldl logs_recomputed _ _)

/-- A pass starts with no records, so that those it leaves account for what it did. -/
theorem accounts_pass (hnews : t.news ≠ []) :
    Accounts (w.pass t).pending t.fields (w.pass t).fields := by
  rw [pass, if_neg hnews]
  exact (logs_reacted w t.news t.drain).accounts rfl

/-- All changes are those that the table starts with and those that account for what the passes did. -/
theorem exists_history_eq (w : Wiring) (n : Nat) (t : FieldTable) :
    ∃ cs, w.history n t = t.pending ++ cs ∧ Accounts cs t.fields (w.pass^[n] t).fields := by
  induction n generalizing t with
  | zero => exact ⟨[], (List.append_nil _).symm, .refl _⟩
  | succ n ih =>
    by_cases hnews : t.news = []
    · rw [history_of_quiet w hnews, iterate_pass_of_quiet w hnews]
      exact ⟨[], (List.append_nil _).symm, .refl _⟩
    · obtain ⟨cs, hcs, haccounts⟩ := ih (w.pass t)
      refine ⟨(w.pass t).pending ++ cs, ?_, (accounts_pass hnews).trans haccounts⟩
      rw [history, if_neg hnews, hcs]

/-- The changes of a call account for what was recorded before the passes and for the passes. -/
theorem accounts_settled (h : t.Logs u) (hpending : t.pending = []) :
    Accounts (w.history maxPasses u) t.fields (w.settled u).fields := by
  obtain ⟨cs, hcs, haccounts⟩ := exists_history_eq w maxPasses u
  rw [hcs, settled, FieldTable.fields_drain]
  exact (h.accounts hpending).trans haccounts

theorem accounts_refreshed (hpending : t.pending = []) :
    Accounts (w.history maxPasses (w.reactedAll t)) t.fields (w.refreshed t).fields := by
  rw [refreshed]
  exact accounts_settled (logs_reactedAll w t) hpending

end Passes

end Wiring

namespace Form

/-! ## The answer of a call -/

section ChangeSets

variable {d : Definition} {f : Form} {c : Call} {cs : ChangeSet}

/-- If the changes account for what an edit does, they do so for a call that makes it for declared names only. -/
theorem accounts_of_answer {p : Prop} [Decidable p] {changes : ChangeSet} {e : FormError}
    {t u : FieldTable} (h : Accounts changes t.fields u.fields)
    (hcs : (if p then .ok (.changes changes) else .error e) = Except.ok (Answer.changes cs)) :
    Accounts cs t.fields (if p then u else t).fields := by
  split at hcs
  · next hp =>
    injection hcs with hcs
    injection hcs with hcs
    rwa [if_pos hp, ← hcs]
  · simp at hcs

/-- The changes that a call answers with account for all that it did to the fields. -/
theorem accounts_after (h : IsOf d f) (hcs : f.answer c = .ok (.changes cs)) :
    Accounts cs f.table.fields (f.after c).fields := by
  cases c with
  | set name v =>
    have hedit : f.table.Logs (f.table.putValue name v) := FieldTable.logs_putValue v _ name
    exact accounts_of_answer (Wiring.accounts_settled hedit h.pending) hcs
  | resetToBaseline name =>
    have hedit : f.table.Logs (f.table.reset name) := FieldTable.logs_reset _ name
    have hpasses := Wiring.accounts_settled (w := f.wiring) hedit h.pending
    exact accounts_of_answer (hpasses.trans (Wiring.accounts_refreshed rfl)) hcs
  | setChoices name choices =>
    have hedit : f.table.Logs (offering f.table name choices) :=
      (FieldTable.logs_putChoices choices _ name).trans (FieldTable.logs_putValue _ _ name)
    exact accounts_of_answer (Wiring.accounts_settled hedit h.pending) hcs
  | refresh =>
    injection hcs with hcs
    injection hcs with hcs
    rw [after, ← hcs]
    exact Wiring.accounts_refreshed h.pending
  | load stored => simp [answer] at hcs
  | commit => simp [answer] at hcs
  | validate => simp [answer] at hcs

/-- Change sets are complete.  In every form in use, the changes that a call answers with touch whatever is
different about the values, the effective constraints and the choices after it; they are changes of declared
fields, nothing is different if there are none, and nothing else is ever different.  No call leaves a change
behind for the next one. -/
theorem changes_complete (h : InUse d f) (c : Call) :
    (∀ cs, (f.call c).2 = .ok (.changes cs) →
      List.Forall₂ (Field.ChangedBy cs) f.fields (f.call c).1.fields ∧
      (∀ name ∈ cs.fields, name ∈ f.fields.map (·.name)) ∧
      (cs = [] → (f.call c).1 = f) ∧
      (f.call c).1 = { f with table := (f.call c).1.table }) ∧
    (f.call c).1.table.pending = [] := by
  have hof := h.isOf
  have hpending : (f.after c).pending = [] := pending_after hof c
  rw [call_eq hof]
  refine ⟨fun cs hcs => ?_, hpending⟩
  have haccounts := accounts_after hof hcs
  refine ⟨haccounts.changed, fun name hname => ?_, fun hnil => ?_, rfl⟩
  · obtain ⟨change, hchange, rfl⟩ := List.mem_map.mp (Names.mem_ofList.mp hname)
    exact haccounts.declared change hchange
  · subst hnil
    rw [FieldTable.eq_of_fields hpending hof.pending haccounts.eq_of_nil]

/-- A call that would need one pass more than are allowed answers with some changes, and they account for all that it
did. -/
theorem changes_complete_chain : ∃ cs,
    ((chain 17).opened.call (.set (link 0) (.bool false))).2 = .ok (.changes cs) ∧ cs ≠ [] ∧
    List.Forall₂ (Field.ChangedBy cs) (chain 17).opened.fields
      ((chain 17).opened.call (.set (link 0) (.bool false))).1.fields := by
  have hbuild : build (chain 17) = .ok (chain 17).opened :=
    build_of_checkParts (by decide +kernel) (by decide +kernel)
  have hof := isOf_of_build hbuild
  have hname : link 0 ∈ (chain 17).opened.table.names := by decide +kernel
  have hcomplete := (changes_complete (.opened hbuild) (.set (link 0) (.bool false))).1
  have hanswer := congrArg Prod.snd (call_eq hof (.set (link 0) (.bool false)))
  dsimp only [answer] at hanswer
  rw [if_pos hname] at hanswer
  obtain ⟨hchanged, -, hnil, -⟩ := hcomplete _ hanswer
  refine ⟨_, hanswer, fun hcs => ?_, hchanged⟩
  have hdiffers : ((chain 17).opened.call (.set (link 0) (.bool false))).1.table.valueAt (link 0) ≠
      (chain 17).opened.table.valueAt (link 0) := by
    decide +kernel
  rw [hnil hcs] at hdiffers
  exact hdiffers rfl

end ChangeSets

end Form

end FormConsole
