import FormConsole.Proofs.Field.Table

/-!
# Edits that are not refused

An edit is refused for undeclared names only.  So an edit that mentions declared names is a function on
tables, and an edit that is made of such edits is made of their functions: in sequence (`Edit.run_bind_of_ok`)
and over a list (`Edit.run_forM_of_ok`).
-/

namespace FormConsole

/-- A check of a list passes exactly if it passes for every member. -/
theorem forM_eq_ok_iff {α ε : Type} {check : α → Except ε Unit} {as : List α} :
    as.forM check = .ok () ↔ ∀ a ∈ as, check a = .ok () := by
  induction as with
  | nil => simp [List.forM, pure, Except.pure]
  | cons a as ih =>
    cases h : check a with
    | error e => simp [List.forM, bind, Except.bind, h]
    | ok u => simpa [List.forM, bind, Except.bind, h] using ih

namespace Edit

variable {α β : Type} {t t' : FieldTable}

/-! ## Putting edits together -/

section Compose

theorem run_bind_of_ok {x : Edit α} {f : α → Edit β} {a : α} (h : x.run t = .ok a t') :
    (x >>= f).run t = (f a).run t' := by
  rw [EStateM.run_bind, h]

theorem run_ask_of_ok {question : FieldTable → Except FormError α} {a : α}
    (h : question t = .ok a) : (ask question).run t = .ok a t := by
  rw [run_ask, h]

/-- Edits over a list are the functions of the edits over the list, if each of them keeps what makes the
others succeed. -/
theorem run_forM_of_ok {P : FieldTable → Prop} {edit : α → Edit Unit}
    {step : FieldTable → α → FieldTable} {as : List α}
    (hrun : ∀ a ∈ as, ∀ t, P t → (edit a).run t = .ok () (step t a))
    (hkeep : ∀ t a, P t → P (step t a)) :
    ∀ t, P t → (as.forM edit).run t = .ok () (as.foldl step t) := by
  induction as with
  | nil => intro t _; rfl
  | cons a as ih =>
    intro t ht
    have hfirst := hrun a (by simp) t ht
    have hrest := ih (fun b hb => hrun b (by simp [hb])) (step t a) (hkeep t a ht)
    rw [List.foldl_cons, ← hrest]
    exact run_bind_of_ok hfirst

end Compose

/-! ## Writes -/

section Writes

variable {name : String}

theorem run_put_of_mem (h : name ∈ t.names) (kind : ChangeKind) (g : Field → Field) :
    ∃ b, (put name kind g).run t = .ok b (t.write name kind g) := by
  obtain ⟨f, hf⟩ := FieldTable.mem_names_iff.mp h
  rw [run_put, hf, FieldTable.write, hf]
  by_cases hg : g f = f
  · exact ⟨false, by simp [hg]⟩
  · exact ⟨true, by simp [hg]⟩

/-- A write is refused for a name that is not declared, and nothing is written. -/
theorem run_put_of_not_mem (h : name ∉ t.names) (kind : ChangeKind) (g : Field → Field) :
    (put name kind g).run t = .error (.unknownField name .update) t := by
  rw [run_put, FieldTable.field?_eq_none_iff.mpr h]

theorem run_replaceChoices_of_mem (h : name ∈ t.names) (choices : List Choice) :
    ∃ b, (replaceChoices name choices).run t = .ok b (t.putChoices name choices) :=
  run_put_of_mem h .choices _

/-- Writing a value says whether it is a new one. -/
theorem run_setValue_of_mem (h : name ∈ t.names) (v : Value) :
    (setValue name v).run t = .ok (decide (t.valueAt name ≠ v)) (t.putValue name v) := by
  obtain ⟨f, hf⟩ := FieldTable.mem_names_iff.mp h
  rw [setValue, run_put, hf, FieldTable.valueAt_of_field? hf, FieldTable.putValue, FieldTable.write,
    hf]
  by_cases hv : f.value = v
  · simp [with_value_eq_self_iff, hv]
  · simp [with_value_eq_self_iff, hv]

/-- An override says whether the state is a new one. -/
theorem run_override_of_mem (h : name ∈ t.names) (p : Property) (b : Bool) :
    (override name p b).run t = .ok ((t.effectiveAt name).get p != b)
      (t.putConstraints name fun f => f.effective.set p b) := by
  obtain ⟨f, hf⟩ := FieldTable.mem_names_iff.mp h
  rw [override, run_put, hf, FieldTable.effectiveAt_of_field? hf, FieldTable.putConstraints,
    FieldTable.write, hf]
  by_cases hb : f.effective.get p = b
  · simp [with_effective_eq_self_iff, hb]
  · simp [with_effective_eq_self_iff, hb]

end Writes

end Edit

end FormConsole
