import FormConsole.Form
import Mathlib.Data.List.Nodup

/-!
# Reading and writing tables

The names of a table never change, so every name is either always or never declared.  For a declared name the
three answers of a table about it, its field, its value and its choices, are given without a refusal, and a
write is a function from tables to tables that says for each name what its field is afterwards.

* `FieldTable.valueAt`, `FieldTable.choicesAt`: value and choices of a declared field.
* `FieldTable.news`: the fields whose values changed and were not dealt with.
* `FieldTable.write`: a write that is recorded unless it changes nothing; `FieldTable.field?_write` says what
  it does to the fields, `FieldTable.Extends` that nothing changes without a record.
* `FieldTable.Alike`: tables that differ in the marks of saving and of validation only.
-/

namespace FormConsole

/-- What rules and cascades read and write of a field: all but the marks of saving and of validation. -/
def Field.live (f : Field) : Declaration × Value × Constraints × List Choice :=
  (f.decl, f.value, f.effective, f.choices)

namespace FieldTable

/-! ## Declared names -/

section Names

variable {t : FieldTable} {name : String}

/-- What is declared, in order. -/
def declarations (t : FieldTable) : List Declaration :=
  t.fields.map (·.decl)

/-- The declared names, in order. -/
def names (t : FieldTable) : List String :=
  t.fields.map (·.name)

theorem names_eq_map (t : FieldTable) : t.names = t.declarations.map (·.name) := by
  simp [names, declarations, Function.comp_def]

theorem names_congr {t' : FieldTable} (h : t'.declarations = t.declarations) :
    t'.names = t.names := by
  rw [names_eq_map, h, ← names_eq_map]

theorem mem_of_field? {f : Field} (h : t.field? name = some f) : f ∈ t.fields :=
  List.mem_of_find?_eq_some h

theorem mem_names_iff : name ∈ t.names ↔ ∃ f, t.field? name = some f := by
  refine ⟨?_, ?_⟩
  · intro h
    obtain ⟨f, hf, hname⟩ := List.mem_map.mp h
    rw [← Option.isSome_iff_exists, ← contains_eq_isSome, contains_iff]
    exact ⟨f, hf, hname⟩
  · rintro ⟨f, hf⟩
    exact List.mem_map.mpr ⟨f, mem_of_field? hf, name_of_field? hf⟩

theorem field?_eq_none_iff : t.field? name = none ↔ name ∉ t.names := by
  rw [mem_names_iff, Option.eq_none_iff_forall_not_mem, not_exists]
  rfl

theorem contains_iff_mem_names : t.contains name = true ↔ name ∈ t.names := by
  rw [contains_eq_isSome, Option.isSome_iff_exists, mem_names_iff]

theorem require_eq_ok_iff {reference : Reference} :
    t.require name reference = .ok () ↔ name ∈ t.names := by
  rw [← contains_iff_mem_names, require]
  split
  · next h => simp [h]
  · next h => simp [h]

/-- If no name is declared twice, every field is the one that its name finds. -/
theorem field?_name_of_mem (h : t.names.Nodup) {f : Field} (hf : f ∈ t.fields) :
    t.field? f.name = some f := by
  have hg : ∃ g, t.field? f.name = some g := mem_names_iff.mp (List.mem_map.mpr ⟨f, hf, rfl⟩)
  obtain ⟨g, hg⟩ := hg
  have hname := name_of_field? hg
  rw [hg, List.inj_on_of_nodup_map h (mem_of_field? hg) hf hname]

end Names

/-! ## Values and choices -/

section Views

variable {t : FieldTable} {name : String} {f : Field}

/-- The value of a declared field. -/
def valueAt (t : FieldTable) (name : String) : Value :=
  ((t.field? name).map (·.value)).getD default

/-- The choices of a declared field. -/
def choicesAt (t : FieldTable) (name : String) : List Choice :=
  ((t.field? name).map (·.choices)).getD []

/-- The baseline of a declared field. -/
def baselineAt (t : FieldTable) (name : String) : Constraints :=
  ((t.field? name).map (·.decl.baseline)).getD default

/-- The constraints in effect of a declared field. -/
def effectiveAt (t : FieldTable) (name : String) : Constraints :=
  ((t.field? name).map (·.effective)).getD default

theorem baselineAt_of_field? (h : t.field? name = some f) :
    t.baselineAt name = f.decl.baseline := by
  simp [baselineAt, h]

theorem effectiveAt_of_field? (h : t.field? name = some f) : t.effectiveAt name = f.effective := by
  simp [effectiveAt, h]

theorem valueAt_of_field? (h : t.field? name = some f) : t.valueAt name = f.value := by
  simp [valueAt, h]

theorem choicesAt_of_field? (h : t.field? name = some f) : t.choicesAt name = f.choices := by
  simp [choicesAt, h]

theorem valueOf_of_mem (h : name ∈ t.names) : t.valueOf name = .ok (t.valueAt name) := by
  obtain ⟨f, hf⟩ := mem_names_iff.mp h
  rw [valueAt_of_field? hf, valueOf, lookup, hf]
  rfl

theorem mapM_valueOf_of_mem {ns : List String} (h : ∀ n ∈ ns, n ∈ t.names) :
    ns.mapM t.valueOf = .ok (ns.map t.valueAt) := by
  induction ns with
  | nil => rfl
  | cons n ns ih =>
    rw [List.mapM_cons, valueOf_of_mem (h n (by simp)), ih fun m hm => h m (by simp [hm])]
    rfl

end Views

/-! ## Changes that were not dealt with -/

section News

/-- The fields whose values changed and were not dealt with. -/
def news (t : FieldTable) : List String :=
  Wiring.changedValues t.pending

/-- The table with all changes dealt with. -/
def drain (t : FieldTable) : FieldTable :=
  { t with pending := [] }

variable (t : FieldTable) (name : String)

@[simp] theorem field?_drain : t.drain.field? name = t.field? name := rfl

@[simp] theorem names_drain : t.drain.names = t.names := rfl

@[simp] theorem declarations_drain : t.drain.declarations = t.declarations := rfl

@[simp] theorem valueAt_drain : t.drain.valueAt name = t.valueAt name := rfl

@[simp] theorem choicesAt_drain : t.drain.choicesAt name = t.choicesAt name := rfl

@[simp] theorem pending_drain : t.drain.pending = [] := rfl

@[simp] theorem news_drain : t.drain.news = [] := rfl

theorem drain_of_pending {t : FieldTable} (h : t.pending = []) : t.drain = t := by
  cases t
  subst h
  rfl

/-- Between two calls only the fields of tables can differ. -/
theorem eq_of_fields {t u : FieldTable} (ht : t.pending = []) (hu : u.pending = [])
    (h : t.fields = u.fields) : t = u := by
  rw [← drain_of_pending ht, ← drain_of_pending hu, drain, drain, h]

end News

/-! ## Writes -/

section Write

variable {t : FieldTable} {name : String} {kind : ChangeKind} {g : Field → Field}

/-- A write to the field of that name, recorded unless it changes nothing. -/
def write (t : FieldTable) (name : String) (kind : ChangeKind) (g : Field → Field) : FieldTable :=
  match t.field? name with
  | none => t
  | some f => if g f = f then t else t.change name kind g

/-- What a write does to the field of each name. -/
theorem field?_write (hg : ∀ f, (g f).decl = f.decl) (other : String) :
    (t.write name kind g).field? other =
      (t.field? other).map fun f => if other = name then g f else f := by
  have hname : ∀ f, (g f).name = f.name := fun f => congrArg Declaration.name (hg f)
  -- a write that is not made finds nothing to change
  have hstays : (∀ f, t.field? name = some f → g f = f) →
      t.field? other = (t.field? other).map fun f => if other = name then g f else f := by
    intro hsame
    cases hf : t.field? other with
    | none => rfl
    | some f =>
      rw [Option.map_some]
      by_cases h : other = name
      · subst h
        rw [if_pos rfl, hsame f hf]
      · rw [if_neg h]
  unfold write
  split
  · next h => exact hstays fun f hf => absurd hf (by simp [h])
  · next f hf =>
    split
    · next hsame => exact hstays fun f' hf' => by rwa [← Option.some.inj (hf.symm.trans hf')]
    · exact field?_modify hname other

theorem declarations_write (hg : ∀ f, (g f).decl = f.decl) :
    (t.write name kind g).declarations = t.declarations := by
  unfold write
  split
  · rfl
  · split
    · rfl
    · simp only [declarations, change, record, modify, List.map_map]
      refine List.map_congr_left fun f _ => ?_
      simp only [Function.comp_apply]
      split
      · exact hg f
      · rfl

theorem names_write (hg : ∀ f, (g f).decl = f.decl) : (t.write name kind g).names = t.names :=
  names_congr (declarations_write hg)

variable (t name kind g) in
/-- A write leaves the table alone, or it is recorded. -/
theorem write_eq_or_pending :
    t.write name kind g = t ∨ (t.write name kind g).pending = t.pending ++ [⟨name, kind⟩] := by
  unfold write
  split
  · exact Or.inl rfl
  · split
    · exact Or.inl rfl
    · exact Or.inr rfl

theorem write_of_same {f : Field} (hf : t.field? name = some f) (h : g f = f) :
    t.write name kind g = t := by
  simp [write, hf, h]

theorem pending_write_of_ne {f : Field} (hf : t.field? name = some f) (h : g f ≠ f) :
    (t.write name kind g).pending = t.pending ++ [⟨name, kind⟩] := by
  simp [write, hf, h, change, record, modify]

theorem valueAt_write (hg : ∀ f, (g f).decl = f.decl) (hv : ∀ f, (g f).value = f.value)
    (other : String) : (t.write name kind g).valueAt other = t.valueAt other := by
  rw [valueAt, field?_write hg, Option.map_map, valueAt]
  congr 2
  funext f
  simp only [Function.comp_apply]
  split
  · exact hv f
  · rfl

theorem choicesAt_write (hg : ∀ f, (g f).decl = f.decl) (hc : ∀ f, (g f).choices = f.choices)
    (other : String) : (t.write name kind g).choicesAt other = t.choicesAt other := by
  rw [choicesAt, field?_write hg, Option.map_map, choicesAt]
  congr 2
  funext f
  simp only [Function.comp_apply]
  split
  · exact hc f
  · rfl

theorem news_write_of_ne (hk : kind ≠ .value) : (t.write name kind g).news = t.news := by
  rcases write_eq_or_pending t name kind g with h | h
  · rw [h]
  · rw [news, h, news, Wiring.changedValues, List.filter_append,
      List.filter_cons_of_neg (by simpa using hk), List.filter_nil, List.append_nil,
      Wiring.changedValues]

end Write

/-! ## The three kinds of writes -/

section Kinds

variable {t : FieldTable} {name : String}

/-- Gives a field a value. -/
def putValue (t : FieldTable) (name : String) (v : Value) : FieldTable :=
  t.write name .value fun f => { f with value := v }

/-- Gives a field choices. -/
def putChoices (t : FieldTable) (name : String) (choices : List Choice) : FieldTable :=
  t.write name .choices fun f => { f with choices := choices }

/-- Gives a field constraints, which may depend on the field. -/
def putConstraints (t : FieldTable) (name : String) (c : Field → Constraints) : FieldTable :=
  t.write name .constraints fun f => { f with effective := c f }

section Value

variable (v : Value) (other : String)

@[simp] theorem names_putValue : (t.putValue name v).names = t.names := names_write fun _ => rfl

@[simp] theorem declarations_putValue : (t.putValue name v).declarations = t.declarations :=
  declarations_write fun _ => rfl

@[simp] theorem choicesAt_putValue : (t.putValue name v).choicesAt other = t.choicesAt other :=
  choicesAt_write (by intro f; rfl) (by intro f; rfl) other

theorem valueAt_putValue (h : name ∈ t.names) :
    (t.putValue name v).valueAt other = if other = name then v else t.valueAt other := by
  rw [valueAt, putValue, field?_write (by intro f; rfl)]
  by_cases ho : other = name
  · subst ho
    obtain ⟨f, hf⟩ := mem_names_iff.mp h
    simp [hf]
  · rw [if_neg ho, valueAt, Option.map_map]
    congr 2
    funext f
    simp [ho]

/-- A value that a field has already is not written. -/
theorem putValue_valueAt : t.putValue name (t.valueAt name) = t := by
  cases hf : t.field? name with
  | none => simp [putValue, write, hf]
  | some f => exact write_of_same hf (Edit.with_value_eq_self_iff.mpr (valueAt_of_field? hf).symm)

/-- A value of an undeclared field is not written. -/
theorem putValue_of_not_mem (h : name ∉ t.names) : t.putValue name v = t := by
  rw [putValue, write, field?_eq_none_iff.mpr h]

variable {other} in
theorem valueAt_putValue_of_ne (h : other ≠ name) :
    (t.putValue name v).valueAt other = t.valueAt other := by
  by_cases hname : name ∈ t.names
  · rw [valueAt_putValue v other hname, if_neg h]
  · rw [putValue_of_not_mem v hname]

theorem news_putValue (h : name ∈ t.names) :
    (t.putValue name v).news = t.news ++ if t.valueAt name = v then [] else [name] := by
  obtain ⟨f, hf⟩ := mem_names_iff.mp h
  by_cases hv : t.valueAt name = v
  · subst hv
    rw [putValue_valueAt, if_pos rfl, List.append_nil]
  · rw [if_neg hv, news, putValue, pending_write_of_ne hf, news]
    · simp [Wiring.changedValues]
    · rw [Ne, Edit.with_value_eq_self_iff, ← valueAt_of_field? hf]
      exact hv

end Value

section Choices

variable (choices : List Choice) (other : String)

@[simp] theorem names_putChoices : (t.putChoices name choices).names = t.names :=
  names_write fun _ => rfl

@[simp] theorem declarations_putChoices :
    (t.putChoices name choices).declarations = t.declarations :=
  declarations_write fun _ => rfl

@[simp] theorem valueAt_putChoices :
    (t.putChoices name choices).valueAt other = t.valueAt other :=
  valueAt_write (by intro f; rfl) (by intro f; rfl) other

@[simp] theorem news_putChoices : (t.putChoices name choices).news = t.news :=
  news_write_of_ne (by decide)

theorem choicesAt_putChoices (h : name ∈ t.names) :
    (t.putChoices name choices).choicesAt other =
      if other = name then choices else t.choicesAt other := by
  rw [choicesAt, putChoices, field?_write (by intro f; rfl)]
  by_cases ho : other = name
  · subst ho
    obtain ⟨f, hf⟩ := mem_names_iff.mp h
    simp [hf]
  · rw [if_neg ho, choicesAt, Option.map_map]
    congr 2
    funext f
    simp [ho]

/-- Choices that a field has already are not written. -/
theorem putChoices_choicesAt : t.putChoices name (t.choicesAt name) = t := by
  cases hf : t.field? name with
  | none => simp [putChoices, write, hf]
  | some f =>
    exact write_of_same hf (Edit.with_choices_eq_self_iff.mpr (choicesAt_of_field? hf).symm)

end Choices

section Constraints

variable (c : Field → Constraints) (other : String)

@[simp] theorem names_putConstraints : (t.putConstraints name c).names = t.names :=
  names_write fun _ => rfl

@[simp] theorem declarations_putConstraints :
    (t.putConstraints name c).declarations = t.declarations :=
  declarations_write fun _ => rfl

@[simp] theorem valueAt_putConstraints :
    (t.putConstraints name c).valueAt other = t.valueAt other :=
  valueAt_write (by intro f; rfl) (by intro f; rfl) other

@[simp] theorem choicesAt_putConstraints :
    (t.putConstraints name c).choicesAt other = t.choicesAt other :=
  choicesAt_write (by intro f; rfl) (by intro f; rfl) other

@[simp] theorem news_putConstraints : (t.putConstraints name c).news = t.news :=
  news_write_of_ne (by decide)

/-- An override is recorded if it is one. -/
theorem pending_override (h : name ∈ t.names) (p : Property) (b : Bool) :
    (t.putConstraints name fun f => f.effective.set p b).pending = t.pending ++
      if (t.effectiveAt name).get p = b then [] else [⟨name, .constraints⟩] := by
  obtain ⟨f, hf⟩ := mem_names_iff.mp h
  rw [effectiveAt_of_field? hf, putConstraints]
  by_cases hb : f.effective.get p = b
  · rw [write_of_same hf (Edit.with_effective_eq_self_iff.mpr hb), if_pos hb, List.append_nil]
  · rw [pending_write_of_ne hf (Edit.with_effective_eq_self_iff.not.mpr hb), if_neg hb]

end Constraints

end Kinds

/-! ## Writes that leave the constraints alone -/

section SameConstraints

variable {t t' : FieldTable} {name : String}

/-- The tables declare the same and have the same constraints. -/
def SameConstraints (t t' : FieldTable) : Prop :=
  ∀ name, (t'.field? name).map (fun f => (f.decl, f.effective)) =
    (t.field? name).map fun f => (f.decl, f.effective)

theorem SameConstraints.exists_field? (h : SameConstraints t t') {f' : Field}
    (hf' : t'.field? name = some f') :
    ∃ f, t.field? name = some f ∧ f.decl = f'.decl ∧ f.effective = f'.effective := by
  have hname := h name
  rw [hf', Option.map_some] at hname
  obtain ⟨f, hf, hpair⟩ := Option.map_eq_some_iff.mp hname.symm
  obtain ⟨hdecl, heff⟩ := Prod.mk.inj hpair
  exact ⟨f, hf, hdecl, heff⟩

theorem SameConstraints.trans {t'' : FieldTable} (h : SameConstraints t t')
    (h' : SameConstraints t' t'') : SameConstraints t t'' :=
  fun name => (h' name).trans (h name)

theorem sameConstraints_write {kind : ChangeKind} {g : Field → Field}
    (hg : ∀ f, (g f).decl = f.decl) (he : ∀ f, (g f).effective = f.effective) :
    SameConstraints t (t.write name kind g) := by
  intro other
  rw [field?_write hg, Option.map_map]
  congr 1
  funext f
  simp only [Function.comp_apply]
  split
  · rw [hg, he]
  · rfl

theorem sameConstraints_putValue (v : Value) : SameConstraints t (t.putValue name v) :=
  sameConstraints_write (by intro f; rfl) (by intro f; rfl)

theorem sameConstraints_putChoices (choices : List Choice) :
    SameConstraints t (t.putChoices name choices) :=
  sameConstraints_write (by intro f; rfl) (by intro f; rfl)

end SameConstraints

/-! ## Nothing changes without a record -/

section Extends

/-- Either nothing happened to the table, or a change was recorded. -/
def Extends (t t' : FieldTable) : Prop :=
  t' = t ∨ t.pending.length < t'.pending.length

theorem Extends.refl (t : FieldTable) : Extends t t := Or.inl rfl

theorem Extends.length_le {t t' : FieldTable} (h : Extends t t') :
    t.pending.length ≤ t'.pending.length := by
  rcases h with rfl | h <;> omega

theorem Extends.trans {t t' t'' : FieldTable} (h : Extends t t') (h' : Extends t' t'') :
    Extends t t'' := by
  have hle := h'.length_le
  rcases h with rfl | h
  · exact h'
  · exact Or.inr (by omega)

/-- If no change was recorded, nothing happened. -/
theorem Extends.eq_of_length_le {t t' : FieldTable} (h : Extends t t')
    (hlen : t'.pending.length ≤ t.pending.length) : t' = t := by
  rcases h with h | h
  · exact h
  · omega

theorem extends_write (t : FieldTable) (name : String) (kind : ChangeKind) (g : Field → Field) :
    Extends t (t.write name kind g) := by
  rcases write_eq_or_pending t name kind g with h | h
  · exact Or.inl h
  · right
    rw [h]
    simp

variable {α : Type} {step : FieldTable → α → FieldTable}

/-- Steps that do nothing to a table do nothing one after the other. -/
theorem foldl_eq_self {as : List α} {t : FieldTable} (h : ∀ a ∈ as, step t a = t) :
    as.foldl step t = t := by
  induction as with
  | nil => rfl
  | cons a as ih =>
    rw [List.foldl_cons, h a (by simp)]
    exact ih fun b hb => h b (by simp [hb])

variable (hstep : ∀ t a, Extends t (step t a))
include hstep

theorem extends_foldl (as : List α) (t : FieldTable) : Extends t (as.foldl step t) := by
  induction as generalizing t with
  | nil => exact Extends.refl t
  | cons a as ih => exact (hstep t a).trans (ih (step t a))

/-- If no step recorded a change, none of them did anything. -/
theorem eq_of_foldl_length_le {as : List α} {t : FieldTable}
    (hlen : (as.foldl step t).pending.length ≤ t.pending.length) : ∀ a ∈ as, step t a = t := by
  induction as with
  | nil => simp
  | cons a as ih =>
    have hrest := (extends_foldl hstep as (step t a)).length_le
    rw [List.foldl_cons] at hlen
    have hfirst : step t a = t := (hstep t a).eq_of_length_le (by omega)
    rw [hfirst] at hlen
    intro b hb
    rcases List.mem_cons.mp hb with rfl | hb
    · exact hfirst
    · exact ih hlen b hb

end Extends

/-! ## Marks of saving and of validation -/

section Alike

variable {t t' : FieldTable}

/-- The tables differ in the marks of saving and of validation only. -/
structure Alike (t t' : FieldTable) : Prop where
  live : t'.fields.map Field.live = t.fields.map Field.live
  pending : t'.pending = t.pending

theorem Alike.refl (t : FieldTable) : Alike t t := ⟨rfl, rfl⟩

theorem Alike.trans {t'' : FieldTable} (h : Alike t t') (h' : Alike t' t'') : Alike t t'' :=
  ⟨h'.live.trans h.live, h'.pending.trans h.pending⟩

/-- A map over the fields that keeps what reactions read. -/
theorem alike_map {g : Field → Field} (hg : ∀ f, (g f).live = f.live) :
    Alike t { t with fields := t.fields.map g } := by
  refine ⟨?_, rfl⟩
  rw [List.map_map]
  exact List.map_congr_left fun f _ => hg f

theorem alike_commit (t : FieldTable) : Alike t t.commit :=
  alike_map fun _ => rfl

theorem alike_mark (t : FieldTable) (vs : List Violation) : Alike t (Checks.mark t vs) := by
  unfold Checks.mark
  have hclear : Alike t t.clearViolations := alike_map fun _ => rfl
  refine hclear.trans ?_
  generalize t.clearViolations = u
  induction vs generalizing u with
  | nil => exact ⟨rfl, rfl⟩
  | cons v vs ih =>
    have hmark : Alike u (u.markInvalid v.field v.message) := by
      refine alike_map fun f => ?_
      split
      · rfl
      · rfl
    exact hmark.trans (ih _)

theorem Alike.declarations (h : Alike t t') : t'.declarations = t.declarations := by
  have := congrArg (List.map Prod.fst) h.live
  rw [List.map_map, List.map_map] at this
  exact this

theorem Alike.field? (h : Alike t t') (name : String) :
    (t'.field? name).map Field.live = (t.field? name).map Field.live := by
  have hmap : ∀ u : FieldTable, (u.field? name).map Field.live =
      (u.fields.map Field.live).find? fun l => l.1.name == name := by
    intro u
    rw [List.find?_map]
    rfl
  rw [hmap, hmap, h.live]

theorem Alike.sameConstraints (h : Alike t t') : SameConstraints t t' := by
  intro name
  have := congrArg (Option.map fun l => (l.1, l.2.2.1)) (h.field? name)
  rw [Option.map_map, Option.map_map] at this
  exact this

theorem Alike.valueAt (h : Alike t t') (name : String) : t'.valueAt name = t.valueAt name := by
  have := congrArg (Option.map fun l => l.2.1) (h.field? name)
  rw [Option.map_map, Option.map_map] at this
  exact congrArg (·.getD default) this

theorem Alike.choicesAt (h : Alike t t') (name : String) : t'.choicesAt name = t.choicesAt name := by
  have := congrArg (Option.map fun l => l.2.2.2) (h.field? name)
  rw [Option.map_map, Option.map_map] at this
  exact congrArg (·.getD []) this

end Alike

end FieldTable

end FormConsole
