import FormConsole.Proofs.Form.ChangeSet
import FormConsole.Proofs.Form.Dependency
import Mathlib.Order.Bounds.Basic

/-!
# What an edit reaches

An evaluation looks at every claim of every rule, and a pass may run any cascade.  Still an edit has an effect on
those fields only that depend on it: news travel along chains of cascades, and constraints that are those of the
rules that hold are the same as before if the values that the rules read are.

* `Wiring.Reaches`: chains of cascades of any length; `Wiring.isLeast_reaches` says what they lead to.
* `RuleSet.InForce.effective_eq`: where the same rules hold, the same constraints are in force.
* `Form.untouched_set`: what no news can arrive at keeps value and choices.
* `Form.reachedBy_set`: an edit reaches only what depends on it.
-/

namespace FormConsole

namespace Wiring

/-! ## Chains of any length -/

section Reaches

variable {w : Wiring} {a b c : String}

/-- A chain of cascades leads from the first field to the second one. -/
def Reaches (w : Wiring) (a b : String) : Prop :=
  ∃ n, w.Leads n a b

theorem Reaches.refl (a : String) : w.Reaches a a :=
  ⟨0, Leads.refl a⟩

theorem Reaches.drives (h : w.Reaches a b) (hdrives : w.Drives b c) : w.Reaches a c := by
  obtain ⟨n, hleads⟩ := h
  exact ⟨n + 1, hleads.step hdrives⟩

variable (w a) in
/-- What is reached is the least set that contains the first field, and with a driver of a cascade its dependent. -/
theorem isLeast_reaches : IsLeast
    {s : Set String | a ∈ s ∧ ∀ c ∈ w.cascades, ∀ n ∈ c.drivers, n ∈ s → c.dependent ∈ s}
    {b | w.Reaches a b} := by
  refine ⟨⟨Reaches.refl a, fun c hc n hn hreach => hreach.drives ⟨c, hc, hn, rfl⟩⟩, ?_⟩
  rintro s ⟨ha, hs⟩ b ⟨n, hleads⟩
  induction hleads with
  | refl => exact ha
  | step _ hdrives ih =>
    obtain ⟨c, hc, hn, rfl⟩ := hdrives
    exact hs c hc _ hn (ih ha)

/-- A field that drives no cascade reaches itself only. -/
theorem Reaches.eq_of_undriven (h : w.Reaches a b) (hdriver : ∀ c ∈ w.cascades, a ∉ c.drivers) : b = a := by
  have hclosed : {n | w.Reaches a n} ⊆ {a} := (isLeast_reaches w a).2
    ⟨rfl, fun c hc n hn hname => absurd (hname ▸ hn) (hdriver c hc)⟩
  exact hclosed h

end Reaches

/-! ## What no news can arrive at -/

section Untouched

variable {w : Wiring} {t : FieldTable} {other : String}

/-- Passes leave a field alone if the news reach no driver of a cascade into it. -/
theorem untouched_iterate_pass (h : w.Fits t.names)
    (hother : ∀ m ∈ t.news, ∀ c ∈ w.cascades, c.dependent = other → ∀ n ∈ c.drivers,
      ¬ w.Reaches m n) (k : Nat) :
    (w.pass^[k] t).valueAt other = t.valueAt other ∧
      (w.pass^[k] t).choicesAt other = t.choicesAt other := by
  induction k with
  | zero => exact ⟨rfl, rfl⟩
  | succ k ih =>
    have hasleep : other ∉ (w.awakened (w.pass^[k] t).news).map (·.dependent) := by
      intro hmem
      obtain ⟨c, hc, hdep⟩ := List.mem_map.mp hmem
      obtain ⟨hcascade, n, hn, hwatch⟩ := mem_awakened.mp hc
      obtain ⟨m, hm, hleads⟩ := leads_of_mem_news h hn
      exact hother m hm c hcascade hdep n (Cascade.watches_iff.mp hwatch) ⟨k, hleads⟩
    obtain ⟨hvalue, hchoices⟩ := untouched_pass (h.congr (declarations_iterate_pass k t)) hasleep
    rw [Function.iterate_succ_apply', hvalue, hchoices]
    exact ih

end Untouched

/-! ## What an edit may do to a field -/

section ReachedBy

variable {w : Wiring} {name : String} {f f' : Field}

/-- The value of the field may have changed if the edited field reaches it, its choices if some cascade into it
has a driver that is reached, and its constraints if some rule on it has a condition on a field that is reached.
Nothing else may have changed. -/
structure ReachedBy (w : Wiring) (name : String) (f f' : Field) : Prop where
  value : f'.value ≠ f.value → w.Reaches name f.name
  choices : f'.choices ≠ f.choices →
    ∃ c ∈ w.cascades, c.dependent = f.name ∧ ∃ n ∈ c.drivers, w.Reaches name n
  effective : f'.effective ≠ f.effective →
    ∃ r ∈ w.rules, f.name ∈ r.targets ∧ ∃ c ∈ r.conditions, w.Reaches name c.field
  rest : f' = { f with value := f'.value, choices := f'.choices, effective := f'.effective }

/-- What is not reached, and no rule with a condition on what is reached is on, is as before. -/
theorem ReachedBy.eq_self (h : w.ReachedBy name f f') (hfield : ¬ w.Reaches name f.name)
    (hrules : ∀ r ∈ w.rules, f.name ∈ r.targets → ∀ c ∈ r.conditions, ¬ w.Reaches name c.field) :
    f' = f := by
  have hvalue : f'.value = f.value := by
    by_contra hne
    exact hfield (h.value hne)
  have hchoices : f'.choices = f.choices := by
    by_contra hne
    obtain ⟨c, hc, hdep, n, hn, hreach⟩ := h.choices hne
    exact hfield (hreach.drives ⟨c, hc, hn, hdep⟩)
  have heffective : f'.effective = f.effective := by
    by_contra hne
    obtain ⟨r, hr, htarget, c, hc, hreach⟩ := h.effective hne
    exact hrules r hr htarget c hc hreach
  rw [h.rest, hvalue, hchoices, heffective]

end ReachedBy

end Wiring

namespace RuleSet

/-! ## Where the same rules hold -/

section InForce

variable {rules : RuleSet} {t t' : FieldTable} {name : String} {f f' : Field}

/-- Two states of a field have the same constraints if the same rules on it hold. -/
theorem InForce.effective_eq (h : rules.InForce t) (h' : rules.InForce t')
    (hapart : rules.Pairwise Rule.Apart) (hf : t.field? name = some f)
    (hf' : t'.field? name = some f') (hdecl : f'.decl = f.decl)
    (hsame : ∀ r ∈ rules, name ∈ r.targets → (r.Holds t' ↔ r.Holds t)) :
    f'.effective = f.effective := by
  refine Constraints.ext_get fun p => ?_
  by_cases hclaimed : ∃ r ∈ rules, r.Holds t ∧ (⟨name, p⟩ : Claim) ∈ r.claims
  · obtain ⟨r, hr, hholds, hclaim⟩ := hclaimed
    obtain ⟨htarget, b, hb⟩ := Rule.mem_claims_iff.mp hclaim
    have hholds' : r.Holds t' := (hsame r hr htarget).mpr hholds
    rw [h.aligned.effective_of_holds hapart hf hr htarget hb hholds,
      h'.aligned.effective_of_holds hapart hf' hr htarget hb hholds']
  · have hsilent : ∀ r ∈ rules, r.Holds t → (⟨name, p⟩ : Claim) ∉ r.claims :=
      fun r hr hholds hclaim => hclaimed ⟨r, hr, hholds, hclaim⟩
    have hsilent' : ∀ r ∈ rules, r.Holds t' → (⟨name, p⟩ : Claim) ∉ r.claims :=
      fun r hr hholds hclaim => hsilent r hr
        ((hsame r hr (Rule.mem_claims_iff.mp hclaim).1).mp hholds) hclaim
    rw [h.effective_of_silent hf hsilent, h'.effective_of_silent hf' hsilent', hdecl]

end InForce

end RuleSet

namespace Form

/-! ## Edits -/

section Reach

variable {d : Definition} {f : Form} {name other : String}

/-- An edit, of whatever name, changes nothing but the fields. -/
theorem set_eq_settled (h : IsOf d f) (name : String) (v : Value) :
    (f.set name v).1 = { f with table := f.wiring.settled (f.table.putValue name v) } := by
  by_cases hname : name ∈ f.table.names
  · rw [set_of_mem h hname]
  · rw [set_eq_setWithin, setWithin_of_not_mem hname, FieldTable.putValue_of_not_mem v hname,
      Wiring.settled_of_quiet h.pending]

theorem table_set (h : IsOf d f) (name : String) (v : Value) :
    (f.set name v).1.table = f.wiring.settled (f.table.putValue name v) := by
  rw [set_eq_settled h]

theorem accounts_set (h : IsOf d f) (name : String) (v : Value) :
    ∃ cs, Accounts cs f.fields (f.set name v).1.fields := by
  refine ⟨f.wiring.history Wiring.maxPasses (f.table.putValue name v), ?_⟩
  rw [fields, fields, table_set h]
  exact Wiring.accounts_settled (FieldTable.logs_putValue v f.table name) h.pending

/-- The first news of an edit are of the edited field. -/
theorem eq_of_mem_news (h : IsOf d f) {v : Value}
    (hother : other ∈ (f.table.putValue name v).news) : other = name := by
  by_cases hname : name ∈ f.table.names
  · exact h.eq_of_mem_news_putValue hname hother
  · rw [FieldTable.putValue_of_not_mem v hname, h.news] at hother
    simp at hother

/-- An edit leaves the choices of a field alone if it reaches no driver of a cascade into it, and does no more to the value
than to write the one it is given. -/
theorem untouched_set (h : IsOf d f) (hother : ∀ c ∈ d.cascades, c.dependent = other →
    ∀ n ∈ c.drivers, ¬ d.wiring.Reaches name n) (v : Value) :
    (f.set name v).1.table.valueAt other = (f.table.putValue name v).valueAt other ∧
      (f.set name v).1.table.choicesAt other = f.table.choicesAt other := by
  have hfits : f.wiring.Fits (f.table.putValue name v).names :=
    h.fits.congr (FieldTable.declarations_putValue v)
  have hnews : ∀ m ∈ (f.table.putValue name v).news, ∀ c ∈ f.wiring.cascades, c.dependent = other →
      ∀ n ∈ c.drivers, ¬ f.wiring.Reaches m n := by
    intro m hm
    rw [eq_of_mem_news h hm, h.wiring]
    exact hother
  obtain ⟨hvalue, hchoices⟩ := Wiring.untouched_iterate_pass hfits hnews Wiring.maxPasses
  rw [table_set h, Wiring.settled, FieldTable.valueAt_drain, FieldTable.choicesAt_drain, hvalue,
    hchoices]
  exact ⟨rfl, FieldTable.choicesAt_putValue v other⟩

/-- Where no dependent drives a cascade, an edited field has the value it is given and keeps its choices. -/
theorem views_set_self (h : IsOf d f) (hname : name ∈ f.table.names)
    (hundriven : ∀ c ∈ d.cascades, ∀ e ∈ d.cascades, c.dependent ∉ e.drivers) (v : Value) :
    (f.set name v).1.table.valueAt name = v ∧
      (f.set name v).1.table.choicesAt name = f.table.choicesAt name := by
  have hself : ∀ c ∈ d.cascades, c.dependent = name → ∀ n ∈ c.drivers, ¬ d.wiring.Reaches name n := by
    rintro c hc rfl n hn hreach
    rw [hreach.eq_of_undriven (hundriven c hc)] at hn
    exact hundriven c hc c hc hn
  obtain ⟨hvalue, hchoices⟩ := untouched_set h hself v
  exact ⟨hvalue.trans (by rw [FieldTable.valueAt_putValue _ _ hname, if_pos rfl]), hchoices⟩

/-- What an edit does not reach keeps its value. -/
theorem valueAt_set_of_not_reaches (h : IsOf d f) (hother : ¬ d.wiring.Reaches name other)
    (v : Value) : (f.set name v).1.table.valueAt other = f.table.valueAt other := by
  refine (untouched_set h (fun c hc hdep n hn hreach => ?_) v).1.trans ?_
  · exact hother (hreach.drives ⟨c, hc, hn, hdep⟩)
  · refine FieldTable.valueAt_putValue_of_ne v ?_
    rintro rfl
    exact hother (.refl other)

/-- If an edit reaches no field that a rule on a field has a condition on, it leaves the constraints of the field
alone. -/
theorem effective_set_of_not_reaches (h : InUse d f)
    (hdeps : d.wiring.dependents.card < Wiring.maxPasses) {v : Value} {field field' : Field}
    (hfield : f.table.field? other = some field)
    (hfield' : (f.set name v).1.table.field? other = some field') (hdecl : field'.decl = field.decl)
    (hrules : ∀ r ∈ d.rules, other ∈ r.targets → ∀ c ∈ r.conditions,
      ¬ d.wiring.Reaches name c.field) : field'.effective = field.effective := by
  have hof := h.isOf
  have hbefore : d.rules.InForce f.table := h.inForce hdeps
  have hafter : d.rules.InForce (f.set name v).1.table := (h.called (.set name v)).inForce hdeps
  refine hbefore.effective_eq hafter hof.rules_apart hfield hfield' hdecl fun r hr htarget => ?_
  refine Rule.holds_congr fun c hc => ?_
  exact valueAt_set_of_not_reaches hof (hrules r hr htarget c hc) v

/-- An edit reaches only what depends on it.  In every form in use, the value of a field is different after it only
if a chain of cascades leads to the field, the choices only if one leads to a driver of a cascade into the field,
the constraints only if one leads to a field that a rule on the field has a condition on; every other field is
as before. -/
theorem reachedBy_set (h : InUse d f)
    (hdeps : (d.cascades.map (·.dependent)).toFinset.card ≤ 15) (name : String) (v : Value) :
    List.Forall₂ (fun field field' => d.wiring.ReachedBy name field field' ∧
      (¬ d.wiring.Reaches name field.name →
        (∀ r ∈ d.rules, field.name ∈ r.targets → ∀ c ∈ r.conditions,
          ¬ d.wiring.Reaches name c.field) → field' = field))
      f.fields (f.set name v).1.fields := by
  have hof := h.isOf
  have hof' : IsOf d (f.set name v).1 := hof.set name v
  obtain ⟨cs, haccounts⟩ := accounts_set hof name v
  refine forall₂_imp_of_mem haccounts.changed fun field hmem field' hmem' hchanged => ?_
  have hfield := FieldTable.field?_name_of_mem hof.nodup hmem
  have hfield' := FieldTable.field?_name_of_mem hof'.nodup hmem'
  rw [Field.name, hchanged.decl] at hfield'
  have hby : d.wiring.ReachedBy name field field' := by
    refine ⟨fun hne => ?_, fun hne => ?_, fun hne => ?_, hchanged.rest⟩
    · by_contra hnot
      have hvalue := valueAt_set_of_not_reaches hof hnot v
      rw [FieldTable.valueAt_of_field? hfield, FieldTable.valueAt_of_field? hfield'] at hvalue
      exact hne hvalue
    · by_contra! hnot
      have hchoices := (untouched_set hof hnot v).2
      rw [FieldTable.choicesAt_of_field? hfield, FieldTable.choicesAt_of_field? hfield'] at hchoices
      exact hne hchoices
    · by_contra! hnot
      exact hne (effective_set_of_not_reaches h (Nat.lt_succ_of_le hdeps) hfield hfield'
        hchanged.decl hnot)
  exact ⟨hby, hby.eq_self⟩

/-- The slaves of a small bond reach the primary slave, and nothing else of the bond. -/
theorem reachedBy_set_smallBond : InUse smallBond smallBond.opened ∧
    List.Forall₂ (fun field field' => field.name ∉ ["slaves", "bondprimary"] → field' = field)
      smallBond.opened.fields (smallBond.opened.set "slaves" (.list ["eth0"])).1.fields := by
  have huse : InUse smallBond smallBond.opened := .opened build_smallBond
  have hleast := (Wiring.isLeast_reaches smallBond.wiring "slaves").2
  have hreach : {n | smallBond.wiring.Reaches "slaves" n} ⊆ {n | n ∈ ["slaves", "bondprimary"]} :=
    hleast ⟨by decide, by decide⟩
  have hrules : ∀ r ∈ smallBond.rules, ∀ c ∈ r.conditions,
      c.field ∉ ["slaves", "bondprimary"] := by
    decide
  refine ⟨huse, ?_⟩
  refine (reachedBy_set huse (by decide) "slaves" (.list ["eth0"])).imp fun field field' h hname => ?_
  exact h.2 (fun hn => hname (hreach hn)) fun r hr _ c hc hn => hrules r hr c hc (hreach hn)

end Reach

end Form

end FormConsole
