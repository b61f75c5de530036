import FormConsole.Proofs.Form.Use
import FormConsole.Proofs.Rule.Exactness

/-!
# What is accepted, and what is refused

All names are looked up when a definition is accepted, and no call ever changes which names are declared.  So a
call on a form in use can be refused for the name that it is given only, before anything is written.

* `Definition.WellFormed`: what makes a definition sound, said without the checks; `Form.build_eq_ok_iff_wellFormed`.
* `Call.subject?`: the name that a call is given.
* `Form.acceptance_exact`: exactly the well-formed definitions are accepted, and on their forms exactly the calls
  that are given an undeclared name are refused, without a trace.
-/

namespace FormConsole

/-! ## Checks that pass -/

section Checks

variable {t : FieldTable}

/-- Names pass their check if all of them are declared. -/
theorem FieldTable.forM_require_eq_ok_iff {names : List String} {reference : Reference} :
    (names.forM fun name => t.require name reference) = .ok () ↔ ∀ name ∈ names, name ∈ t.names := by
  rw [forM_eq_ok_iff]
  exact forall₂_congr fun _ _ => FieldTable.require_eq_ok_iff

theorem Cascade.check_eq_ok_iff {c : Cascade} : c.check t = .ok () ↔ c.Fits t.names := by
  rw [Cascade.check, FieldTable.forM_require_eq_ok_iff, List.forall_mem_cons]
  exact ⟨fun h => ⟨h.1, h.2⟩, fun h => ⟨h.dependent, h.drivers⟩⟩

theorem Exclusion.check_eq_ok_iff {e : Exclusion} :
    e.check t = .ok () ↔ e.wildcard ∈ t.names ∧ e.flag ∈ t.names := by
  rw [Exclusion.check, FieldTable.forM_require_eq_ok_iff, List.forall_mem_cons,
    List.forall_mem_singleton]

theorem Confirmation.check_eq_ok_iff {c : Confirmation} :
    c.check t = .ok () ↔ c.field ∈ t.names ∧ c.confirm ∈ t.names := by
  rw [Confirmation.check, FieldTable.forM_require_eq_ok_iff, List.forall_mem_cons,
    List.forall_mem_singleton]

/-- All names that the checks mention are among these. -/
structure Checks.Fits (c : Checks) (names : List String) : Prop where
  exclusions : ∀ e ∈ c.exclusions, e.wildcard ∈ names ∧ e.flag ∈ names
  confirmations : ∀ m ∈ c.confirmations, m.field ∈ names ∧ m.confirm ∈ names

theorem Checks.check_eq_ok_iff {c : Checks} : c.check t = .ok () ↔ c.Fits t.names := by
  have hparts : c.check t = .ok () ↔ (∀ e ∈ c.exclusions, e.check t = .ok ()) ∧
      ∀ m ∈ c.confirmations, m.check t = .ok () := by
    rw [Checks.check, ← forM_eq_ok_iff, ← forM_eq_ok_iff]
    cases c.exclusions.forM fun e => e.check t with
    | error e => simp [bind, Except.bind]
    | ok u => simp [bind, Except.bind]
  simp only [hparts, Exclusion.check_eq_ok_iff, Confirmation.check_eq_ok_iff]
  exact ⟨fun h => ⟨h.1, h.2⟩, fun h => ⟨h.exclusions, h.confirmations⟩⟩

end Checks

/-! ## Well-formed definitions -/

namespace Definition

/-- The declared names, in order. -/
def names (d : Definition) : List String :=
  d.declarations.map (·.name)

/-- No name is declared twice, every rule has targets and operations, all names that rules, cascades and checks
mention are declared, and no two rules claim the same under conditions that can be met at once. -/
structure WellFormed (d : Definition) : Prop where
  distinct : d.names.Nodup
  complete : ∀ r ∈ d.rules, r.targets ≠ [] ∧ r.ops ≠ []
  wiring : d.wiring.Fits d.names
  checks : d.checks.Fits d.names
  apart : d.rules.Pairwise fun r s => ¬ r.Collides s

theorem names_declared (d : Definition) : d.declared.names = d.names := by
  rw [FieldTable.names_eq_map, declarations_declared]
  rfl

end Definition

/-- The name that a call is given, and how it is mentioned if it is not declared.  Loading skips the names that
are not declared. -/
def Call.subject? : Call → Option (String × Reference)
  | .set name _ => some (name, .update)
  | .resetToBaseline name => some (name, .update)
  | .setChoices name _ => some (name, .lookup)
  | .load _ | .refresh | .commit | .validate => none

namespace Form

section Acceptance

variable {d : Definition} {f : Form}

theorem checkParts_eq_ok_iff_fits : d.checkParts d.declared = .ok () ↔
    (∀ r ∈ d.rules, r.targets ≠ [] ∧ r.ops ≠ []) ∧ d.wiring.Fits d.names ∧ d.checks.Fits d.names ∧
      d.rules.Pairwise fun r s => ¬ r.Collides s := by
  have hapart : d.rules.Pairwise Rule.Apart ↔ d.rules.Pairwise fun r s => ¬ r.Collides s :=
    List.Pairwise.iff fun _ _ => Rule.apart_iff_not_collides
  rw [checkParts_eq_ok_iff, RuleSet.check_eq_ok_iff_sound, Checks.check_eq_ok_iff, ← hapart]
  simp only [Cascade.check_eq_ok_iff, Definition.names_declared]
  constructor
  · rintro ⟨hrules, hcascades, hchecks⟩
    exact ⟨hrules.complete, ⟨hrules.fits, hcascades⟩, hchecks, hrules.apart⟩
  · rintro ⟨hcomplete, hwiring, hchecks, hrules⟩
    exact ⟨⟨hcomplete, hwiring.rules, hrules⟩, hwiring.cascades, hchecks⟩

/-- Exactly the well-formed definitions are accepted. -/
theorem build_eq_ok_iff_wellFormed : (∃ form, build d = .ok form) ↔ d.WellFormed := by
  simp only [build_eq_ok_iff, checkParts_eq_ok_iff_fits]
  constructor
  · rintro ⟨form, hdistinct, ⟨hcomplete, hwiring, hchecks, hapart⟩, -⟩
    exact ⟨hdistinct, hcomplete, hwiring, hchecks, hapart⟩
  · intro h
    exact ⟨d.opened, h.distinct, ⟨h.complete, h.wiring, h.checks, h.apart⟩, rfl⟩

theorem IsOf.names (h : IsOf d f) : f.table.names = d.names := by
  rw [FieldTable.names_eq_map, h.declarations]
  rfl

/-- A call that is given an undeclared name is refused and leaves the form as it is. -/
theorem call_of_not_mem (h : IsOf d f) {c : Call} {name : String} {reference : Reference}
    (hc : c.subject? = some (name, reference)) (hname : name ∉ d.names) :
    f.call c = (f, .error (.unknownField name reference)) := by
  rw [← h.names] at hname
  rw [call_eq h]
  cases c with
  | set _ v =>
    obtain ⟨rfl, rfl⟩ := Prod.mk.inj (Option.some.inj hc)
    rw [after, answer, if_neg hname, if_neg hname]
  | resetToBaseline _ =>
    obtain ⟨rfl, rfl⟩ := Prod.mk.inj (Option.some.inj hc)
    rw [after, answer, if_neg hname, if_neg hname]
  | setChoices _ choices =>
    obtain ⟨rfl, rfl⟩ := Prod.mk.inj (Option.some.inj hc)
    rw [after, answer, if_neg hname, if_neg hname]
  | load stored => simp [Call.subject?] at hc
  | refresh => simp [Call.subject?] at hc
  | commit => simp [Call.subject?] at hc
  | validate => simp [Call.subject?] at hc

/-- A call that is given a declared name, or none, is not refused. -/
theorem exists_answer_of_mem (h : IsOf d f) {c : Call}
    (hc : ∀ name reference, c.subject? = some (name, reference) → name ∈ d.names) :
    ∃ a, (f.call c).2 = .ok a := by
  rw [← h.names] at hc
  rw [call_eq h]
  cases c with
  | set name v => exact ⟨_, by rw [answer, if_pos (hc name .update rfl)]⟩
  | resetToBaseline name => exact ⟨_, by rw [answer, if_pos (hc name .update rfl)]⟩
  | setChoices name choices => exact ⟨_, by rw [answer, if_pos (hc name .lookup rfl)]⟩
  | load stored => exact ⟨_, rfl⟩
  | refresh => exact ⟨_, rfl⟩
  | commit => exact ⟨_, rfl⟩
  | validate => exact ⟨_, rfl⟩

/-- Exactly the well-formed definitions are accepted.  On a form in use, a call that is given a name is refused
exactly if the name is not declared, and then the form is what it was before; a call that is given none, such as
loading any values, is never refused. -/
theorem acceptance_exact (d : Definition) : ((∃ form, build d = .ok form) ↔ d.WellFormed) ∧
    ∀ f, InUse d f → ∀ c : Call,
      (∀ name reference, c.subject? = some (name, reference) →
        ((∃ e, (f.call c).2 = .error e) ↔ name ∉ d.names) ∧
        (name ∉ d.names → f.call c = (f, .error (.unknownField name reference)))) ∧
      (c.subject? = none → ∃ a, (f.call c).2 = .ok a) := by
  refine ⟨build_eq_ok_iff_wellFormed, fun f huse c => ⟨fun name reference hc => ?_, fun hc => ?_⟩⟩
  · have hrefused := call_of_not_mem huse.isOf hc
    refine ⟨⟨?_, fun hname => ⟨_, by rw [hrefused hname]⟩⟩, hrefused⟩
    rintro ⟨e, he⟩ hname
    obtain ⟨a, ha⟩ := exists_answer_of_mem huse.isOf (c := c) fun other _ hother => by
      rw [hc] at hother
      rwa [← (Prod.mk.inj (Option.some.inj hother)).1]
    rw [ha] at he
    simp at he
  · exact exists_answer_of_mem huse.isOf fun _ _ hsome => by simp [hc] at hsome

/-- Choices for an undeclared field of a small bond leave no trace, whatever was edited before. -/
theorem acceptance_exact_smallBond : smallBond.WellFormed ∧ ∃ f, InUse smallBond f ∧ f.active = 1 ∧
    f.table.valueAt "slaves" = .list ["eth0"] ∧
    f.call (.setChoices "vlanid" []) = (f, .error (.unknownField "vlanid" .lookup)) := by
  have hexact := acceptance_exact smallBond
  have huse : InUse smallBond (smallBond.opened.run [.set "slaves" (.list ["eth0"])]).nextField :=
    (InUse.of_reachable ⟨_, _, build_smallBond, rfl⟩).nextField
  refine ⟨hexact.1.mp ⟨_, build_smallBond⟩, _, huse, by decide +kernel, by decide +kernel, ?_⟩
  exact ((hexact.2 _ huse _).1 "vlanid" .lookup rfl).2 (by decide +kernel)

end Acceptance

end Form

end FormConsole
