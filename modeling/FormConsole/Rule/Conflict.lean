import FormConsole.Rule

/-!
# Conflicts between rules

A rule set is sound for a table of fields if every rule has targets and operations, every field that it mentions is
declared, and no two rules that can apply at once claim the same property of the same field.

Whether two rules can apply at once is a question about all assignments of values to fields, but only the values
that some condition asks for matter: a field that conditions mention needs one value that passes all of them, and the
first condition already lists all candidates.

* `Rule.canOverlap`: whether two rules can apply at once.
* `RuleSet.conflict?`: the first conflict, in the order of the positions of the two rules.
* `RuleSet.check`: the complete check.
-/

namespace FormConsole

/-! ## Overlap -/

section Overlap

/-- What the conditions on a field ask for. -/
def specsOn (field : String) (cs : List Condition) : List MatchSpec :=
  (cs.filter fun c => c.field == field).map (·.spec)

/-- Whether one value passes all of the specs. -/
def satisfiable (specs : List MatchSpec) : Bool :=
  (specs.flatMap MatchSpec.accepted).any fun v => specs.all fun s => s.accepts v

/-- Whether some values satisfy all of the conditions. -/
def compatible (cs : List Condition) : Bool :=
  cs.all fun c => satisfiable (specsOn c.field cs)

/-- Whether some values satisfy both rules. -/
def Rule.canOverlap (r s : Rule) : Bool :=
  compatible (r.conditions ++ s.conditions)

/-- The specs of a nonempty list have a common value exactly if the search finds one. -/
theorem satisfiable_iff {specs : List MatchSpec} (h : specs ≠ []) :
    satisfiable specs = true ↔ ∃ v, ∀ s ∈ specs, s.accepts v = true := by
  simp only [satisfiable, List.any_eq_true, List.all_eq_true, List.mem_flatMap]
  constructor
  · rintro ⟨v, -, hv⟩
    exact ⟨v, hv⟩
  · rintro ⟨v, hv⟩
    obtain ⟨s, hs⟩ := List.exists_mem_of_ne_nil specs h
    exact ⟨v, ⟨s, hs, MatchSpec.accepts_iff_mem_accepted.mp (hv s hs)⟩, hv⟩

end Overlap

/-! ## Rule sets -/

namespace RuleSet

/-- Refuses a rule without targets or operations, and one that mentions an undeclared field: targets
first, then the fields of conditions. -/
def checkRule (t : FieldTable) (position : Nat) (r : Rule) : Except FormError Unit :=
  if r.targets.isEmpty || r.ops.isEmpty then
    .error (.emptyRule position)
  else
    (r.targets ++ r.conditions.map (·.field)).forM fun name => t.require name (.rule position)

/-- The conflict of a rule with a later one, if they claim the same and can apply at once.  It names the first
claim of the later rule that the earlier one shares. -/
def conflictWith? (first : Rule × Nat) (second : Rule × Nat) : Option FormError :=
  match second.1.claims.find? fun c => first.1.claims.contains c with
  | some c =>
    if first.1.canOverlap second.1 then
      some (.conflictingRules c.field c.property first.2 second.2)
    else none
  | none => none

/-- The first conflict among numbered rules. -/
def firstConflict? : List (Rule × Nat) → Option FormError
  | [] => none
  | r :: rs => (rs.findSome? (conflictWith? r)).or (firstConflict? rs)

/-- The first conflict of a rule set, by the position of the earlier rule, then of the later one. -/
def conflict? (rules : RuleSet) : Option FormError :=
  firstConflict? rules.zipIdx

/-- Refuses a rule set that is not sound for the fields. -/
def check (rules : RuleSet) (t : FieldTable) : Except FormError Unit := do
  rules.zipIdx.forM fun r => checkRule t r.2 r.1
  match rules.conflict? with
  | some e => throw e
  | none => pure ()

/-- The fields whose values conditions ask for, in order of their names. -/
def watched (rules : RuleSet) : List String :=
  Names.ofList (rules.flatMap fun r => r.conditions.map (·.field))

end RuleSet

end FormConsole
