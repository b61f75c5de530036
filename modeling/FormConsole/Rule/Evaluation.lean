import FormConsole.Field.Edit
import FormConsole.Rule.Conflict

/-!
# Evaluation of rules

All rules are looked at under the same values.  Every claim of some rule then gets a state: the one that the last
satisfied rule writes for it, or the baseline of its field if no satisfied rule writes it.  So nothing of an
override is left once the rule that made it does not apply any more.

* `lastWrite?`: the state that is written last for a claim.
* `RuleSet.required`: the state that each claim has to have.
* `RuleSet.evaluate`: gives every claim that state.
-/

namespace FormConsole

/-- The state that is written last for a claim. -/
def lastWrite? (writes : List (Claim × Bool)) (c : Claim) : Option Bool :=
  ((writes.filter fun w => w.1 == c).getLast?).map (·.2)

namespace RuleSet

/-- The rules that apply to the current values. -/
def satisfied (t : FieldTable) : RuleSet → Except FormError RuleSet
  | [] => .ok []
  | r :: rs => do
    let holds ← r.isSatisfied t
    let rest ← satisfied t rs
    pure (if holds then r :: rest else rest)

/-- All that the rules can override, in order and without repetition. -/
def claims (rules : RuleSet) : List Claim :=
  Claim.sorted (rules.flatMap Rule.claims)

/-- The state that a claim has to have when these are the writes of the satisfied rules. -/
def required (t : FieldTable) (writes : List (Claim × Bool)) (c : Claim) : Except FormError Bool := do
  let f ← t.lookup c.field
  pure ((lastWrite? writes c).getD (f.decl.baseline.get c.property))

/-- Gives a claim its state; says whether it is a new one. -/
def settle (writes : List (Claim × Bool)) (c : Claim) : Edit Bool := do
  let state ← Edit.ask fun t => required t writes c
  Edit.override c.field c.property state

/-- Gives each claim its state; answers with the fields whose constraints are new, in order. -/
def settleAll (writes : List (Claim × Bool)) : List Claim → Edit (List String)
  | [] => pure []
  | c :: cs => do
    let changed ← settle writes c
    let rest ← settleAll writes cs
    pure (if changed then Names.insert c.field rest else rest)

/-- Gives every claim the state that the rules ask for under the current values; answers with the fields whose
constraints are new, in order. -/
def evaluate (rules : RuleSet) : Edit (List String) := do
  let applying ← Edit.ask fun t => satisfied t rules
  Edit.ask fun t => (rules.flatMap (·.targets)).forM fun name => (t.lookup name).map fun _ => ()
  settleAll (applying.flatMap Rule.writes) rules.claims

/-- Whether a change of that field concerns the rules. -/
def watches (rules : RuleSet) (field : String) : Bool :=
  rules.watched.contains field

end RuleSet

end FormConsole
