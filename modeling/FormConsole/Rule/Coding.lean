import FormConsole.Rule
import FormConsole.Value.Coding
import FormConsole.Json.Printer
import FormConsole.Json.Reader
import FormConsole.Json.Record

/-!
# Rules in JSON

A rule is the record of its targets under `name`, its `conditions`, which may be left out, and the tokens of its
operations under `properties`; a condition is the record of a `name` and a `value`.  A condition on any of several
values is written as the array of the values, so that an array of values always reads as such a condition.
-/

namespace FormConsole

namespace MatchSpec

/-- The values that are asked for: an array is any of its items, anything else is the value itself. -/
def ofJson? : Json → Option MatchSpec
  | .array items => (items.mapM Value.ofJson?).map .oneOf
  | j => (Value.ofJson? j).map .equals

/-- A condition's values as they are written. -/
def toJson : MatchSpec → Json
  | .equals v => v.toJson
  | .oneOf vs => .array (vs.map Value.toJson)

end MatchSpec

namespace Condition

/-- The condition that is written. -/
def ofJson? (j : Json) : Option Condition := do
  match ← j.fields? ["name", "value"] with
  | [field, spec] =>
    let field ← Json.required? Json.text? field
    let spec ← Json.required? MatchSpec.ofJson? spec
    pure ⟨field, spec⟩
  | _ => none

/-- A condition as it is written. -/
def toJson (c : Condition) : Json :=
  .record [("name", .text c.field), ("value", c.spec.toJson)]

end Condition

namespace PropertyOp

/-- The operation whose token is written. -/
def ofJson? (j : Json) : Option PropertyOp := do
  let token ← j.text?
  (ofToken? token).toOption

/-- An operation as it is written. -/
def toJson (op : PropertyOp) : Json :=
  .text op.token

end PropertyOp

namespace Rule

/-- The rule that is written. -/
def ofJson? (j : Json) : Option Rule := do
  match ← j.fields? ["name", "conditions", "properties"] with
  | [targets, conditions, ops] =>
    let targets ← Json.required? (Json.list? Json.text?) targets
    let conditions ← Json.default? (Json.list? Condition.ofJson?) [] conditions
    let ops ← Json.required? (Json.list? PropertyOp.ofJson?) ops
    pure ⟨targets, conditions, ops⟩
  | _ => none

/-- A rule as it is written. -/
def toJson (r : Rule) : Json :=
  .record [("name", .array (r.targets.map .text)),
    ("conditions", .array (r.conditions.map Condition.toJson)),
    ("properties", .array (r.ops.map PropertyOp.toJson))]

end Rule

namespace RuleSet

/-- The rules that are written, as an array. -/
def ofJson? : Json → Option RuleSet :=
  Json.list? Rule.ofJson?

/-- Rules as they are written. -/
def toJson (rules : RuleSet) : Json :=
  .array (rules.map Rule.toJson)

/-- The rules of a text. -/
def ofText? (s : String) : Option RuleSet :=
  (Json.parse? s).bind ofJson?

/-- The text of rules. -/
def toText (rules : RuleSet) : String :=
  (toJson rules).render

end RuleSet

end FormConsole
