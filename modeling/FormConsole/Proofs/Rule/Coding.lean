import FormConsole.Proofs.Json.RoundTrip
import FormConsole.Rule.Coding

/-!
# Rules that were written

Rules read back as they are but for one thing: a condition on one list is written like a condition on any of several
values, and reads back as one, on the items as texts.  Rules that were read have no such condition.

* `MatchSpec.AsksForList`: the conditions on one list; `Rule.reread`: a rule after it was written and read.
* `Rule.ofJson?_toJson`, `Rule.not_asksForList_of_ofJson?`: one rule, written and read.
* `RuleSet.ofText?_toText`: the text of a list of rules.
-/

namespace FormConsole

/-! ## Conditions -/

theorem Value.plain_toJson (v : Value) : v.toJson.Plain := by
  cases v with
  | bool b => exact .bool b
  | number n => exact .integer n.toInt
  | text s => exact .text s
  | list items => exact .map .text items

namespace MatchSpec

/-- One value is asked for, and it is a list. -/
def AsksForList (spec : MatchSpec) : Prop :=
  ∃ items, spec = .equals (.list items)

/-- What is asked for after it was written and read. -/
def reread : MatchSpec → MatchSpec
  | .equals (.list items) => .oneOf (items.map .text)
  | spec => spec

theorem reread_eq_self_iff {spec : MatchSpec} : spec.reread = spec ↔ ¬ spec.AsksForList := by
  rcases spec with (b | n | s | items) | vs <;> simp [reread, AsksForList]

theorem plain_toJson (spec : MatchSpec) : spec.toJson.Plain := by
  cases spec with
  | equals v => exact v.plain_toJson
  | oneOf vs => exact .map Value.plain_toJson vs

theorem ofJson?_toJson (spec : MatchSpec) : ofJson? spec.toJson = some spec.reread := by
  cases spec with
  | equals v =>
    cases v with
    | bool b => rfl
    | number n => simp [toJson, Value.toJson, ofJson?, Value.ofJson?, reread]
    | text s => rfl
    | list items =>
      have hitems : (items.map Json.text).mapM Value.ofJson? = some (items.map .text) :=
        Json.mapM_map_eq_some fun _ _ => rfl
      rw [toJson, Value.toJson, ofJson?, hitems]
      rfl
  | oneOf vs =>
    have hvalues : (vs.map Value.toJson).mapM Value.ofJson? = some (vs.map id) :=
      Json.mapM_map_eq_some fun v _ => v.ofJson?_toJson
    rw [toJson, ofJson?, hvalues, List.map_id]
    rfl

/-- An array always reads as any of several values. -/
theorem not_asksForList_of_ofJson? {j : Json} {spec : MatchSpec} (h : ofJson? j = some spec) :
    ¬ spec.AsksForList := by
  rintro ⟨items, rfl⟩
  cases j with
  | array js => simp [ofJson?] at h
  | _ => simp [ofJson?, Value.ofJson?] at h

end MatchSpec

namespace Condition

/-- A condition after it was written and read. -/
def reread (c : Condition) : Condition :=
  { c with spec := c.spec.reread }

theorem reread_eq_self_iff {c : Condition} : c.reread = c ↔ ¬ c.spec.AsksForList := by
  obtain ⟨field, spec⟩ := c
  simp [reread, MatchSpec.reread_eq_self_iff]

theorem plain_toJson (c : Condition) : c.toJson.Plain :=
  .record (by simp [Json.Plain.text, c.spec.plain_toJson])

theorem ofJson?_toJson (c : Condition) : ofJson? c.toJson = some c.reread := by
  have hfields : c.toJson.fields? ["name", "value"] = some [some (.text c.field), some c.spec.toJson] :=
    Json.fields?_record [("name", .text c.field), ("value", c.spec.toJson)] (by simp)
  rw [ofJson?, hfields]
  simp only [Option.bind_eq_bind, Option.bind_some, Json.required?, Json.text, Json.text?, c.spec.ofJson?_toJson]
  rfl

theorem not_asksForList_of_ofJson? {j : Json} {c : Condition} (h : ofJson? j = some c) :
    ¬ c.spec.AsksForList := by
  simp only [ofJson?, Option.bind_eq_bind, Option.bind_eq_some_iff] at h
  obtain ⟨written, -, h⟩ := h
  split at h
  · simp only [Option.bind_eq_some_iff, Json.required?] at h
    obtain ⟨field, -, spec, ⟨j', -, hspec⟩, heq⟩ := h
    obtain rfl := Option.some.inj heq
    exact MatchSpec.not_asksForList_of_ofJson? hspec
  · exact absurd h (by simp)

end Condition

/-! ## Rules -/

namespace PropertyOp

/-- The token of an operation is the operation. -/
theorem ofToken?_token (op : PropertyOp) : ofToken? op.token = .ok op := by
  obtain ⟨property, negated⟩ := op
  cases property <;> cases negated <;> rfl

theorem plain_toJson (op : PropertyOp) : op.toJson.Plain := .text op.token

theorem ofJson?_toJson (op : PropertyOp) : ofJson? op.toJson = some op := by
  rw [ofJson?, toJson, Json.text, Json.text?, Option.bind_eq_bind, Option.bind_some, ofToken?_token]
  rfl

end PropertyOp

namespace Rule

/-- A rule after it was written and read. -/
def reread (r : Rule) : Rule :=
  { r with conditions := r.conditions.map Condition.reread }

theorem reread_eq_self_iff {r : Rule} : r.reread = r ↔ ∀ c ∈ r.conditions, ¬ c.spec.AsksForList := by
  have hconditions : r.reread = r ↔ r.conditions.map Condition.reread = r.conditions := by
    obtain ⟨targets, conditions, ops⟩ := r
    simp [reread]
  rw [hconditions, Json.map_eq_self_iff]
  exact forall₂_congr fun c _ => c.reread_eq_self_iff

theorem plain_toJson (r : Rule) : r.toJson.Plain := by
  refine .record ?_
  simp only [List.mem_cons, List.not_mem_nil, or_false, forall_eq_or_imp, forall_eq]
  exact ⟨.map .text r.targets, .map Condition.plain_toJson r.conditions, .map PropertyOp.plain_toJson r.ops⟩

/-- A rule reads back but for its conditions on one list. -/
theorem ofJson?_toJson (r : Rule) : ofJson? r.toJson = some r.reread := by
  have hfields : r.toJson.fields? ["name", "conditions", "properties"] =
      some [some (.array (r.targets.map .text)), some (.array (r.conditions.map Condition.toJson)),
        some (.array (r.ops.map PropertyOp.toJson))] :=
    Json.fields?_record [("name", .array (r.targets.map .text)),
      ("conditions", .array (r.conditions.map Condition.toJson)),
      ("properties", .array (r.ops.map PropertyOp.toJson))] (by simp)
  have htargets : Json.list? Json.text? (.array (r.targets.map .text)) = some (r.targets.map id) :=
    Json.list?_map fun _ _ => rfl
  have hconditions : Json.list? Condition.ofJson? (.array (r.conditions.map Condition.toJson)) =
      some (r.conditions.map Condition.reread) :=
    Json.list?_map fun c _ => c.ofJson?_toJson
  have hops : Json.list? PropertyOp.ofJson? (.array (r.ops.map PropertyOp.toJson)) = some (r.ops.map id) :=
    Json.list?_map fun op _ => op.ofJson?_toJson
  rw [ofJson?, hfields]
  simp only [Option.bind_eq_bind, Option.bind_some, Json.required?, Json.default?, htargets, hconditions, hops,
    List.map_id]
  rfl

/-- A rule that was read has no condition on one list. -/
theorem not_asksForList_of_ofJson? {j : Json} {r : Rule} (h : ofJson? j = some r) :
    ∀ c ∈ r.conditions, ¬ c.spec.AsksForList := by
  simp only [ofJson?, Option.bind_eq_bind, Option.bind_eq_some_iff] at h
  obtain ⟨written, -, h⟩ := h
  split at h
  · next targets conditions ops =>
    simp only [Option.bind_eq_some_iff] at h
    obtain ⟨targets', -, conditions', hconditions, ops', -, heq⟩ := h
    obtain rfl := Option.some.inj heq
    intro c hc
    cases conditions with
    | none =>
      obtain rfl := Option.some.inj hconditions
      exact absurd hc List.not_mem_nil
    | some j' =>
      obtain ⟨-, -, i, -, hread⟩ := Json.exists_of_mem_list? hconditions c hc
      exact Condition.not_asksForList_of_ofJson? hread
  · exact absurd h (by simp)

end Rule

/-! ## Lists of rules -/

namespace RuleSet

theorem plain_toJson (rules : RuleSet) : (toJson rules).Plain :=
  .map Rule.plain_toJson rules

theorem ofJson?_toJson (rules : RuleSet) : ofJson? (toJson rules) = some (rules.map Rule.reread) :=
  Json.list?_map fun r _ => r.ofJson?_toJson

theorem map_reread_eq_self_iff {rules : RuleSet} :
    rules.map Rule.reread = rules ↔ ∀ r ∈ rules, ∀ c ∈ r.conditions, ¬ c.spec.AsksForList := by
  rw [Json.map_eq_self_iff]
  exact forall₂_congr fun r _ => r.reread_eq_self_iff

/-- Rules that were read have no condition on one list. -/
theorem not_asksForList_of_ofText? {s : String} {rules : RuleSet} (h : ofText? s = some rules) :
    ∀ r ∈ rules, ∀ c ∈ r.conditions, ¬ c.spec.AsksForList := by
  obtain ⟨j, -, hread⟩ := Option.bind_eq_some_iff.mp h
  intro r hr
  obtain ⟨-, -, i, -, hrule⟩ := Json.exists_of_mem_list? hread r hr
  exact Rule.not_asksForList_of_ofJson? hrule

/-- What happens to rules that are written and read.  Reading the text of rules succeeds and gives the same rules, except
that each condition on one list has become one on any of its items as texts; so it gives the same rules exactly if they
have no such condition, which rules that were read from any text never have. -/
theorem ofText?_toText (rules : RuleSet) :
    ofText? (toText rules) = some (rules.map Rule.reread) ∧
    (ofText? (toText rules) = some rules ↔
      ∀ r ∈ rules, ∀ c ∈ r.conditions, ∀ items, c.spec ≠ .equals (.list items)) ∧
    ∀ s, ofText? s = some rules → ofText? (toText rules) = some rules := by
  have hread : ofText? (toText rules) = some (rules.map Rule.reread) := by
    rw [ofText?, toText, Json.parse?_render (plain_toJson rules), Option.bind_some, ofJson?_toJson]
  have hsame : ofText? (toText rules) = some rules ↔
      ∀ r ∈ rules, ∀ c ∈ r.conditions, ¬ c.spec.AsksForList := by
    rw [hread, Option.some_inj, map_reread_eq_self_iff]
  refine ⟨hread, ?_, fun s hs => hsame.mpr (not_asksForList_of_ofText? hs)⟩
  rw [hsame]
  simp only [MatchSpec.AsksForList, not_exists, ne_eq]

/-- A rule on the gateway with this condition on the method. -/
def gatewayRule (spec : MatchSpec) : Rule := ⟨["gateway"], [⟨"method", spec⟩], [.editable]⟩

/-- A rule that was read, from an array, reads back as it is; a condition on a list becomes one on its item. -/
theorem ofText?_toText_gateway :
    ofText? "[[[\"gateway\"], [[\"method\", [\"static\"]]], [\" !readOnly\"]]]" =
      some [gatewayRule (.oneOf [.text "static"])] ∧
    ofText? (toText [gatewayRule (.oneOf [.text "static"])]) = some [gatewayRule (.oneOf [.text "static"])] ∧
    ofText? (toText [gatewayRule (.equals (.list ["static"]))]) =
      some [gatewayRule (.oneOf [.text "static"])] := by
  have hread : ofText? "[[[\"gateway\"], [[\"method\", [\"static\"]]], [\" !readOnly\"]]]" =
      some [gatewayRule (.oneOf [.text "static"])] := by
    decide +kernel
  exact ⟨hread, (ofText?_toText _).2.2 _ hread, (ofText?_toText [gatewayRule (.equals (.list ["static"]))]).1⟩

end RuleSet

end FormConsole
