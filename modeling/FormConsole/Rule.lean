import FormConsole.Field.Table
import FormConsole.Text.Blank

/-!
# Rules

A rule says which constraints its targets have while all its conditions hold: it names fields, asks for values of
other fields, and lists operations on properties.

* `MatchSpec.accepts`, `MatchSpec.accepted`: which values a condition asks for.
* `PropertyOp.ofToken?`: an operation from its token, a property name with or without `!` in front.
* `Rule.isSatisfied`: whether the conditions hold of the current values.
* `Rule.claims`, `Rule.writes`: what a rule can override, and with which state.
-/

namespace FormConsole

/-! ## Conditions -/

/-- Which values a condition asks for: one value, or any of several. -/
inductive MatchSpec where
  | equals (v : Value)
  | oneOf (vs : List Value)
  deriving DecidableEq

namespace MatchSpec

/-- Whether a value is asked for. -/
def accepts : MatchSpec → Value → Bool
  | .equals expected, v => expected == v
  | .oneOf candidates, v => candidates.contains v

/-- All values that are asked for. -/
def accepted : MatchSpec → List Value
  | .equals expected => [expected]
  | .oneOf candidates => candidates

theorem accepts_iff_mem_accepted {s : MatchSpec} {v : Value} :
    s.accepts v = true ↔ v ∈ s.accepted := by
  cases s with
  | equals expected =>
    simp only [accepts, accepted, beq_iff_eq, List.mem_singleton]
    exact eq_comm
  | oneOf candidates => simp [accepts, accepted]

end MatchSpec

/-- A field, and which of its values are asked for. -/
structure Condition where
  field : String
  spec : MatchSpec
  deriving DecidableEq

/-! ## Operations -/

/-- An operation that switches a property on, or off if it is negated. -/
structure PropertyOp where
  property : Property
  negated : Bool
  deriving DecidableEq

namespace PropertyOp

/-- The field must not stay blank. -/
def mandatory : PropertyOp := ⟨.allowBlank, true⟩

/-- The field can be edited. -/
def editable : PropertyOp := ⟨.readOnly, true⟩

/-- The state that the operation gives its property. -/
def state (op : PropertyOp) : Bool :=
  !op.negated

/-- The token of an operation. -/
def token (op : PropertyOp) : String :=
  if op.negated then "!" ++ op.property.name else op.property.name

/-- The operation of a token.  White space around the token is skipped, none is allowed after `!`. -/
def ofToken? (s : String) : Except FormError PropertyOp :=
  let (negated, name) :=
    match Text.trim s.toList with
    | '!' :: rest => (true, String.ofList rest)
    | cs => (false, String.ofList cs)
  match Property.ofName? name with
  | some p => .ok ⟨p, negated⟩
  | none => .error (.unknownProperty name)

end PropertyOp

/-! ## Rules -/

/-- A property of a field, which a rule can override. -/
structure Claim where
  field : String
  property : Property
  deriving DecidableEq

namespace Claim

/-- Claims are ordered by field, then by property. -/
def precedes (c d : Claim) : Bool :=
  decide (c.field < d.field ∨ (c.field = d.field ∧ c.property.rank < d.property.rank))

/-- Puts a claim in its place, unless it is there already. -/
def insert (c : Claim) : List Claim → List Claim
  | [] => [c]
  | d :: ds => if c = d then d :: ds else if c.precedes d then c :: d :: ds else d :: insert c ds

/-- The claims of a list, in order and without repetition. -/
def sorted (cs : List Claim) : List Claim :=
  cs.foldr insert []

@[simp] theorem mem_insert {b c : Claim} {ds : List Claim} :
    b ∈ insert c ds ↔ b = c ∨ b ∈ ds := by
  induction ds with
  | nil => simp [insert]
  | cons d ds ih =>
    unfold insert
    split
    · next h => subst h; simp
    · split
      · simp
      · simp only [List.mem_cons, ih]
        constructor
        · rintro (h | h | h) <;> simp [h]
        · rintro (h | h | h) <;> simp [h]

theorem mem_sorted {b : Claim} {cs : List Claim} : b ∈ sorted cs ↔ b ∈ cs := by
  induction cs with
  | nil => simp [sorted]
  | cons c cs ih =>
    change b ∈ insert c (sorted cs) ↔ _
    rw [mem_insert, ih, List.mem_cons]

end Claim

/-- While every condition holds, each target gets the listed operations; otherwise the rule is silent. -/
structure Rule where
  targets : List String
  conditions : List Condition
  ops : List PropertyOp
  deriving DecidableEq

namespace Rule

/-- The rule for these targets, without conditions and operations. -/
def on (targets : List String) : Rule := ⟨targets, [], []⟩

/-- The rule with one more condition, which asks for one value. -/
def when (r : Rule) (field : String) (v : Value) : Rule :=
  { r with conditions := r.conditions ++ [⟨field, .equals v⟩] }

/-- The rule with one more condition, which asks for any of several values. -/
def whenAny (r : Rule) (field : String) (vs : List Value) : Rule :=
  { r with conditions := r.conditions ++ [⟨field, .oneOf vs⟩] }

/-- The rule with one more operation. -/
def giving (r : Rule) (op : PropertyOp) : Rule :=
  { r with ops := r.ops ++ [op] }

/-- The rule with the operations of these tokens added. -/
def withTokens (r : Rule) (tokens : List String) : Except FormError Rule := do
  let ops ← tokens.mapM PropertyOp.ofToken?
  pure { r with ops := r.ops ++ ops }

/-- Whether all conditions hold of the current values.  They are looked at in order, up to the first one that
does not hold. -/
def conditionsHold (t : FieldTable) : List Condition → Except FormError Bool
  | [] => .ok true
  | c :: cs => do
    let v ← t.valueOf c.field
    if c.spec.accepts v then conditionsHold t cs else pure false

/-- Whether the rule applies to the current values. -/
def isSatisfied (r : Rule) (t : FieldTable) : Except FormError Bool :=
  conditionsHold t r.conditions

/-- What the rule can override, target by target. -/
def claims (r : Rule) : List Claim :=
  r.targets.flatMap fun target => r.ops.map fun op => ⟨target, op.property⟩

/-- The states that the rule gives while it applies, target by target. -/
def writes (r : Rule) : List (Claim × Bool) :=
  r.targets.flatMap fun target => r.ops.map fun op => (⟨target, op.property⟩, op.state)

theorem map_fst_writes (r : Rule) : r.writes.map (·.1) = r.claims := by
  simp [writes, claims, List.map_flatMap, Function.comp_def]

end Rule

/-- The rules of a form, in order. -/
abbrev RuleSet := List Rule

end FormConsole
