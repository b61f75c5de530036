import FormConsole.Field.Table

/-!
# Validation

What is checked before a form is saved.  Every field that must not stay blank needs a value; only if all of them
have one, the checks across fields are made.

* `Exclusion`: a wildcard value and a flag that exclude each other.
* `Confirmation`: two fields that must hold the same value.
* `Checks.violations`: everything that is wrong; `Checks.mark`: the fields with marks for it.
-/

namespace FormConsole

/-- A field that is found invalid, and why. -/
structure Violation where
  field : String
  message : String
  deriving DecidableEq

/-! ## Checks across fields -/

/-- The wildcard field must not hold the sentinel while the flag is set. -/
structure Exclusion where
  wildcard : String
  flag : String
  sentinel : Value
  message : String
  deriving DecidableEq

namespace Exclusion

/-- The exclusion with the usual message. -/
def between (wildcard flag : String) (sentinel : Value) : Exclusion :=
  ⟨wildcard, flag, sentinel, "Ranges of numbers are not allowed"⟩

/-- Refuses an exclusion that mentions an undeclared field. -/
def check (e : Exclusion) (t : FieldTable) : Except FormError Unit :=
  [e.wildcard, e.flag].forM fun name => t.require name (.exclusion e.wildcard)

/-- Whether the exclusion is violated; the flag is read only if the wildcard field holds the sentinel. -/
def isViolated (e : Exclusion) (t : FieldTable) : Except FormError Bool := do
  let v ← t.valueOf e.wildcard
  if v = e.sentinel then
    let flag ← t.valueOf e.flag
    pure flag.isTrue
  else
    pure false

/-- What is wrong if the exclusion is violated. -/
def violations (e : Exclusion) : List Violation :=
  [⟨e.wildcard, e.message⟩, ⟨e.flag, e.message⟩]

end Exclusion

/-- Two fields must hold the same value. -/
structure Confirmation where
  field : String
  confirm : String
  message : String
  deriving DecidableEq

namespace Confirmation

/-- Refuses a confirmation that mentions an undeclared field. -/
def check (c : Confirmation) (t : FieldTable) : Except FormError Unit :=
  [c.field, c.confirm].forM fun name => t.require name (.confirmation c.field)

/-- Whether the confirmation is violated. -/
def isViolated (c : Confirmation) (t : FieldTable) : Except FormError Bool := do
  let v ← t.valueOf c.field
  let w ← t.valueOf c.confirm
  pure (v != w)

/-- What is wrong if the confirmation is violated. -/
def violations (c : Confirmation) : List Violation :=
  [⟨c.field, c.message⟩, ⟨c.confirm, c.message⟩]

end Confirmation

/-! ## All checks of a form -/

/-- The checks across the fields of a form. -/
structure Checks where
  exclusions : List Exclusion
  confirmations : List Confirmation
  deriving DecidableEq

namespace Checks

/-- Refuses checks that mention an undeclared field. -/
def check (c : Checks) (t : FieldTable) : Except FormError Unit := do
  c.exclusions.forM fun e => e.check t
  c.confirmations.forM fun m => m.check t

/-- The message for a field without the value it needs. -/
def missing : String := "This field is required"

/-- The fields that need a value and have none, in order. -/
def blankFields (t : FieldTable) : List Violation :=
  (t.fields.filter fun f => f.effective.isRequired && f.value.isBlank).map fun f =>
    ⟨f.name, missing⟩

/-- Whether a check answered that it is violated; one that mentions an undeclared field did not. -/
def answeredYes (r : Except FormError Bool) : Bool :=
  match r with
  | .ok b => b
  | .error _ => false

/-- What is wrong across fields: exclusions first, then confirmations. -/
def crossViolations (c : Checks) (t : FieldTable) : List Violation :=
  ((c.exclusions.filter fun e => answeredYes (e.isViolated t)).flatMap Exclusion.violations) ++
    ((c.confirmations.filter fun m => answeredYes (m.isViolated t)).flatMap
      Confirmation.violations)

/-- Everything that is wrong. -/
def violations (c : Checks) (t : FieldTable) : List Violation :=
  match blankFields t with
  | [] => c.crossViolations t
  | blank => blank

/-- Marks the fields that are invalid, each with the first message about it, and no other field. -/
def mark (t : FieldTable) (vs : List Violation) : FieldTable :=
  vs.foldl (fun t v => t.markInvalid v.field v.message) t.clearViolations

end Checks

end FormConsole
