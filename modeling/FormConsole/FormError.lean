import FormConsole.Field.Constraint

/-!
# Errors of forms

Why a form cannot be opened or a call on it is refused, and the message for each cause.
-/

namespace FormConsole

/-- What mentioned a field. -/
inductive Reference where
  /-- A value was to be read. -/
  | lookup
  /-- A value was to be written. -/
  | update
  /-- The rule at that position. -/
  | rule (position : Nat)
  /-- The cascade into that field. -/
  | cascade (dependent : String)
  /-- The exclusion on that wildcard field. -/
  | exclusion (wildcard : String)
  /-- The confirmation of that field. -/
  | confirmation (field : String)
  /-- Anything else, in its own words. -/
  | other (description : String)
  deriving DecidableEq

namespace Reference

/-- The words for what mentioned a field. -/
def describe : Reference → String
  | .lookup => "field lookup"
  | .update => "field update"
  | .rule position => "correlation rule #" ++ toString position
  | .cascade dependent => "cascade into '" ++ dependent ++ "'"
  | .exclusion wildcard => "exclusion on '" ++ wildcard ++ "'"
  | .confirmation field => "match constraint on '" ++ field ++ "'"
  | .other description => description

end Reference

/-- Why a form is refused. -/
inductive FormError where
  /-- A field is mentioned that is not declared. -/
  | unknownField (field : String) (reference : Reference)
  /-- A field is declared more than once. -/
  | duplicateField (field : String)
  /-- A token names no property. -/
  | unknownProperty (token : String)
  /-- A rule has no targets or no operations. -/
  | emptyRule (position : Nat)
  /-- Two rules that can hold at once set the same property of the same field. -/
  | conflictingRules (field : String) (property : Property) (first second : Nat)
  deriving DecidableEq

namespace FormError

/-- The message of an error. -/
def message : FormError → String
  | .unknownField field reference =>
    "unknown field '" ++ field ++ "' referenced by " ++ reference.describe
  | .duplicateField field => "field '" ++ field ++ "' is declared more than once"
  | .unknownProperty token =>
    "unknown property '" ++ token ++ "' (expected allowBlank or readOnly)"
  | .emptyRule position =>
    "correlation rule #" ++ toString position ++ " has no targets or no property operations"
  | .conflictingRules field property first second =>
    "correlation rules #" ++ toString first ++ " and #" ++ toString second ++ " both set "
      ++ property.name ++ " on '" ++ field ++ "' under overlapping conditions"

end FormError

end FormConsole
