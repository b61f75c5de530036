/-!
# Constraints

The two properties of a field that rules can override, and the state of a field in both: whether it may stay
blank and whether it is read-only.

* `Property`: the properties, in the order in which changes to them are made.
* `Constraints.get`, `Constraints.set`: one property read and written.
-/

namespace FormConsole

/-! ## Properties -/

/-- A property that a rule can override. -/
inductive Property where
  | allowBlank
  | readOnly
  deriving DecidableEq

namespace Property

/-- The name of a property. -/
def name : Property → String
  | .allowBlank => "allowBlank"
  | .readOnly => "readOnly"

/-- The property of that name. -/
def ofName? (s : String) : Option Property :=
  if s = "allowBlank" then some .allowBlank
  else if s = "readOnly" then some .readOnly
  else none

@[simp] theorem ofName?_name (p : Property) : ofName? p.name = some p := by
  cases p <;> decide

/-- The place of a property in the order. -/
def rank : Property → Nat
  | .allowBlank => 0
  | .readOnly => 1

end Property

/-! ## Constraints -/

/-- Whether a field may stay blank, and whether it is read-only. -/
structure Constraints where
  allowBlank : Bool
  readOnly : Bool
  deriving DecidableEq

namespace Constraints

/-- A field that may stay blank and can be edited. -/
def free : Constraints := ⟨true, false⟩

instance : Inhabited Constraints := ⟨free⟩

/-- The state of one property. -/
def get (c : Constraints) : Property → Bool
  | .allowBlank => c.allowBlank
  | .readOnly => c.readOnly

/-- The constraints with one property given. -/
def set (c : Constraints) (p : Property) (b : Bool) : Constraints :=
  match p with
  | .allowBlank => { c with allowBlank := b }
  | .readOnly => { c with readOnly := b }

/-- Whether the field must not stay blank. -/
def isRequired (c : Constraints) : Bool :=
  !c.allowBlank

@[simp] theorem get_set_self (c : Constraints) (p : Property) (b : Bool) :
    (c.set p b).get p = b := by
  cases p <;> rfl

theorem get_set_of_ne (c : Constraints) {p q : Property} (b : Bool) (h : p ≠ q) :
    (c.set p b).get q = c.get q := by
  cases p <;> cases q <;> simp_all [get, set]

theorem set_get_self (c : Constraints) (p : Property) : c.set p (c.get p) = c := by
  cases p <;> rfl

theorem ext_get {c d : Constraints} (h : ∀ p, c.get p = d.get p) : c = d := by
  cases c
  cases d
  simpa [get] using And.intro (h .allowBlank) (h .readOnly)

end Constraints

end FormConsole
