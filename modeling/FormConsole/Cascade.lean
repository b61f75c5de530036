import FormConsole.Field.Edit

/-!
# Cascades

A cascade computes the choices of one field, its dependent, from the values of other fields, its drivers.

* `Cascade.check`: refuses a cascade that mentions an undeclared field.
* `Cascade.recompute`: replaces the choices of the dependent; its value stays if it is still offered and is
  cleared otherwise.
-/

namespace FormConsole

/-- A field whose choices depend on the values of other fields. -/
structure Cascade where
  drivers : List String
  dependent : String
  /-- The choices, given the values of the drivers in order. -/
  compute : List Value → List Choice

namespace Cascade

/-- Refuses a cascade that mentions an undeclared field: its dependent first, then its drivers. -/
def check (c : Cascade) (t : FieldTable) : Except FormError Unit :=
  (c.dependent :: c.drivers).forM fun name => t.require name (.cascade c.dependent)

/-- The value that is left of one when the field offers these choices. -/
def surviving (choices : List Choice) (v : Value) : Value :=
  if Choice.offers choices v then v else v.cleared

/-- Gives the dependent the choices for the current values of the drivers, and the value that is left. -/
def recompute (c : Cascade) : Edit Unit := do
  let drivers ← Edit.ask fun t => c.drivers.mapM t.valueOf
  let prior ← Edit.ask fun t => t.valueOf c.dependent
  let choices := c.compute drivers
  let _ ← Edit.replaceChoices c.dependent choices
  let _ ← Edit.setValue c.dependent (surviving choices prior)

/-- Whether a change of that field concerns the cascade. -/
def watches (c : Cascade) (field : String) : Bool :=
  c.drivers.contains field

end Cascade

end FormConsole
