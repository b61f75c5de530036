import FormConsole.Rule.Evaluation
import FormConsole.Cascade

/-!
# Propagation

A change of a value concerns the rules and the cascades that watch the field.  They react in passes: a pass takes
the changes that the pass before it made, lets the rules react and then the cascades, in order, and hands on what they
changed.  It ends when no value changed, at the latest after a given number of passes.

* `Wiring.react`: one pass.
* `Wiring.propagate`: the passes; `Wiring.propagate_zero`, `Wiring.propagate_of_quiet` say when they end.
* `Wiring.refresh`: everything reacts once, whatever changed, and the passes follow.
-/

namespace FormConsole

/-- Everything that reacts to changes of values. -/
structure Wiring where
  rules : RuleSet
  cascades : List Cascade

namespace Wiring

/-- The most passes that one call makes. -/
def maxPasses : Nat := 16

/-- The fields whose values changed. -/
def changedValues (changes : List Change) : List String :=
  (changes.filter fun c => c.kind == .value).map (·.field)

/-- The rules bring the constraints in line with the values. -/
def reactRules (w : Wiring) : Edit Unit := do
  let _ ← w.rules.evaluate

/-- One pass: the rules and the cascades that watch one of the fields react. -/
def react (w : Wiring) (changed : List String) : Edit Unit := do
  if changed.any w.rules.watches then w.reactRules
  (w.cascades.filter fun c => changed.any c.watches).forM Cascade.recompute

/-- At most that many passes, the first of which takes the given changes; answers with all changes. -/
def propagate (w : Wiring) : Nat → List Change → Edit (List Change)
  | 0, changes => pure changes
  | passes + 1, changes =>
    if (changedValues changes).isEmpty then
      pure changes
    else do
      w.react (changedValues changes)
      let next ← Edit.takeChanges
      let rest ← w.propagate passes next
      pure (changes ++ rest)

@[simp] theorem propagate_zero (w : Wiring) (changes : List Change) :
    w.propagate 0 changes = pure changes := rfl

/-- Nothing happens if no value changed. -/
theorem propagate_of_quiet (w : Wiring) (passes : Nat) {changes : List Change}
    (h : changedValues changes = []) : w.propagate passes changes = pure changes := by
  cases passes with
  | zero => rfl
  | succ n => simp [propagate, h]

/-- The passes that follow the changes made so far. -/
def settle (w : Wiring) : Edit (List Change) := do
  let changes ← Edit.takeChanges
  w.propagate maxPasses changes

/-- Everything reacts once to the current values, as if all of them had changed. -/
def reactAll (w : Wiring) : Edit Unit := do
  w.reactRules
  w.cascades.forM Cascade.recompute

/-- Everything reacts once, and the passes follow. -/
def refresh (w : Wiring) : Edit (List Change) := do
  w.reactAll
  w.settle

end Wiring

end FormConsole
