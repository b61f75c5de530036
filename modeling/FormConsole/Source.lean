import FormConsole.Source.Fixture

/-!
# The data layer

What the data layer answers when a panel is opened.  Each of its calls may fail on its own.

* `Source.ofFixture`: the data layer that answers from a fixture.
* `Source.fetchCandidates`: all candidates, or the first failure.
* `Source.openPanel`: the form of a panel, filled with its stored object if there is one.
-/

namespace FormConsole

/-- The answers of the data layer. -/
structure Source where
  bondSlaves : Except SourceError (List NetworkDevice)
  vlanDevices : Except SourceError (List String)
  shells : Except SourceError (List String)
  groups : Except SourceError (List String)
  /-- The stored object of a panel, if there is one. -/
  stored : Panel → Except SourceError (Option StoredObject)

namespace Source

/-- The data layer that answers from a fixture. -/
def ofFixture (f : Fixture) : Source where
  bondSlaves := .ok f.candidates.bondSlaves
  vlanDevices := .ok f.candidates.vlanDevices
  shells := .ok f.candidates.shells
  groups := .ok f.candidates.groups
  stored p := .ok (f.objects.get? p.key)

variable (s : Source)

/-- All candidates. -/
def fetchCandidates : Except SourceError Candidates := do
  let bondSlaves ← s.bondSlaves
  let vlanDevices ← s.vlanDevices
  let shells ← s.shells
  let groups ← s.groups
  pure ⟨bondSlaves, vlanDevices, shells, groups⟩

/-- The setting of a panel whose stored object, if any, is given. -/
def setting (candidates : Candidates) (stored : Option StoredObject) (now : TimeOfDay) : Setting where
  editing := stored.isSome
  devicename := ((stored.bind fun o => o.values.get? "devicename").map Value.asText).getD ""
  candidates := candidates
  now := now

/-- The form of a definition, filled with a stored object if there is one. -/
def openForm (d : Definition) (stored : Option StoredObject) : Except FormError Form := do
  let form ← Form.build d
  match stored with
  | none => pure form
  | some o =>
    match form.load o.values with
    | (form, .ok _) => pure form
    | (_, .error e) => throw e

/-- The form of a panel. -/
def openPanel (now : TimeOfDay) (p : Panel) : Except SourceError Form := do
  let candidates ← s.fetchCandidates
  let stored ← s.stored p
  (openForm (p.definition (setting candidates stored now)) stored).mapError SourceError.form

end Source

end FormConsole
