import FormConsole.Form.Call
import FormConsole.Main
import FormConsole.Rule.Coding
import FormConsole.Proofs.Field.Edit
import FormConsole.Proofs.Rule.Conflict
import FormConsole.Proofs.Rule.Exactness
import FormConsole.Proofs.Rule.Evaluation
import FormConsole.Proofs.Rule.Agreement
import FormConsole.Proofs.Rule.Meaning
import FormConsole.Proofs.Rule.Order
import FormConsole.Proofs.Cascade
import FormConsole.Proofs.Form.Propagation
import FormConsole.Proofs.Form.Call
import FormConsole.Proofs.Form.Selection
import FormConsole.Proofs.Form.Override
import FormConsole.Proofs.Form.Consistency
import FormConsole.Proofs.Form.Dependency
import FormConsole.Proofs.Form.FixedPoint
import FormConsole.Proofs.Form.Continuity
import FormConsole.Proofs.Form.Order
import FormConsole.Proofs.Form.Termination
import FormConsole.Proofs.Form.Use
import FormConsole.Proofs.Form.Acceptance
import FormConsole.Proofs.Form.ChangeSet
import FormConsole.Proofs.Form.Reach
import FormConsole.Proofs.Form.Independence
import FormConsole.Proofs.Form.Reload
import FormConsole.Proofs.Panel.Definition
import FormConsole.Proofs.Form.Snapshot
import FormConsole.Proofs.Console.Press
import FormConsole.Proofs.Console.State
import FormConsole.Proofs.Console.Needed
import FormConsole.Proofs.Console.ReadOnly
import FormConsole.Proofs.Console.Saving
import FormConsole.Proofs.Form.Persistence
import FormConsole.Proofs.Console.Bond
import FormConsole.Proofs.Console.Shape
import FormConsole.Proofs.Form.Marks
import FormConsole.Proofs.Console.Opening
import FormConsole.Proofs.Console.Marks
import FormConsole.Proofs.Json.Token
import FormConsole.Proofs.Json.RoundTrip
import FormConsole.Proofs.Rule.Coding
import FormConsole.Proofs.Config
import FormConsole.Proofs.Value.Editing
import FormConsole.Proofs.Value.Toggling
import FormConsole.Proofs.Form.Validation
import FormConsole.Proofs.Console.Switching
import FormConsole.Proofs.Console.Cursor
import FormConsole.Proofs.Console.Cycling
