import FormConsole.Json.Printer
import FormConsole.Json.Reader
import FormConsole.Json.Record
import FormConsole.Panel.Kind
import FormConsole.Source.Contents

/-!
# Configuration

The settings of the console, each of which may be absent.  They are kept as a JSON document.

* `Config.load`: the settings of a file; an absent file has none.
* `Config.save`: the text that is written.
* `Config.fixturePath`, `Config.panel`, `Config.checksOnChange`: what applies, given the settings.
-/

namespace FormConsole

/-- The settings of the console. -/
structure Config where
  logFilter : Option String
  fixture : Option String
  initialPanel : Option String
  validateOnChange : Option Bool
  deriving DecidableEq

/-- Why a configuration is refused. -/
inductive ConfigError where
  /-- The file is there and cannot be read as text. -/
  | unreadable
  /-- The text is no well-formed configuration. -/
  | malformed
  deriving DecidableEq

namespace ConfigError

/-- The message of an error. -/
def message : ConfigError → String
  | .unreadable => "failed to read configuration"
  | .malformed => "invalid configuration"

end ConfigError

namespace Config

/-- The configuration without settings. -/
def none : Config := ⟨.none, .none, .none, .none⟩

instance : Inhabited Config := ⟨none⟩

/-! ## The document -/

section Document

/-- A setting that may be absent or `null`. -/
def setting? {α : Type} (read : Json → Option α) : Option Json → Option (Option α)
  | .none => some .none
  | some .null => some .none
  | some j => (read j).map some

/-- Whether nothing is left out, as it must be where the settings are written as an array. -/
def isComplete : Json → Bool
  | .array items => items.length == 4
  | _ => true

/-- The settings that are written. -/
def ofJson? (j : Json) : Option Config := do
  if isComplete j then
    match ← j.fields? ["log_filter", "fixture_path", "initial_panel", "validate_on_change"] with
    | [logFilter, fixture, initialPanel, validateOnChange] =>
      let logFilter ← setting? Json.text? logFilter
      let fixture ← setting? Json.text? fixture
      let initialPanel ← setting? Json.text? initialPanel
      let validateOnChange ← setting? Json.bool? validateOnChange
      pure ⟨logFilter, fixture, initialPanel, validateOnChange⟩
    | _ => Option.none
  else Option.none

/-- A setting as it is written. -/
def settingJson {α : Type} (write : α → Json) : Option α → Json
  | .none => .null
  | some a => write a

/-- The settings by name, in the order in which they are written. -/
def members (c : Config) : List (String × Json) :=
  [("log_filter", settingJson .text c.logFilter),
    ("fixture_path", settingJson .text c.fixture),
    ("initial_panel", settingJson .text c.initialPanel),
    ("validate_on_change", settingJson .bool c.validateOnChange)]

/-- The settings of a text. -/
def ofText (s : String) : Except ConfigError Config :=
  match (Json.parse? s).bind ofJson? with
  | .none => .error .malformed
  | some c => .ok c

/-- The settings of a file. -/
def load : Contents → Except ConfigError Config
  | .absent => .ok none
  | .unreadable => .error .unreadable
  | .bytes bytes =>
    match Contents.decode? bytes with
    | some s => ofText s
    | .none => .error .unreadable

/-- The text of the settings. -/
def save (c : Config) : String :=
  Json.renderRecord c.members

end Document

/-! ## What applies -/

section Effective

variable (c : Config)

/-- Which log messages are kept. -/
def logLevel : String :=
  c.logFilter.getD "nas_console=info"

/-- The path of the fixture: the one of the environment, unless it is empty, else the one of the settings, else
the usual one in the data directory. -/
def fixturePath (environment : Option String) (dataDir : String) : String :=
  match environment with
  | .none => c.fixture.getD (dataDir ++ "/fixtures.json")
  | some "" => c.fixture.getD (dataDir ++ "/fixtures.json")
  | some path => path

/-- The panel that is shown first; an unknown key counts as absent. -/
def panel : Panel :=
  (c.initialPanel.bind Panel.ofKey?).getD .first

/-- Whether the form is checked after every edit. -/
def checksOnChange : Bool :=
  c.validateOnChange.getD false

end Effective

end Config

end FormConsole
