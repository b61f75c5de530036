import FormConsole.Panel
import FormConsole.Json.Reader
import FormConsole.Json.Record
import FormConsole.Source.Contents
import FormConsole.Source.Uuid
import FormConsole.Value.Coding

/-!
# Stored data

The data that the console is filled from: the candidates that panels offer as choices, and the stored objects that
panels edit.  It is read from a JSON document, in which everything but the UUID of an object may be left out.  If there is no
document, a small sample is used.

* `Fixture.ofJson?`, `Fixture.toJson`: the document.
* `Fixture.load`: the data of a file, or why there is none.
-/

namespace FormConsole

/-! ## Errors -/

/-- Why data is refused. -/
inductive SourceError where
  /-- A file is there and cannot be read as text. -/
  | unreadable
  /-- A document is no well-formed fixture. -/
  | malformed
  /-- An object is stored under a key that no panel has. -/
  | unknownPanel (key : String)
  /-- The form of a panel is refused. -/
  | form (error : FormError)
  deriving DecidableEq

namespace SourceError

/-- The message of an error. -/
def message : SourceError → String
  | .unreadable => "failed to read fixture"
  | .malformed => "invalid fixture"
  | .unknownPanel key => "unknown panel '" ++ key ++ "' in stored objects"
  | .form error => error.message

end SourceError

/-! ## Candidates -/

namespace NetworkDevice

/-- The device that is written. -/
def ofJson? (j : Json) : Option NetworkDevice := do
  match ← j.fields? ["devicename", "ether"] with
  | [devicename, ether] =>
    let devicename ← Json.required? Json.text? devicename
    let ether ← Json.default? Json.text? "" ether
    pure ⟨devicename, ether⟩
  | _ => none

/-- A device as it is written. -/
def toJson (d : NetworkDevice) : Json :=
  .record [("devicename", .text d.devicename), ("ether", .text d.ether)]

end NetworkDevice

namespace Candidates

/-- The candidates that are written; a list that is left out is empty. -/
def ofJson? (j : Json) : Option Candidates := do
  match ← j.fields? ["bond_slaves", "vlan_devices", "shells", "groups"] with
  | [bondSlaves, vlanDevices, shells, groups] =>
    let bondSlaves ← Json.default? (Json.list? NetworkDevice.ofJson?) [] bondSlaves
    let vlanDevices ← Json.default? (Json.list? Json.text?) [] vlanDevices
    let shells ← Json.default? (Json.list? Json.text?) [] shells
    let groups ← Json.default? (Json.list? Json.text?) [] groups
    pure ⟨bondSlaves, vlanDevices, shells, groups⟩
  | _ => Option.none

/-- Candidates as they are written. -/
def toJson (c : Candidates) : Json :=
  .record [("bond_slaves", .array (c.bondSlaves.map NetworkDevice.toJson)),
    ("vlan_devices", .array (c.vlanDevices.map .text)),
    ("shells", .array (c.shells.map .text)),
    ("groups", .array (c.groups.map .text))]

end Candidates

/-! ## Stored objects -/

/-- An object that a panel edits: its identifier, and its values by field name. -/
structure StoredObject where
  uuid : Uuid
  values : NameMap Value
  deriving DecidableEq

namespace StoredObject

/-- The object that is written. -/
def ofJson? (j : Json) : Option StoredObject := do
  match ← j.fields? ["uuid", "values"] with
  | [uuid, values] =>
    let uuid ← Json.required? (fun j => j.text?.bind Uuid.ofText?) uuid
    let values ← Json.default? (Json.map? Value.ofJson?) [] values
    pure ⟨uuid, NameMap.ofList values⟩
  | _ => none

/-- An object as it is written. -/
def toJson (o : StoredObject) : Json :=
  .record [("uuid", .text o.uuid.toText),
    ("values", .record (o.values.entries.map fun e => (e.1, e.2.toJson)))]

end StoredObject

/-! ## Fixtures -/

/-- The data that the console is filled from. -/
structure Fixture where
  candidates : Candidates
  /-- The stored objects, by the key of their panel. -/
  objects : NameMap StoredObject
  deriving DecidableEq

namespace Fixture

/-- The data that is written. -/
def ofJson? (j : Json) : Option Fixture := do
  match ← j.fields? ["candidates", "objects"] with
  | [candidates, objects] =>
    let candidates ← Json.default? Candidates.ofJson? .none candidates
    let objects ← Json.default? (Json.map? StoredObject.ofJson?) [] objects
    pure ⟨candidates, NameMap.ofList objects⟩
  | _ => none

/-- Data as it is written. -/
def toJson (f : Fixture) : Json :=
  .record [("candidates", f.candidates.toJson),
    ("objects", .record (f.objects.entries.map fun e => (e.1, e.2.toJson)))]

/-- The first stored key that no panel has. -/
def unknownKey? (f : Fixture) : Option String :=
  f.objects.names.find? fun key => (Panel.ofKey? key).isNone

/-- The data of a document. -/
def ofText (s : String) : Except SourceError Fixture :=
  match (Json.parse? s).bind ofJson? with
  | none => .error .malformed
  | some f =>
    match f.unknownKey? with
    | some key => .error (.unknownPanel key)
    | none => .ok f

/-- The data that is used if there is no document. -/
def sample : Fixture where
  candidates :=
    { bondSlaves :=
        [⟨"eth1", "52:54:00:12:34:01"⟩, ⟨"eth2", "52:54:00:12:34:02"⟩,
          ⟨"eth3", "52:54:00:12:34:03"⟩]
      vlanDevices := ["eth0", "bond0"]
      shells := ["/bin/sh", "/bin/bash", "/bin/dash", "/usr/sbin/nologin"]
      groups := ["users", "ssh", "sambashare"] }
  objects := NameMap.ofList
    [("bond",
        { uuid := ⟨0x5c2c6f0e3a5e4d8a9b1f0d6e2f4a7c11#128⟩
          values := NameMap.ofList
            [("devicename", .text "bond0"), ("method", .text "static"),
              ("address", .text "192.168.1.10"), ("netmask", .text "255.255.255.0"),
              ("slaves", .list ["eth1", "eth2"]), ("bondmode", .number 1),
              ("bondprimary", .text "eth2")] }),
      ("notification",
        { uuid := ⟨0x8d0e41a277c34b55a0e419f26c3bd902#128⟩
          values := NameMap.ofList
            [("enable", .bool true), ("server", .text "smtp.example.com"),
              ("sender", .text "nas@example.com"), ("primaryemail", .text "admin@example.com")] })]

/-- The data of a file. -/
def load : Contents → Except SourceError Fixture
  | .absent => .ok sample
  | .unreadable => .error .unreadable
  | .bytes bytes =>
    match Contents.decode? bytes with
    | some s => ofText s
    | none => .error .unreadable

end Fixture

end FormConsole
