import FormConsole.Form

/-!
# What a panel depends on

A panel is defined for a setting: what the data layer offers as choices, whether a stored object is edited and
under which device name, and the time of day.
-/

namespace FormConsole

/-- A network device that a bond can take in. -/
structure NetworkDevice where
  devicename : String
  /-- The hardware address, if it is known. -/
  ether : String
  deriving DecidableEq

namespace NetworkDevice

/-- The device as it is shown: its name, and its hardware address in brackets if it is known. -/
def label (d : NetworkDevice) : String :=
  if d.ether = "" then d.devicename else d.devicename ++ " (" ++ d.ether ++ ")"

end NetworkDevice

/-- What the data layer offers as choices. -/
structure Candidates where
  bondSlaves : List NetworkDevice
  vlanDevices : List String
  shells : List String
  groups : List String
  deriving DecidableEq

namespace Candidates

/-- Nothing to choose from. -/
def none : Candidates := ⟨[], [], [], []⟩

end Candidates

/-- A time of day, to the minute. -/
structure TimeOfDay where
  hour : Fin 24
  minute : Fin 60
  deriving DecidableEq

/-- What a panel depends on. -/
structure Setting where
  /-- Whether a stored object is edited, not a new one made. -/
  editing : Bool
  devicename : String
  candidates : Candidates
  now : TimeOfDay
  deriving DecidableEq

end FormConsole
