/-!
# Panels

The panels of the console, each of which shows one form.

* `Panel.key`, `Panel.ofKey?`: the names that stored objects and the configuration use; `Panel.ofKey?_key`.
* `Panel.next`, `Panel.prev`: the round through all panels; `Panel.prev_next`, `Panel.next_prev`.
-/

namespace FormConsole

/-- The kinds of network interface. -/
inductive Interface where
  | ethernet
  | bond
  | vlan
  deriving DecidableEq

/-- The panels of the console. -/
inductive Panel where
  | interface (kind : Interface)
  | powerSchedule
  | notification
  | user
  deriving DecidableEq

namespace Panel

/-- All panels, in the order in which they are listed. -/
def all : List Panel :=
  [.interface .ethernet, .interface .bond, .interface .vlan, .powerSchedule, .notification, .user]

/-- The panel that is shown if no other is asked for. -/
def first : Panel := .interface .ethernet

instance : Inhabited Panel := ⟨first⟩

/-- The name under which a panel is stored. -/
def key : Panel → String
  | .interface .ethernet => "ethernet"
  | .interface .bond => "bond"
  | .interface .vlan => "vlan"
  | .powerSchedule => "powerschedule"
  | .notification => "notification"
  | .user => "user"

/-- The name under which a panel is shown. -/
def label : Panel → String
  | .interface .ethernet => "Ethernet"
  | .interface .bond => "Bond"
  | .interface .vlan => "VLAN"
  | .powerSchedule => "Power schedule"
  | .notification => "Notification"
  | .user => "User"

/-- The panel of that key. -/
def ofKey? (key : String) : Option Panel :=
  all.find? fun p => p.key == key

/-- The panel that follows in the list; after the last comes the first. -/
def next : Panel → Panel
  | .interface .ethernet => .interface .bond
  | .interface .bond => .interface .vlan
  | .interface .vlan => .powerSchedule
  | .powerSchedule => .notification
  | .notification => .user
  | .user => .interface .ethernet

/-- The panel before in the list; before the first comes the last. -/
def prev : Panel → Panel
  | .interface .ethernet => .user
  | .interface .bond => .interface .ethernet
  | .interface .vlan => .interface .bond
  | .powerSchedule => .interface .vlan
  | .notification => .powerSchedule
  | .user => .notification

/-- The kind of network interface that a panel edits. -/
def interface? : Panel → Option Interface
  | .interface kind => some kind
  | _ => none

@[simp] theorem ofKey?_key (p : Panel) : ofKey? p.key = some p := by
  rcases p with (_ | _ | _) | _ | _ | _ <;> decide

@[simp] theorem prev_next (p : Panel) : p.next.prev = p := by
  rcases p with (_ | _ | _) | _ | _ | _ <;> rfl

@[simp] theorem next_prev (p : Panel) : p.prev.next = p := by
  rcases p with (_ | _ | _) | _ | _ | _ <;> rfl

end Panel

end FormConsole
