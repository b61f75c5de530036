import FormConsole.Panel.Kind
import FormConsole.Panel.Network
import FormConsole.Panel.PowerSchedule
import FormConsole.Panel.Notification
import FormConsole.Panel.Account

/-!
# The form of each panel
-/

namespace FormConsole.Panel

/-- The form that a panel shows in a setting. -/
def definition (s : Setting) : Panel → Definition
  | .interface .ethernet => Network.ethernet s
  | .interface .bond => Network.bond s
  | .interface .vlan => Network.vlan s
  | .powerSchedule => PowerSchedule.definition s
  | .notification => Notification.definition
  | .user => Account.definition s

end FormConsole.Panel
