import FormConsole.Panel.Setting

/-!
# The power schedule panel

A job that shuts the appliance down or reboots it at fixed times.  Each part of the time is one number or the wildcard
`*`; an interval of the part (every so many minutes) needs a number.
-/

namespace FormConsole.PowerSchedule

/-- The choice that stands for every number. -/
def wildcard : String := "*"

/-- The wildcard, and the numbers from `low` on, so many of them. -/
def numbers (low count : Nat) : List Choice :=
  .named wildcard :: (List.range' low count).map fun n => .named (toString n)

/-- The wildcard, and the names, which are stored as their numbers from one on. -/
def numbered (names : List String) : List Choice :=
  .named wildcard :: names.zipIdx.map fun n => .ofText n.1 (toString (n.2 + 1))

/-- The months, in order. -/
def months : List String :=
  ["January", "February", "March", "April", "May", "June", "July", "August", "September", "October",
    "November", "December"]

/-- The days of a week, in order. -/
def weekdays : List String :=
  ["Monday", "Tuesday", "Wednesday", "Thursday", "Friday", "Saturday", "Sunday"]

/-- The form of a scheduled job; a new one is due at the present minute. -/
def definition (s : Setting) : Definition where
  title := "Scheduled job"
  declarations :=
    [.checkbox "enable" "Enable" true,
      (Declaration.select "type" "Type" [.ofText "Shutdown" "shutdown", .ofText "Reboot" "reboot"]
        (.text "reboot")).required,
      (Declaration.select "minute" "Minute" (numbers 0 60)
        (.text (toString s.now.minute.val))).required,
      .checkbox "everynminute" "Every N minute" false,
      (Declaration.select "hour" "Hour" (numbers 0 24) (.text (toString s.now.hour.val))).required,
      .checkbox "everynhour" "Every N hour" false,
      (Declaration.select "dayofmonth" "Day of month" (numbers 1 31) (.text wildcard)).required,
      .checkbox "everyndayofmonth" "Every N day of month" false,
      (Declaration.select "month" "Month" (numbered months) (.text wildcard)).required,
      (Declaration.select "dayofweek" "Day of week" (numbered weekdays) (.text wildcard)).required,
      .text "comment" "Comment"]
  rules := []
  cascades := []
  checks :=
    { exclusions :=
        [.between "minute" "everynminute" (.text wildcard),
          .between "hour" "everynhour" (.text wildcard),
          .between "dayofmonth" "everyndayofmonth" (.text wildcard)]
      confirmations := [] }

end FormConsole.PowerSchedule
