import FormConsole.Panel.Setting

/-!
# The notification panel

Where the appliance sends its mails.  The server and the addresses are needed while notification is on; the user name
and the password can be edited while the server asks for them, and are needed while both are the case.
-/

namespace FormConsole.Notification

/-- The form of the mail notification. -/
def definition : Definition where
  title := "Mail notification"
  declarations :=
    [.checkbox "enable" "Enable" false,
      .text "server" "SMTP server",
      (Declaration.number "port" "SMTP port" 25).required,
      .checkbox "tls" "Use SSL/TLS secure connection" false,
      .text "sender" "Sender",
      .checkbox "authenable" "Authentication required" false,
      (Declaration.text "username" "Username").readOnly true,
      (Declaration.password "password" "Password").readOnly true,
      .text "primaryemail" "Primary email",
      .text "secondaryemail" "Secondary email"]
  rules :=
    [((Rule.on ["server", "sender", "primaryemail"]).when "enable" (.bool true)).giving .mandatory,
      ((Rule.on ["username", "password"]).when "authenable" (.bool true)).giving .editable,
      (((Rule.on ["username", "password"]).when "enable" (.bool true)).when "authenable"
        (.bool true)).giving .mandatory]
  cascades := []
  checks := ⟨[], []⟩

end FormConsole.Notification
