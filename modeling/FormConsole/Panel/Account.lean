import FormConsole.Panel.Setting

/-!
# The user panel

An account of the appliance.  A new one needs a password; a stored one keeps its name, and its password unless a new
one is entered.
-/

namespace FormConsole.Account

/-- The shell of a new account. -/
def defaultShell : String := "/bin/dash"

/-- The form of an account. -/
def definition (s : Setting) : Definition where
  title := "User"
  declarations :=
    [((Declaration.text "name" "Name").required).readOnly s.editing,
      .text "comment" "Comment",
      .text "email" "Email",
      (Declaration.password "password" "Password").allowBlank s.editing,
      (Declaration.password "passwordconf" "Confirm password").allowBlank s.editing,
      (Declaration.select "shell" "Shell" (s.candidates.shells.map Choice.named)
        (.text defaultShell)).required,
      .multiSelect "groups" "Groups" (s.candidates.groups.map Choice.named),
      (Declaration.checkbox "disallowusermod" "Modify account" false).withInfo
        "Disallow the user to modify their account."]
  rules := []
  cascades := []
  checks :=
    { exclusions := []
      confirmations := [⟨"password", "passwordconf", "Passwords don't match"⟩] }

end FormConsole.Account
