import FormConsole.Panel.Setting

/-!
# Network interface panels

Ethernet, bond and VLAN interfaces share their address fields: an address can be edited, and is needed, only while its
method is static.  A bond has a primary slave in the modes that elect one.

* `Network.primaryChoices`: the choices for the primary slave, from the slaves and the mode.
* `Network.ethernet`, `Network.bond`, `Network.vlan`: the forms.
-/

namespace FormConsole

namespace Network

/-! ## What all interfaces share -/

section Generic

/-- The address methods, without and with the one that only exists for version 6. -/
def methods (v6 : Bool) : List Choice :=
  [.ofText "Disabled" "manual", .ofText "DHCP" "dhcp"] ++
    (if v6 then [.ofText "Auto" "auto"] else []) ++ [.ofText "Static" "static"]

/-- The fields of every interface, in the order in which they are shown. -/
def genericFields (s : Setting) : List Declaration :=
  [((Declaration.text "devicename" "Name").readOnly true).withDefault (.text s.devicename),
    .text "comment" "Comment",
    (Declaration.select "method" "Method" (methods false) (.text "manual")).required,
    (Declaration.text "address" "Address").readOnly true,
    (Declaration.text "netmask" "Netmask").readOnly true,
    (Declaration.text "gateway" "Gateway").readOnly true,
    (Declaration.select "method6" "Method (IPv6)" (methods true) (.text "manual")).required,
    (Declaration.text "address6" "Address (IPv6)").readOnly true,
    .number "netmask6" "Prefix length" 64,
    (Declaration.text "gateway6" "Gateway (IPv6)").readOnly true,
    (Declaration.text "dnsnameservers" "DNS servers").withInfo
      "The name servers are used to look up host names on the network.",
    .text "dnssearch" "Search domains",
    .text "mtu" "MTU",
    .checkbox "wol" "Wake-on-LAN" false,
    (Declaration.text "options" "Options").withInfo
      "Additional device settings, e.g. 'autoneg off speed 100 duplex full'."]

/-- The rules of every interface: what a static address needs can be edited. -/
def genericRules : RuleSet :=
  [(((Rule.on ["address", "netmask"]).when "method" (.text "static")).giving .mandatory).giving
      .editable,
    ((Rule.on ["gateway"]).when "method" (.text "static")).giving .editable,
    (((Rule.on ["address6", "netmask6"]).when "method6" (.text "static")).giving
      .mandatory).giving .editable,
    ((Rule.on ["gateway6"]).when "method6" (.text "static")).giving .editable]

end Generic

/-! ## Bonds -/

section Bond

/-- The bond modes with their numbers. -/
def bondModes : List Choice :=
  [⟨"balance-rr", .number 0⟩, ⟨"active-backup", .number 1⟩, ⟨"balance-xor", .number 2⟩,
    ⟨"broadcast", .number 3⟩, ⟨"802.3ad", .number 4⟩, ⟨"balance-tlb", .number 5⟩,
    ⟨"balance-alb", .number 6⟩]

/-- The bond modes that elect a primary slave. -/
def primaryModes : List Value :=
  [.number 1, .number 5, .number 6]

/-- The only choice where there is no primary slave. -/
def noPrimary : List Choice :=
  [.ofText "None" ""]

/-- The choices for the primary slave: the slaves, if the mode elects one. -/
def primaryChoices : List Value → List Choice
  | [slaves, mode] =>
    if primaryModes.contains mode then slaves.asList.map Choice.named else noPrimary
  | _ => noPrimary

/-- The cascade from slaves and mode to the primary slave. -/
def primaryCascade : Cascade :=
  ⟨["slaves", "bondmode"], "bondprimary", primaryChoices⟩

/-- The form of a bond. -/
def bond (s : Setting) : Definition where
  title := "Bond interface"
  declarations := genericFields s ++
    [(Declaration.multiSelect "slaves" "Slaves"
        (s.candidates.bondSlaves.map fun d => .ofText d.label d.devicename)).required,
      (Declaration.select "bondmode" "Mode" bondModes (.number 1)).required,
      (Declaration.select "bondprimary" "Primary" noPrimary (.text "")).withInfo
        "Specifies which slave is the primary device.",
      .number "bondmiimon" "MII monitoring frequency" 100,
      .number "bonddowndelay" "Down delay" 200,
      .number "bondupdelay" "Up delay" 200]
  rules := genericRules ++
    [((Rule.on ["bondprimary"]).whenAny "bondmode" primaryModes).giving .mandatory]
  cascades := [primaryCascade]
  checks := ⟨[], []⟩

end Bond

/-! ## Other interfaces -/

/-- The form of an ethernet interface. -/
def ethernet (s : Setting) : Definition where
  title := "Ethernet interface"
  declarations := genericFields s
  rules := genericRules
  cascades := []
  checks := ⟨[], []⟩

/-- The form of a VLAN interface, whose parent and number are fixed once it is stored. -/
def vlan (s : Setting) : Definition where
  title := "VLAN interface"
  declarations := genericFields s ++
    [((Declaration.select "vlanrawdevice" "Parent interface"
        (s.candidates.vlanDevices.map Choice.named) (.text "")).required).readOnly s.editing,
      ((Declaration.number "vlanid" "VLAN id" 1).readOnly s.editing).withInfo
        "Valid range is 1 to 4095."]
  rules := genericRules
  cascades := []
  checks := ⟨[], []⟩

end Network

end FormConsole
