import FormConsole.Console
import FormConsole.Screen.Picture

/-!
# The screen

How the console is shown: the list of panels on the left, one page of the form of the open panel on the right, and a
status bar below.

* `Screen.picture`: the picture of a console on a screen of a given size.
-/

namespace FormConsole.Screen

/-! ## Measures -/

section Measures

/-- The width of the list of panels. -/
def sidebarWidth : Nat := 22

/-- The height of a box with one line of text. -/
def boxHeight : Nat := 3

/-- The first row of the list of panels, which stands in the middle above the status bar. -/
def sidebarTop (height : Nat) : Nat :=
  (height - boxHeight * Panel.all.length) / 2

/-- How many fields one page shows. -/
def pageSize (height : Nat) : Nat :=
  max 1 ((height - 3) / boxHeight)

/-- The position of the first field of the page on which the active one stands. -/
def pageStart (height active : Nat) : Nat :=
  active / pageSize height * pageSize height

end Measures

/-! ## The list of panels -/

section Sidebar

/-- One entry of the list. -/
def drawEntry (c : Console) (p : Picture) (top : Nat) (number : Nat) (panel : Panel) : Picture :=
  let area : Area := ⟨0, top, sidebarWidth, boxHeight⟩
  let selected := panel == c.panel
  let mark := if selected && c.form.isDirty then "*" else ""
  let text := " " ++ toString number ++ " " ++ panel.label ++ mark ++ " "
  let border := Style.colored (if selected then .cyan else .darkGray)
  let painted := if selected then p.paint area { Style.colored .cyan with bold := true } else p
  (painted.frame area border).write 1 (top + 1) area.innerWidth (styled text .plain)

/-- All entries of the list. -/
def drawSidebar (c : Console) (height : Nat) (p : Picture) : Picture :=
  Panel.all.zipIdx.foldl
    (fun p e => drawEntry c p (sidebarTop height + boxHeight * e.2) (e.2 + 1) e.1) p

end Sidebar

/-! ## The form -/

section Fields

/-- The title of a field: its label, and whether it is required and read-only. -/
def fieldTitle (f : Field) : String :=
  " " ++ f.decl.label ++ (if f.effective.isRequired then " *" else "") ++
    (if f.effective.readOnly then " (read-only)" else "") ++ " "

/-- The choices of a multi-select, each with a tick box; the one at the cursor stands out. -/
def choicesText (f : Field) (active : Bool) (cursor : Nat) : StyledText :=
  if f.choices.isEmpty then styled "(no candidates)" (.colored .darkGray)
  else
    f.choices.zipIdx.flatMap fun c =>
      let mark := if f.value.asList.contains c.1.value.asText then "[x] " else "[ ] "
      let style :=
        if active && c.2 == cursor then { Style.colored .cyan with reversed := true } else .plain
      styled (mark ++ c.1.label) style ++ styled "  " .plain

/-- The value of a field, with the input mark if it can be edited now. -/
def valueText (f : Field) (active : Bool) : StyledText :=
  let style :=
    if f.effective.readOnly then .colored .darkGray
    else if active then .colored .cyan
    else .plain
  let shown := if f.display = "" ∧ ¬ active then "(empty)" else f.display
  let mark := if active && !f.effective.readOnly then "▌" else ""
  styled shown style ++ styled mark (.colored .cyan)

/-- The content of the box of a field. -/
def fieldText (f : Field) (active : Bool) (cursor : Nat) : StyledText :=
  match f.decl.kind with
  | .multiSelect => choicesText f active cursor
  | _ => valueText f active

/-- The colour of the border of a field. -/
def borderColor (f : Field) (active : Bool) : Color :=
  if f.violation.isSome then .red else if active then .cyan else .darkGray

/-- The box of a field, with the message of its violation on the lower edge. -/
def drawField (f : Field) (active : Bool) (cursor : Nat) (area : Area) (p : Picture) : Picture :=
  let framed := p.titledFrame area (.colored (borderColor f active)) (fieldTitle f)
  let marked :=
    match f.violation with
    | some message =>
      framed.write (area.left + 1) (area.top + area.height - 1) area.innerWidth
        (styled (" " ++ message ++ " ") (.colored .red))
    | none => framed
  marked.write (area.left + 1) (area.top + 1) area.innerWidth (fieldText f active cursor)

/-- The page of the form on which the active field stands. -/
def drawForm (c : Console) (width height : Nat) (p : Picture) : Picture :=
  let mark := if c.form.isDirty then " (modified)" else ""
  let outer : Area := ⟨sidebarWidth, 0, width - sidebarWidth, height - 1⟩
  let start := pageStart height c.form.active
  let page := (c.form.fields.drop start).take (pageSize height)
  page.zipIdx.foldl
    (fun p e =>
      drawField e.1 (start + e.2 == c.form.active) c.cursor
        ⟨sidebarWidth + 1, 1 + boxHeight * e.2, outer.innerWidth, boxHeight⟩ p)
    (p.titledFrame outer (.colored .cyan) (" " ++ c.form.title ++ mark ++ " "))

end Fields

/-! ## The status bar -/

section StatusBar

/-- Which keys edit a field of that kind. -/
def hint : Option Kind → String
  | some .checkbox => "Tab:next  Space:toggle  ^S:save  ^R:reset  F2/F3:panel"
  | some .select => "Tab:next  ←/→:choose  ^S:save  ^R:reset  F2/F3:panel"
  | some .multiSelect => "Tab:next  ←/→:move  Space:pick  ^S:save  ^R:reset  F2/F3:panel"
  | some _ => "Tab:next  type to edit  ^S:save  ^R:reset  F2/F3:panel"
  | none => "F2/F3:panel"

/-- The feedback of the console, or else the help text of the active field. -/
def remark (c : Console) : StyledText :=
  match c.status, c.form.activeField?.bind fun f => f.decl.info with
  | some status, _ =>
    styled " | " .plain ++
      styled status.text (.colored (if c.violations.isEmpty then .green else .red))
  | none, some info => styled " | " .plain ++ styled info (.colored .blue)
  | none, none => []

/-- The reminder at the right end of the status bar. -/
def quitHint : String := " Esc:quit "

/-- The status bar. -/
def drawStatusBar (c : Console) (width height : Nat) (p : Picture) : Picture :=
  let row := height - 1
  let text :=
    styled " " .plain ++
      styled (hint (c.form.activeField?.map fun f => f.decl.kind)) (.colored .gray) ++ remark c
  let left := width - quitHint.length
  ((p.paint ⟨0, row, width, 1⟩ ⟨none, some .darkGray, false, false⟩).write 0 row width text).write
    left row (width - left) (styled quitHint ⟨some .gray, some .darkGray, false, false⟩)

end StatusBar

/-- The picture of a console. -/
def picture (c : Console) (width height : Nat) : Picture :=
  drawStatusBar c width height (drawForm c width height (drawSidebar c height .empty))

end FormConsole.Screen
