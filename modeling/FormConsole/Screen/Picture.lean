/-!
# Pictures

A picture of a text screen gives the cell at each column and row.  It is made by laying things over an empty one:
areas are painted, texts are written, boxes are drawn.  What is laid over a cell replaces its character, if it has one, and
those parts of its style that it gives.

* `Picture.paint`, `Picture.write`, `Picture.frame`: the three ways to lay something over a picture.
* `Picture.cell_paint`, `Picture.cell_write`: what a cell shows afterwards.
-/

namespace FormConsole

/-- The colours in use. -/
inductive Color where
  | cyan
  | darkGray
  | gray
  | green
  | red
  | blue
  deriving DecidableEq

/-- A style: a colour that is not given is the default of the screen. -/
structure Style where
  foreground : Option Color
  background : Option Color
  bold : Bool
  reversed : Bool
  deriving DecidableEq

namespace Style

/-- The default style of the screen. -/
def plain : Style := ⟨none, none, false, false⟩

/-- A foreground colour. -/
def colored (c : Color) : Style := ⟨some c, none, false, false⟩

/-- One style over another: what the upper one does not give shows through. -/
def atop (upper lower : Style) : Style where
  foreground := upper.foreground.or lower.foreground
  background := upper.background.or lower.background
  bold := upper.bold || lower.bold
  reversed := upper.reversed || lower.reversed

@[simp] theorem plain_atop (s : Style) : plain.atop s = s := by
  simp [plain, atop]

end Style

/-- A cell of the screen. -/
structure Cell where
  char : Char
  style : Style
  deriving DecidableEq

/-- A text, each character with its style. -/
abbrev StyledText := List Cell

/-- A text in one style. -/
def styled (s : String) (style : Style) : StyledText :=
  s.toList.map fun c => ⟨c, style⟩

/-- A rectangle of the screen. -/
structure Area where
  left : Nat
  top : Nat
  width : Nat
  height : Nat
  deriving DecidableEq

namespace Area

variable (a : Area)

/-- Whether a cell lies in the area. -/
def contains (column row : Nat) : Bool :=
  decide (a.left ≤ column ∧ column < a.left + a.width ∧ a.top ≤ row ∧ row < a.top + a.height)

/-- Whether a cell of the area lies on its edge. -/
def onEdge (column row : Nat) : Bool :=
  a.contains column row && (column == a.left || column + 1 == a.left + a.width || row == a.top ||
    row + 1 == a.top + a.height)

/-- The line that a frame has in a cell on the edge. -/
def edgeChar (column row : Nat) : Char :=
  if row = a.top then
    if column = a.left then '┌' else if column + 1 = a.left + a.width then '┐' else '─'
  else if row + 1 = a.top + a.height then
    if column = a.left then '└' else if column + 1 = a.left + a.width then '┘' else '─'
  else '│'

/-- How many characters fit between the left and the right edge. -/
def innerWidth : Nat :=
  a.width - 2

end Area

/-- A picture: the cell at each column and row. -/
structure Picture where
  cell : Nat → Nat → Cell

namespace Picture

/-- The empty picture. -/
def empty : Picture := ⟨fun _ _ => ⟨' ', .plain⟩⟩

/-- A style over all cells of an area. -/
def paint (p : Picture) (a : Area) (s : Style) : Picture :=
  ⟨fun column row =>
    let below := p.cell column row
    if a.contains column row then { below with style := s.atop below.style } else below⟩

/-- A text from a cell to the right, cut after a number of characters. -/
def write (p : Picture) (left row limit : Nat) (text : StyledText) : Picture :=
  let shown := (text.take limit).toArray
  ⟨fun column r =>
    let below := p.cell column r
    if r = row ∧ left ≤ column then
      match shown[column - left]? with
      | some c => ⟨c.char, c.style.atop below.style⟩
      | none => below
    else below⟩

/-- A frame along the edge of an area. -/
def frame (p : Picture) (a : Area) (s : Style) : Picture :=
  ⟨fun column row =>
    let below := p.cell column row
    if a.onEdge column row then ⟨a.edgeChar column row, s.atop below.style⟩ else below⟩

/-- A frame with a title on its upper edge. -/
def titledFrame (p : Picture) (a : Area) (s : Style) (title : String) : Picture :=
  (p.frame a s).write (a.left + 1) a.top a.innerWidth (styled title .plain)

/-- The cells of a row, so many of them. -/
def rowCells (p : Picture) (width row : Nat) : List Cell :=
  (List.range width).map fun column => p.cell column row

theorem cell_paint (p : Picture) (a : Area) (s : Style) (column row : Nat) :
    (p.paint a s).cell column row =
      if a.contains column row then
        { p.cell column row with style := s.atop (p.cell column row).style }
      else p.cell column row := rfl

theorem cell_write (p : Picture) (left row limit : Nat) (text : StyledText) (column r : Nat) :
    (p.write left row limit text).cell column r =
      if r = row ∧ left ≤ column then
        match (text.take limit)[column - left]? with
        | some c => ⟨c.char, c.style.atop (p.cell column r).style⟩
        | none => p.cell column r
      else p.cell column r := by
  simp [write]

end Picture

end FormConsole
