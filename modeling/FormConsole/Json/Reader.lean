import FormConsole.Json.Token

/-!
# Reading JSON

A JSON text is read token by token.  A reading is the stack of the arrays and objects that are open, and what
is due next; one token takes it to the next reading or is refused.

* `Reading.step`: one token.
* `Json.parse?`: the value of a text, or `none` if the text is no JSON.
-/

namespace FormConsole.Json

/-! ## Readings -/

/-- An open array or object.  What it already holds stands in reverse order; an open object also has the
name of the member whose value is due. -/
inductive Frame where
  | array (items : List Json)
  | member (members : List (Option String × Json)) (name : Option String)

/-- What is due next, and the frames that are open around it. -/
inductive Reading where
  /-- A value is due. -/
  | value (frames : List Frame)
  /-- An array was just opened: its first item or its end is due. -/
  | firstItem (frames : List Frame)
  /-- An object was just opened: its first name or its end is due. -/
  | firstName (frames : List Frame)
  /-- The name of a further member is due. -/
  | name (members : List (Option String × Json)) (frames : List Frame)
  /-- The colon after a name is due. -/
  | colon (members : List (Option String × Json)) (name : Option String) (frames : List Frame)
  /-- A value is complete: a separator or the end of the frame around it is due. -/
  | complete (value : Json) (frames : List Frame)

namespace Reading

/-- The reading after the first token of a value. -/
def begin (frames : List Frame) : Token → Option Reading
  | .leftBracket => some (.firstItem frames)
  | .leftBrace => some (.firstName frames)
  | .atom j => some (.complete j frames)
  | _ => none

/-- The reading after a token. -/
def step : Reading → Token → Option Reading
  | .value frames, t => begin frames t
  | .firstItem frames, .rightBracket => some (.complete (.array []) frames)
  | .firstItem frames, t => begin (.array [] :: frames) t
  | .firstName frames, .rightBrace => some (.complete (.object []) frames)
  | .firstName frames, .atom (.string k) => some (.colon [] k frames)
  | .name members frames, .atom (.string k) => some (.colon members k frames)
  | .colon members k frames, .colon => some (.value (.member members k :: frames))
  | .complete j (.array items :: frames), .comma => some (.value (.array (j :: items) :: frames))
  | .complete j (.array items :: frames), .rightBracket =>
    some (.complete (.array (j :: items).reverse) frames)
  | .complete j (.member members k :: frames), .comma => some (.name ((k, j) :: members) frames)
  | .complete j (.member members k :: frames), .rightBrace =>
    some (.complete (.object ((k, j) :: members).reverse) frames)
  | _, _ => none

/-- The reading after a list of tokens. -/
def run (r : Reading) (tokens : List Token) : Option Reading :=
  tokens.foldlM step r

@[simp] theorem run_nil (r : Reading) : r.run [] = some r := rfl

@[simp] theorem run_cons (r : Reading) (t : Token) (ts : List Token) :
    r.run (t :: ts) = (r.step t).bind (·.run ts) := rfl

theorem run_append (r : Reading) (ts us : List Token) :
    r.run (ts ++ us) = (r.run ts).bind (·.run us) := by
  simp [run, List.foldlM_append]

/-- The value of a reading in which nothing is due. -/
def result? : Reading → Option Json
  | .complete j [] => some j
  | _ => none

end Reading

/-! ## Texts -/

/-- The value of a JSON text. -/
def parse? (s : String) : Option Json := do
  let tokens ← Token.ofText? s
  let reading ← (Reading.value []).run tokens
  reading.result?

end FormConsole.Json
