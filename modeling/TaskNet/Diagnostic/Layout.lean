import TaskNet.Fault
import TaskNet.Number.Integer64
import TaskNet.Text.ControlSequence

/-!
Layout of diagnostics for people: a header, the location, and the source lines around it with a
caret under the column. The text is laid out with colours; without colours every control sequence is
stripped from it, those of the source lines included.
-/

namespace TaskNet

/-- How diagnostics are laid out. -/
structure Layout where
  /-- The text the locations point into. Without it only the header lines are written. -/
  source : Text.Bytes
  /-- Whether colours are kept. -/
  color : Bool
  /-- The number of lines shown around the line of a diagnostic. -/
  context : Int

namespace Layout

/-- Colour attributes around a text, as a terminal control sequence. -/
def styled (attributes text : String) : Text.Bytes :=
  27 :: Text.bytesOf ("[" ++ attributes ++ "m" ++ text) ++ 27 :: Text.bytesOf "[m"

/-- The attributes of the word `error` and of the caret. -/
def alarm : String := "1;38;5;196"

/-- The attributes of the code of a problem. -/
def subdued : String := "38;5;241"

/-- The attributes of the arrow before a location. -/
def pointer : String := "38;5;63"

/-- The attributes of the column of line numbers. -/
def gutter : String := "1;38;5;63"

def lines (source : Text.Bytes) : List Text.Bytes :=
  Text.splitOn 10 source

def aligned (width n : Nat) : String :=
  let digits := toString n
  String.ofList (List.replicate (width - digits.length) ' ') ++ digits

def blankGutter (width : Nat) : Text.Bytes :=
  styled gutter (" " ++ String.ofList (List.replicate width ' ') ++ " |")

/-- The greatest number of spaces that a line can start with. -/
def maxIndent : Nat := 281474976710656

def caretLine (width : Nat) (column : Int) : Except Fault Text.Bytes :=
  let indent := (Number.wrap64 (column - 1)).toNat
  if maxIndent < indent then .error .textTooLong
  else .ok (blankGutter width ++ [32] ++ Text.spaces indent ++ styled alarm "^" ++ [10])

/-- One source line, followed by the line of the caret when it is the line of the diagnostic. -/
def sourceLine (width : Nat) (loc : Location) (number : Nat) (line : Text.Bytes) :
    Except Fault Text.Bytes := do
  let caret ← if (number : Int) = loc.line then caretLine width loc.column else .ok []
  .ok (styled gutter (" " ++ aligned width number ++ " |") ++ [32] ++ line ++ [10] ++ caret)

/-- The excerpt around a location from the lines of the source, empty when the location is not in
the source. The lines around it are counted in 64 bits, so that a context that is too large shows
none. -/
def excerpt (layout : Layout) (all : List Text.Bytes) (loc : Location) : Except Fault Text.Bytes :=
  if layout.source.isEmpty || loc.line < 1 || (all.length : Int) < loc.line then .ok []
  else do
    let first := max 1 (Number.wrap64 (loc.line - layout.context))
    let last := min (all.length : Int) (Number.wrap64 (loc.line + layout.context))
    let width := (toString last).length
    let shown := (all.drop (first - 1).toNat).take (last + 1 - first).toNat
    let texts ← (shown.zipIdx first.toNat).mapM fun (line, number) =>
      sourceLine width loc number line
    .ok (blankGutter width ++ [10] ++ texts.flatten)

/-- One diagnostic with colours, over the lines of the source. -/
def colored (layout : Layout) (all : List Text.Bytes) (d : Diagnostic) :
    Except Fault Text.Bytes := do
  let excerpt ← layout.excerpt all d.loc
  .ok (styled alarm "error" ++ styled subdued ("[" ++ d.problem.code ++ "]") ++
    Text.bytesOf (": " ++ d.message ++ "\n") ++
    styled pointer "  --> " ++ Text.bytesOf (d.loc.text ++ "\n") ++ excerpt)

def formatOver (layout : Layout) (all : List Text.Bytes) (d : Diagnostic) :
    Except Fault Text.Bytes :=
  (layout.colored all d).map fun text => if layout.color then text else Text.stripControls text

def format (layout : Layout) (d : Diagnostic) : Except Fault Text.Bytes :=
  layout.formatOver (lines layout.source) d

/-- Diagnostics in the given order, separated by empty lines. -/
def formatAll (layout : Layout) (ds : List Diagnostic) : Except Fault Text.Bytes :=
  let all := lines layout.source
  (ds.mapM (layout.formatOver all)).map (List.intercalate [10])

end Layout

end TaskNet
