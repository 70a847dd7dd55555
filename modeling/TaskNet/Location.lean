/-!
Positions in a source file. Lines and columns count from one; columns count bytes.
-/

namespace TaskNet

structure Location where
  file : String
  line : Int
  column : Int
  deriving DecidableEq, Repr, Inhabited

namespace Location

/-- The position of what stands in no file. -/
def nowhere : Location := ⟨"", 0, 0⟩

/-- Line and column without the file name. -/
def place (l : Location) : String :=
  toString l.line ++ ":" ++ toString l.column

/-- The text of a position; an empty file name is left out. -/
def text (l : Location) : String :=
  if l.file == "" then l.place else l.file ++ ":" ++ l.place

/-- The order by line, then column. File names do not count. -/
def before (a b : Location) : Bool :=
  if a.line != b.line then a.line < b.line else a.column < b.column

end Location

end TaskNet
