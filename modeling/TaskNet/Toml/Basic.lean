import TaskNet.Text.Quoted

/-!
Settings documents in TOML. A document is a list of statements, each a table header, a header of
one more table of an array of tables, or a key with its value. Read in order the statements build
one table.
-/

namespace TaskNet.Toml

/-- A dotted key as the list of its parts. -/
abbrev Key := List String

/-- Whether a character may stand in a key without quotes. -/
def isBare (c : Char) : Bool :=
  c.isAlphanum || c == '_' || c == '-'

/-- The escape of a character of a quoted part of a key. -/
def keyChar (c : Char) : List Char :=
  if c == '"' || c == '\\' then ['\\', c]
  else if c.toNat < 0x20 || c.toNat == 0x7F then
    match c.toNat with
    | 8 => ['\\', 'b']
    | 9 => ['\\', 't']
    | 10 => ['\\', 'n']
    | 12 => ['\\', 'f']
    | 13 => ['\\', 'r']
    | n => ['\\', 'u'] ++ Text.hexDigits 4 n
  else [c]

def partText (part : String) : String :=
  if part.isEmpty then "\"\""
  else if part.toList.all isBare then part
  else String.ofList (['"'] ++ part.toList.flatMap keyChar ++ ['"'])

def keyText (key : Key) : String :=
  ".".intercalate (key.map partText)

/-- A value as it stands in a document. Only the values that settings use are told apart from each
other; of the others it matters that they are something else. -/
inductive Literal where
  | text (value : String)
  | integer (value : Int)
  | boolean (value : Bool)
  | float
  | moment
  | array (items : List Literal)
  | inline (pairs : List (Key × Literal))

inductive Statement where
  | table (key : Key)
  | element (key : Key)
  | pair (key : Key) (value : Literal)

inductive Value where
  | text (value : String)
  | integer (value : Int)
  | boolean (value : Bool)
  | float
  | moment
  | array (items : List Value)
  /-- An array of tables, in order. -/
  | tables (rows : List (List (String × Value)))
  | table (entries : List (String × Value))

/-- The entries of a table in the order in which they came. -/
abbrev Table := List (String × Value)

end TaskNet.Toml
