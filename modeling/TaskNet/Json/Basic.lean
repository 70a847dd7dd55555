import TaskNet.Text.Quoted

/-!
JSON values and their text. A number is kept as it was written, so that it is given back unchanged;
a string is kept with the way it was written, since one string can be written in many ways. An
object keeps its members in order, repeated names included.
-/

namespace TaskNet

inductive JsonValue where
  | null
  | bool (value : Bool)
  | number (text : String)
  /-- A text, and what stood between the quotes. -/
  | string (value written : String)
  | array (items : List JsonValue)
  | object (members : List (String × JsonValue))

namespace JsonValue

def int (n : Int) : JsonValue :=
  number (toString n)

/-- A character as it stands between quotes. -/
def charText (c : Char) : List Char :=
  if c == '"' || c == '\\' then ['\\', c]
  else if c == '\n' then ['\\', 'n']
  else if c.toNat < 0x20 then ['\\', 'u'] ++ Text.hexDigits 4 c.toNat
  else [c]

/-- What stands between the quotes for a text. -/
def stringBody (s : String) : String :=
  String.ofList (s.toList.flatMap charText)

def stringText (s : String) : String :=
  "\"" ++ stringBody s ++ "\""

def ofString (s : String) : JsonValue :=
  string s (stringBody s)

def spelling? : JsonValue → Option String
  | number t => some t
  | string _ written => some ("\"" ++ written ++ "\"")
  | _ => none

mutual

def text : JsonValue → String
  | null => "null"
  | bool b => if b then "true" else "false"
  | number t => t
  | string s _ => stringText s
  | array items => "[" ++ ",".intercalate (textItems items) ++ "]"
  | object members => "\x7b" ++ ",".intercalate (textMembers members) ++ "\x7d"

def textItems : List JsonValue → List String
  | [] => []
  | item :: rest => item.text :: textItems rest

def textMembers : List (String × JsonValue) → List String
  | [] => []
  | (name, v) :: rest => (stringText name ++ ":" ++ v.text) :: textMembers rest

end

end JsonValue

end TaskNet
