import TaskNet.Text.Bytes
import TaskNet.Text.Quoted

/-!
Tokens of the planning language: a class, the bytes of the source it covers, and its position.
-/

namespace TaskNet

inductive TokenKind where
  | endOfFile
  | illegal
  | identifier
  | integer
  | float
  | leftRound
  | rightRound
  | leftCurly
  | rightCurly
  | leftSquare
  | rightSquare
  | comma
  | atSign
  | arrow
  | not
  | and
  | or
  | equal
  | notEqual
  | less
  | lessEqual
  | greater
  | greaterEqual
  | assign
  | plus
  | minus
  | times
  | divide
  deriving DecidableEq, Repr

namespace TokenKind

/-- The classes in the order of their numbers. -/
def enumeration : List TokenKind :=
  [endOfFile, illegal, identifier, integer, float, leftRound, rightRound, leftCurly, rightCurly,
    leftSquare, rightSquare, comma, atSign, arrow, not, and, or, equal, notEqual, less, lessEqual,
    greater, greaterEqual, assign, plus, minus, times, divide]

/-- How a class is named in messages. -/
def name : TokenKind → String
  | endOfFile => "end of file"
  | illegal => "illegal character"
  | identifier => "identifier"
  | integer => "integer"
  | float => "float"
  | leftRound => "'('"
  | rightRound => "')'"
  | leftCurly => "'\x7b'"
  | rightCurly => "'\x7d'"
  | leftSquare => "'['"
  | rightSquare => "']'"
  | comma => "','"
  | atSign => "'@'"
  | arrow => "'->'"
  | not => "'~'"
  | and => "'&'"
  | or => "'|'"
  | equal => "'=='"
  | notEqual => "'!='"
  | less => "'<'"
  | lessEqual => "'<='"
  | greater => "'>'"
  | greaterEqual => "'>='"
  | assign => "'='"
  | plus => "'+'"
  | minus => "'-'"
  | times => "'*'"
  | divide => "'/'"

/-- The name of the class with a given number; a number of no class is shown itself. -/
def nameOfNumber (n : Int) : String :=
  let known := if n < 0 then none else enumeration[n.toNat]?
  match known with
  | some k => k.name
  | none => "token(" ++ toString n ++ ")"

end TokenKind

/-- A token with its position: lines and columns count from one, columns in bytes. -/
structure Token where
  kind : TokenKind
  lexeme : Text.Bytes
  line : Nat
  column : Nat
  deriving DecidableEq, Repr

namespace Token

def word (t : Token) : String :=
  Text.ofAscii t.lexeme

/-- How a token is named in messages: words and numbers by their quoted text, an illegal byte by its
quoted form, all others by their class. -/
def text (t : Token) : String :=
  match t.kind with
  | .identifier | .integer | .float => Text.quoted t.word
  | .illegal =>
    match t.lexeme with
    | [b] => "illegal character " ++ Text.quotedByte b
    | _ => "illegal character " ++ Text.quoted t.word
  | k => k.name

end Token

end TaskNet
