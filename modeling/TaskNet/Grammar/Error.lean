import TaskNet.Location
import TaskNet.Token.Basic

/-!
Syntax errors. Reading stops at the first token that cannot continue any domain, and the error is
located there.
-/

namespace TaskNet

/-- Why a token cannot stand where it does. -/
inductive SyntaxCause where
  | expectedToken (wanted : TokenKind)
  | expectedWord (wanted : String)
  | expectedBlock
  | expectedItem
  | expectedExpression
  | secondDomain
  | unknownType
  | assignTarget
  /-- A number out of range; the flag says whether a minus stands before it. -/
  | integerRange (negative : Bool)
  | floatRange (negative : Bool)
  deriving DecidableEq, Repr

/-- A syntax error: the token, its location and the cause. -/
structure SyntaxError where
  loc : Location
  token : Token
  cause : SyntaxCause
  deriving DecidableEq, Repr

namespace SyntaxError

def message (e : SyntaxError) : String :=
  let got := ", got " ++ e.token.text
  let signed (negative : Bool) := (if negative then "-" else "") ++ e.token.word
  match e.cause with
  | .expectedToken k => "expected " ++ k.name ++ got
  | .expectedWord w => "expected " ++ Text.quoted w ++ got
  | .expectedBlock => "expected \"fact\", \"prim\" or \"domain\"" ++ got
  | .expectedItem => "expected \"macro\" or \"task\"" ++ got
  | .expectedExpression => "expected expression" ++ got
  | .secondDomain => "only one domain is allowed"
  | .unknownType => "unknown type " ++ Text.quoted e.token.word
  | .assignTarget => "left side of '=' must be a variable"
  | .integerRange negative => "integer literal " ++ signed negative ++ " out of range"
  | .floatRange negative => "bad float literal " ++ signed negative

def text (e : SyntaxError) : String :=
  e.loc.text ++ ": " ++ e.message

end SyntaxError

end TaskNet
