import TaskNet.Grammar.Error
import TaskNet.Grammar.Literal
import TaskNet.Tree.Pool

/-!
Reading expressions, one token at a time. What is open stands on a stack of frames: an operator that
waits for its right operand, a bracket, a list of arguments. A token first closes every operator
that binds at least as tightly as it does, and then opens or closes one frame itself.
-/

namespace TaskNet.Grammar

def operatorOf? : TokenKind → Option Operator
  | .or => some .or
  | .and => some .and
  | .assign => some .assign
  | .equal => some .eq
  | .notEqual => some .ne
  | .less => some .lt
  | .lessEqual => some .le
  | .greater => some .gt
  | .greaterEqual => some .ge
  | .plus => some .add
  | .minus => some .sub
  | .times => some .mul
  | .divide => some .div
  | _ => none

/-- How tightly an infix operator binds to its left operand. -/
def power : Operator → Nat
  | .or => 10
  | .and => 20
  | .assign => 25
  | .eq | .ne | .lt | .le | .gt | .ge => 30
  | .add | .sub => 40
  | .mul | .div => 50
  | .not | .neg => 60

/-- How tightly an operator binds to its right operand. Assignment is right associative, the others
left associative. -/
def rightPower : Operator → Nat
  | .assign => 24
  | o => power o

/-- An open part of an expression. -/
inductive Frame where
  /-- An infix operator at a location, after its left operand. -/
  | binary (left : Tree) (o : Operator) (loc : Location)
  /-- A prefix operator at a location. -/
  | unary (o : Operator) (loc : Location)
  /-- An opening bracket. -/
  | group
  /-- A call after its opening bracket, with the arguments read so far. -/
  | arguments (head : Node) (done : List Tree)
  /-- Like `arguments`, but the closing bracket ends the whole expression. -/
  | list (head : Node) (done : List Tree)

/-- What the next token is read as. -/
inductive Expected where
  | operand
  /-- The first argument of a list, or its closing bracket. -/
  | firstArgument
  /-- What follows an identifier. -/
  | afterName (name : Token)
  /-- What follows a prefix minus. -/
  | afterMinus (minus : Token)
  /-- What follows a complete operand. -/
  | operator (left : Tree)

/-- An expression that is being read. -/
structure Pending where
  frames : List Frame
  expected : Expected

inductive Progress where
  /-- The expression goes on. -/
  | reading (p : Pending)
  /-- The token was the last one of the expression. -/
  | closed (t : Tree)
  /-- The expression was complete before the token. -/
  | ended (t : Tree)

/-- Progress with the next free identity. -/
abbrev Stepped := Except SyntaxError (Progress × NodeId)

def locate (file : String) (t : Token) : Location :=
  ⟨file, t.line, t.column⟩

def refuse {α : Type} (file : String) (t : Token) (cause : SyntaxCause) : Except SyntaxError α :=
  .error ⟨locate file t, t, cause⟩

def Pending.start : Pending := ⟨[], .operand⟩

def Pending.startList (head : Node) : Pending := ⟨[.list head []], .firstArgument⟩

/-- Joins two operands. A conjunction or disjunction on the left takes a further operand of the same
operator; anything else gets a node of its own. -/
def join (next : NodeId) (left : Tree) (o : Operator) (loc : Location) (right : Tree) :
    Tree × NodeId :=
  if (o == .and || o == .or) && left.kind == .op o then
    (left.withChildren (left.children ++ [right]), next)
  else (Tree.operator next o loc [left, right], next + 1)

def openOperator (file : String) (next : NodeId) (frames : List Frame) (left : Tree) (o : Operator)
    (t : Token) : Stepped :=
  if o == .assign && left.kind != .var then refuse file t .assignTarget
  else .ok (.reading ⟨.binary left o (locate file t) :: frames, .operand⟩, next)

def afterOperand (file : String) (t : Token) (next : NodeId) (left : Tree) : List Frame → Stepped
  | [] =>
    match operatorOf? t.kind with
    | some o => openOperator file next [] left o t
    | none => .ok (.ended left, next)
  | .binary l o loc :: frames =>
    match operatorOf? t.kind with
    | some o' =>
      if rightPower o < power o' then openOperator file next (.binary l o loc :: frames) left o' t
      else
        let (joined, next) := join next l o loc left
        afterOperand file t next joined frames
    | none =>
      let (joined, next) := join next l o loc left
      afterOperand file t next joined frames
  | .unary o loc :: frames =>
    afterOperand file t (next + 1) (Tree.operator next o loc [left]) frames
  | .group :: frames =>
    match operatorOf? t.kind with
    | some o => openOperator file next (.group :: frames) left o t
    | none =>
      if t.kind = .rightRound then .ok (.reading ⟨frames, .operator left⟩, next)
      else refuse file t (.expectedToken .rightRound)
  | .arguments head done :: frames =>
    match operatorOf? t.kind with
    | some o => openOperator file next (.arguments head done :: frames) left o t
    | none =>
      if t.kind = .rightRound then
        .ok (.reading ⟨frames, .operator (.mk head (done ++ [left]))⟩, next)
      else if t.kind = .comma then
        .ok (.reading ⟨.arguments head (done ++ [left]) :: frames, .operand⟩, next)
      else refuse file t (.expectedToken .comma)
  | .list head done :: frames =>
    match operatorOf? t.kind with
    | some o => openOperator file next (.list head done :: frames) left o t
    | none =>
      if t.kind = .rightRound then .ok (.closed (.mk head (done ++ [left])), next)
      else if t.kind = .comma then
        .ok (.reading ⟨.list head (done ++ [left]) :: frames, .operand⟩, next)
      else refuse file t (.expectedToken .comma)

/-- The constant of a number token, located at `loc`. -/
def number (file : String) (next : NodeId) (negative : Bool) (loc : Location) (t : Token) :
    Except SyntaxError (Tree × NodeId) :=
  if t.kind = .integer then
    match integerValue? negative t.lexeme with
    | some v => .ok (.mk ⟨next, .any, loc, .literal (.int v)⟩ [], next + 1)
    | none => refuse file t (.integerRange negative)
  else
    match floatValue? negative t.lexeme with
    | some v => .ok (.mk ⟨next, .any, loc, .literal (.float v)⟩ [], next + 1)
    | none => refuse file t (.floatRange negative)

def beforeOperand (file : String) (t : Token) (next : NodeId) (frames : List Frame) : Stepped :=
  match t.kind with
  | .identifier => .ok (.reading ⟨frames, .afterName t⟩, next)
  | .integer | .float => do
    let (lit, next) ← number file next false (locate file t) t
    .ok (.reading ⟨frames, .operator lit⟩, next)
  | .leftRound => .ok (.reading ⟨.group :: frames, .operand⟩, next)
  | .not => .ok (.reading ⟨.unary .not (locate file t) :: frames, .operand⟩, next)
  | .minus => .ok (.reading ⟨frames, .afterMinus t⟩, next)
  | _ => refuse file t .expectedExpression

def beforeArgument (file : String) (t : Token) (next : NodeId) (frames : List Frame) : Stepped :=
  if t.kind = .rightRound then
    match frames with
    | .arguments head done :: rest => .ok (.reading ⟨rest, .operator (.mk head done)⟩, next)
    | .list head done :: _ => .ok (.closed (.mk head done), next)
    | _ => refuse file t .expectedExpression
  else beforeOperand file t next frames

def Pending.step (file : String) (t : Token) (next : NodeId) (p : Pending) : Stepped :=
  match p.expected with
  | .operand => beforeOperand file t next p.frames
  | .firstArgument => beforeArgument file t next p.frames
  | .afterName name =>
    if t.kind = .leftRound then
      let head : Node := ⟨next, .any, locate file name, .invocation name.word⟩
      .ok (.reading ⟨.arguments head [] :: p.frames, .firstArgument⟩, next + 1)
    else
      afterOperand file t (next + 1)
        (.mk ⟨next, .any, locate file name, .use name.word⟩ []) p.frames
  | .afterMinus minus =>
    if t.kind = .integer ∨ t.kind = .float then do
      let (lit, next) ← number file next true (locate file minus) t
      .ok (.reading ⟨p.frames, .operator lit⟩, next)
    else beforeOperand file t next (.unary .neg (locate file minus) :: p.frames)
  | .operator left => afterOperand file t next left p.frames

end TaskNet.Grammar
