import TaskNet.Token.Basic

/-!
Scanning. A source is a run of gaps and lexemes: a gap is white space and line comments, a lexeme is
the longest token that starts where the gap ends. Every byte belongs to exactly one gap or lexeme,
and a byte that starts no token is an illegal token of its own.
-/

namespace TaskNet

namespace Scanner

def isDigit (b : UInt8) : Bool :=
  48 ≤ b && b ≤ 57

/-- Whether a byte may start an identifier. -/
def isLetter (b : UInt8) : Bool :=
  (97 ≤ b && b ≤ 122) || (65 ≤ b && b ≤ 90) || b == 95

/-- Whether a byte may continue an identifier. -/
def isWordByte (b : UInt8) : Bool :=
  isLetter b || isDigit b

/-- Whether a byte is white space between tokens. -/
def isSpace (b : UInt8) : Bool :=
  b == 32 || b == 9 || b == 13 || b == 10

/-- The gap at the start of a source: white space, and comments from `//` up to a line end, which
itself is white space. The flag says whether a comment is open. -/
def gap : Bool → Text.Bytes → Text.Bytes
  | _, [] => []
  | true, b :: rest => if b == 10 then b :: gap false rest else b :: gap true rest
  | false, b :: rest =>
    if isSpace b then b :: gap false rest
    else if b == 47 && rest.head? == some 47 then b :: gap true rest
    else []

def fraction : Text.Bytes → Text.Bytes
  | b :: rest =>
    let digits := rest.takeWhile isDigit
    if b == 46 && !digits.isEmpty then b :: digits else []
  | [] => []

def exponentPart : Text.Bytes → Text.Bytes
  | mark :: rest =>
    if mark == 101 || mark == 69 then
      let sign := rest.takeWhile (fun b => b == 43 || b == 45) |>.take 1
      let digits := (rest.drop sign.length).takeWhile isDigit
      if digits.isEmpty then [] else mark :: sign ++ digits
    else []
  | [] => []

/-- What follows the first digit of a number: digits, a fraction and an exponent. -/
def numberTail (rest : Text.Bytes) : TokenKind × Text.Bytes :=
  let digits := rest.takeWhile isDigit
  let frac := fraction (rest.drop digits.length)
  let expo := exponentPart (rest.drop (digits.length + frac.length))
  (if frac.isEmpty && expo.isEmpty then .integer else .float, digits ++ frac ++ expo)

/-- A mark of one byte, or of two when the second byte follows. -/
def oneOrTwo (second : UInt8) (rest : Text.Bytes) (both alone : TokenKind) :
    TokenKind × Text.Bytes :=
  if rest.head? == some second then (both, [second]) else (alone, [])

/-- The token that starts with the byte `b` before `rest`: its class and its bytes after the
first. -/
def lexemeTail (b : UInt8) (rest : Text.Bytes) : TokenKind × Text.Bytes :=
  if isLetter b then (.identifier, rest.takeWhile isWordByte)
  else if isDigit b then numberTail rest
  else if b == 40 then (.leftRound, [])
  else if b == 41 then (.rightRound, [])
  else if b == 123 then (.leftCurly, [])
  else if b == 125 then (.rightCurly, [])
  else if b == 91 then (.leftSquare, [])
  else if b == 93 then (.rightSquare, [])
  else if b == 44 then (.comma, [])
  else if b == 64 then (.atSign, [])
  else if b == 126 then (.not, [])
  else if b == 38 then (.and, [])
  else if b == 124 then (.or, [])
  else if b == 43 then (.plus, [])
  else if b == 42 then (.times, [])
  else if b == 47 then (.divide, [])
  else if b == 45 then oneOrTwo 62 rest .arrow .minus
  else if b == 61 then oneOrTwo 61 rest .equal .assign
  else if b == 60 then oneOrTwo 61 rest .lessEqual .less
  else if b == 62 then oneOrTwo 61 rest .greaterEqual .greater
  else if b == 33 then oneOrTwo 61 rest .notEqual .illegal
  else (.illegal, [])

structure Position where
  line : Nat
  column : Nat
  deriving DecidableEq, Repr

def Position.after (p : Position) (b : UInt8) : Position :=
  if b == 10 then ⟨p.line + 1, 1⟩ else ⟨p.line, p.column + 1⟩

def Position.afterAll (p : Position) (bs : Text.Bytes) : Position :=
  bs.foldl Position.after p

def scanFrom (p : Position) (src : Text.Bytes) : List Token :=
  let skipped := gap false src
  let start := p.afterAll skipped
  match _h : src.drop skipped.length with
  | [] => [⟨.endOfFile, [], start.line, start.column⟩]
  | b :: rest =>
    let (kind, tail) := lexemeTail b rest
    ⟨kind, b :: tail, start.line, start.column⟩ ::
      scanFrom (start.afterAll (b :: tail)) (rest.drop tail.length)
termination_by src.length
decreasing_by
  have shorter : rest.length + 1 ≤ src.length := by
    have := congrArg List.length _h
    simp only [List.length_drop, List.length_cons] at this
    omega
  simp only [List.length_drop]
  omega

end Scanner

/-- The tokens of a source, with the end of the file as the last one. -/
def Token.scan (src : Text.Bytes) : List Token :=
  Scanner.scanFrom ⟨1, 1⟩ src

end TaskNet
