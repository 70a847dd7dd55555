import TaskNet.Toml.Text

/-!
The statements of a document. Blanks separate, a `#` starts a comment that ends with the line, and
every statement ends its line. Within brackets and braces lines may break between items.
-/

namespace TaskNet.Toml

def skipSpace (cs : List Char) : List Char :=
  cs.dropWhile isSpace

def skipLines (comment : Bool) : List Char → List Char
  | [] => []
  | c :: rest =>
    if isBreak c then skipLines false rest
    else if comment then skipLines true rest
    else if isSpace c then skipLines false rest
    else if c == '#' then skipLines true rest
    else c :: rest

def keyPart? : List Char → Option (String × List Char)
  | '"' :: rest => (basicText? rest).map fun r => (.ofList r.1, r.2)
  | '\x27' :: rest => (literalText? rest).map fun r => (.ofList r.1, r.2)
  | cs =>
    let part := cs.takeWhile isBare
    if part.isEmpty then none else some (.ofList part, cs.drop part.length)

def key? : Nat → List Char → Option (Key × List Char)
  | 0, _ => none
  | fuel + 1, cs => do
    let (part, cs) ← keyPart? (skipSpace cs)
    match skipSpace cs with
    | '.' :: rest =>
      let (parts, rest) ← key? fuel rest
      some (part :: parts, rest)
    | rest => some ([part], rest)

mutual

def value? : Nat → List Char → Option (Literal × List Char)
  | 0, _ => none
  | fuel + 1, cs =>
    match skipSpace cs with
    | '[' :: rest => (items? fuel rest).map fun r => (.array r.1, r.2)
    | '\x7b' :: rest => (pairs? fuel rest).map fun r => (.inline r.1, r.2)
    | '"' :: rest => (quotedText? ('"' :: rest)).map fun r => (.text r.1, r.2)
    | '\x27' :: rest => (quotedText? ('\x27' :: rest)).map fun r => (.text r.1, r.2)
    | cs => scalar? cs

/-- Reads the items of an array from where an item may start. -/
def items? : Nat → List Char → Option (List Literal × List Char)
  | 0, _ => none
  | fuel + 1, cs =>
    match skipLines false cs with
    | ']' :: rest => some ([], rest)
    | cs => do
      let (item, cs) ← value? fuel cs
      match skipLines false cs with
      | ',' :: rest =>
        let (items, rest) ← items? fuel rest
        some (item :: items, rest)
      | ']' :: rest => some ([item], rest)
      | _ => none

/-- Reads the pairs of an inline table from where a pair may start. -/
def pairs? : Nat → List Char → Option (List (Key × Literal) × List Char)
  | 0, _ => none
  | fuel + 1, cs =>
    match skipLines false cs with
    | '\x7d' :: rest => some ([], rest)
    | cs => do
      let (key, cs) ← key? fuel cs
      let '=' :: cs := cs | none
      let (value, cs) ← value? fuel cs
      match skipLines false cs with
      | ',' :: rest =>
        let (pairs, rest) ← pairs? fuel rest
        some ((key, value) :: pairs, rest)
      | '\x7d' :: rest => some ([(key, value)], rest)
      | _ => none

end

def statement? (fuel : Nat) : List Char → Option (Statement × List Char)
  | '[' :: '[' :: rest => do
    let (key, rest) ← key? fuel rest
    let ']' :: ']' :: rest := rest | none
    some (.element key, rest)
  | '[' :: rest => do
    let (key, rest) ← key? fuel rest
    let ']' :: rest := rest | none
    some (.table key, rest)
  | cs => do
    let (key, cs) ← key? fuel cs
    let '=' :: cs := cs | none
    let (value, cs) ← value? fuel cs
    some (.pair key value, cs)

/-- Whether nothing but blanks and a comment is left of a line. -/
def endsLine (cs : List Char) : Bool :=
  match skipSpace cs with
  | [] => true
  | c :: _ => c == '#' || isBreak c

/-- Reads statements to the end of the text. -/
def statements? : Nat → List Char → Option (List Statement)
  | 0, _ => none
  | fuel + 1, cs =>
    match skipLines false cs with
    | [] => some []
    | cs => do
      let (s, rest) ← statement? (2 * cs.length + 2) cs
      if endsLine rest then (statements? fuel rest).map (s :: ·) else none

/-- Whether every character may stand in a document: no control characters but tabs and line
breaks, and a carriage return only in front of a line feed. -/
def wellFormed : List Char → Bool
  | [] => true
  | '\r' :: '\n' :: rest => wellFormed rest
  | c :: rest =>
    ((0x20 ≤ c.toNat && c.toNat != 0x7F) || c == '\t' || c == '\n') && wellFormed rest

/-- The statements of a document, which may start with a byte order mark. -/
def read? (text : String) : Option (List Statement) :=
  let cs := match text.toList with
    | '\ufeff' :: rest => rest
    | cs => cs
  if wellFormed cs then statements? (cs.length + 1) cs else none

end TaskNet.Toml
