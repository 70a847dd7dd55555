import TaskNet.Toml.Scalar

/-!
Quoted text of a document. Between double quotes escapes are read, between single quotes every
character stands for itself. Three quotes open a text over several lines, whose first line break is
not part of it.
-/

namespace TaskNet.Toml

open Text (isDigitOf digitsValue)

def codePoint? (digits : List Char) : Option Char :=
  if digits.all (isDigitOf 16) then
    let n := digitsValue 16 digits
    if n < 0xD800 || (0xDFFF < n && n < 0x110000) then some (Char.ofNat n) else none
  else none

/-- The character of an escape by its code point, with the length of the escape. -/
def codeEscape? (width : Nat) (cs : List Char) : Option (Char × Nat) :=
  if (cs.take width).length == width then
    (codePoint? (cs.take width)).map fun c => (c, width + 1)
  else none

/-- The character that an escape stands for, with the number of characters after the backslash. -/
def escape? : List Char → Option (Char × Nat)
  | 'b' :: _ => some (Char.ofNat 8, 1)
  | 't' :: _ => some ('\t', 1)
  | 'n' :: _ => some ('\n', 1)
  | 'f' :: _ => some (Char.ofNat 12, 1)
  | 'r' :: _ => some ('\r', 1)
  | 'e' :: _ => some (Char.ofNat 27, 1)
  | '"' :: _ => some ('"', 1)
  | '\\' :: _ => some ('\\', 1)
  | 'x' :: rest => codeEscape? 2 rest
  | 'u' :: rest => codeEscape? 4 rest
  | 'U' :: rest => codeEscape? 8 rest
  | _ => none

def isBreak (c : Char) : Bool :=
  c == '\n' || c == '\r'

/-- Whether a character is a blank within a line. -/
def isSpace (c : Char) : Bool :=
  c == ' ' || c == '\t'

/-- Puts a character in front of a text that was read. -/
def prepend (c : Char) (r : List Char × List Char) : List Char × List Char :=
  (c :: r.1, r.2)

/-- Reads a text up to the closing double quote on the same line. -/
def basicText? (cs : List Char) : Option (List Char × List Char) :=
  match cs with
  | [] => none
  | c :: rest =>
    if c == '"' then some ([], rest)
    else if isBreak c then none
    else if c == '\\' then
      match escape? rest with
      | some (e, n) => (basicText? (rest.drop n)).map (prepend e)
      | none => none
    else (basicText? rest).map (prepend c)
termination_by cs.length
decreasing_by all_goals simp only [List.length_drop, List.length_cons]; omega

/-- Reads a text up to the closing single quote on the same line. -/
def literalText? : List Char → Option (List Char × List Char)
  | [] => none
  | c :: rest =>
    if c == '\x27' then some ([], rest)
    else if isBreak c then none
    else (literalText? rest).map (prepend c)

/-- What a run of quotes in a text over several lines comes to. Fewer than three are part of the
text. Of more, three close it and the others are part of it, up to a number of quotes that no text
may hold. -/
def closing? (quote : Char) (most : Nat) (cs : List Char) :
    Option (Option (List Char × List Char)) :=
  let run := cs.takeWhile (· == quote)
  if run.length < 3 then some none
  else if most < run.length then none
  else some (some (run.drop 3, cs.drop run.length))

/-- Reads a text over several lines up to its closing double quotes. A backslash at the end of a
line drops the break and the blanks after it. `most` is how many quotes may stand together here: one
more after a backslash that was written twice. -/
def basicLines? (most : Nat) (cs : List Char) : Option (List Char × List Char) :=
  match cs with
  | [] => none
  | c :: rest =>
    if c == '"' then
      match closing? '"' most (c :: rest) with
      | none => none
      | some (some done) => some done
      | some none => (basicLines? 5 rest).map (prepend c)
    else if c == '\\' then
      let blanks := rest.takeWhile fun b => isSpace b || isBreak b
      if blanks.any isBreak then basicLines? 5 (rest.drop blanks.length)
      else match escape? rest with
        | some (e, n) =>
          (basicLines? (if rest.head? == some '\\' then 6 else 5) (rest.drop n)).map (prepend e)
        | none => none
    else (basicLines? 5 rest).map (prepend c)
termination_by cs.length
decreasing_by all_goals simp only [List.length_drop, List.length_cons]; omega

/-- Reads a text over several lines up to its closing single quotes. -/
def literalLines? : List Char → Option (List Char × List Char)
  | [] => none
  | c :: rest =>
    if c == '\x27' then
      match closing? '\x27' 5 (c :: rest) with
      | none => none
      | some (some done) => some done
      | some none => (literalLines? rest).map (prepend c)
    else (literalLines? rest).map (prepend c)

/-- A text over several lines without the break right after its opening quotes. -/
def dropBreak : List Char → List Char
  | '\n' :: rest => rest
  | '\r' :: '\n' :: rest => rest
  | cs => cs

def quotedText? : List Char → Option (String × List Char)
  | '"' :: '"' :: '"' :: rest => (basicLines? 5 (dropBreak rest)).map fun r => (.ofList r.1, r.2)
  | '"' :: rest => (basicText? rest).map fun r => (.ofList r.1, r.2)
  | '\x27' :: '\x27' :: '\x27' :: rest =>
    (literalLines? (dropBreak rest)).map fun r => (.ofList r.1, r.2)
  | '\x27' :: rest => (literalText? rest).map fun r => (.ofList r.1, r.2)
  | _ => none

end TaskNet.Toml
