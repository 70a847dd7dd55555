import TaskNet.Json.Basic
import TaskNet.Text.Digits

/-!
Reading of JSON texts. Each function takes what it reads off the front of the text. Nesting is
bounded, and the fuel that the readers count down is more than any text of the given length uses.
-/

namespace TaskNet.JsonValue

def isBlank (c : Char) : Bool :=
  c == ' ' || c == '\t' || c == '\r' || c == '\n'

def skipBlanks (cs : List Char) : List Char :=
  cs.dropWhile isBlank

/-- The code unit that four hexadecimal digits give. -/
def unit? : List Char → Option (Nat × List Char)
  | a :: b :: c :: d :: rest =>
    if [a, b, c, d].all (Text.isDigitOf 16) then some (Text.digitsValue 16 [a, b, c, d], rest)
    else none
  | _ => none

/-- The character that stands for what is no character. -/
def replacement : Char := '\ufffd'

/-- The character of an escape by its code unit, with what follows. Two units may form a pair; a
unit that is half of a pair without the other half is no character. -/
def unitChar (u : Nat) (rest : List Char) : Char × List Char :=
  if 0xD800 ≤ u && u < 0xDC00 then
    match rest with
    | '\\' :: 'u' :: more =>
      match unit? more with
      | some (v, after) =>
        if 0xDC00 ≤ v && v < 0xE000 then
          (Char.ofNat (0x10000 + (u - 0xD800) * 0x400 + (v - 0xDC00)), after)
        else (replacement, rest)
      | none => (replacement, rest)
    | _ => (replacement, rest)
  else if 0xDC00 ≤ u && u < 0xE000 then (replacement, rest)
  else (Char.ofNat u, rest)

def escape? : List Char → Option (Char × List Char)
  | '"' :: rest => some ('"', rest)
  | '\\' :: rest => some ('\\', rest)
  | '/' :: rest => some ('/', rest)
  | 'b' :: rest => some (Char.ofNat 8, rest)
  | 'f' :: rest => some (Char.ofNat 12, rest)
  | 'n' :: rest => some ('\n', rest)
  | 'r' :: rest => some ('\r', rest)
  | 't' :: rest => some ('\t', rest)
  | 'u' :: rest => (unit? rest).map fun (u, rest) => unitChar u rest
  | _ => none

def chars? : Nat → List Char → Option (List Char × List Char)
  | 0, _ => none
  | _, [] => none
  | fuel + 1, c :: rest =>
    if c == '"' then some ([], rest)
    else if c.toNat < 0x20 then none
    else if c == '\\' then do
      let (e, rest) ← escape? rest
      let (cs, rest) ← chars? fuel rest
      some (e :: cs, rest)
    else do
      let (cs, rest) ← chars? fuel rest
      some (c :: cs, rest)

def string? (cs : List Char) : Option (JsonValue × List Char) :=
  (chars? (cs.length + 1) cs).map fun (s, rest) =>
    (string (.ofList s) (.ofList (cs.take (cs.length - rest.length - 1))), rest)

def isExponent (cs : List Char) : Bool :=
  match cs with
  | [] => true
  | e :: rest =>
    let digits := (Text.unsigned rest).2
    (e == 'e' || e == 'E') && !digits.isEmpty && digits.all Char.isDigit

/-- Whether a text is a number: no needless zeros in front, and digits on both sides of a point. -/
def isNumber (cs : List Char) : Bool :=
  let body := if cs.head? == some '-' then cs.drop 1 else cs
  let whole := body.takeWhile Char.isDigit
  let rest := body.drop whole.length
  let wholeFits := !whole.isEmpty && (whole.length == 1 || whole.head? != some '0')
  match rest with
  | '.' :: more =>
    let places := more.takeWhile Char.isDigit
    wholeFits && !places.isEmpty && isExponent (more.drop places.length)
  | _ => wholeFits && isExponent rest

/-- Whether a character may stand in a word or a number. -/
def isWordChar (c : Char) : Bool :=
  c.isAlphanum || c == '+' || c == '-' || c == '.'

def word? (cs : List Char) : Option (JsonValue × List Char) :=
  let run := cs.takeWhile isWordChar
  let rest := cs.drop run.length
  if run == ['n', 'u', 'l', 'l'] then some (null, rest)
  else if run == ['t', 'r', 'u', 'e'] then some (bool true, rest)
  else if run == ['f', 'a', 'l', 's', 'e'] then some (bool false, rest)
  else if isNumber run then some (number (.ofList run), rest)
  else none

mutual

/-- Reads a value and the blanks in front of it. `room` is how deep values may still nest. -/
def value? (room : Nat) : Nat → List Char → Option (JsonValue × List Char)
  | 0, _ => none
  | fuel + 1, cs =>
    match skipBlanks cs with
    | '"' :: rest => string? rest
    | '[' :: rest =>
      if room == 0 then none
      else match skipBlanks rest with
        | ']' :: rest => some (array [], rest)
        | rest => (items? (room - 1) fuel rest).map fun (vs, rest) => (array vs, rest)
    | '\x7b' :: rest =>
      if room == 0 then none
      else match skipBlanks rest with
        | '\x7d' :: rest => some (object [], rest)
        | rest => (members? (room - 1) fuel rest).map fun (ms, rest) => (object ms, rest)
    | cs => word? cs

def items? (room : Nat) : Nat → List Char → Option (List JsonValue × List Char)
  | 0, _ => none
  | fuel + 1, cs => do
    let (v, cs) ← value? room fuel cs
    match skipBlanks cs with
    | ',' :: rest =>
      let (vs, rest) ← items? room fuel rest
      some (v :: vs, rest)
    | ']' :: rest => some ([v], rest)
    | _ => none

def members? (room : Nat) : Nat → List Char → Option (List (String × JsonValue) × List Char)
  | 0, _ => none
  | fuel + 1, cs =>
    match skipBlanks cs with
    | '"' :: cs => do
      let (name, cs) ← chars? (cs.length + 1) cs
      let ':' :: cs := skipBlanks cs | none
      let (v, cs) ← value? room fuel cs
      match skipBlanks cs with
      | ',' :: rest =>
        let (ms, rest) ← members? room fuel rest
        some ((.ofList name, v) :: ms, rest)
      | '\x7d' :: rest => some ([(.ofList name, v)], rest)
      | _ => none
    | _ => none

end

def maxDepth : Nat := 10000

def parse? (text : String) : Option JsonValue := do
  let cs := text.toList
  let (v, rest) ← value? maxDepth (2 * cs.length + 2) cs
  if (skipBlanks rest).isEmpty then some v else none

end TaskNet.JsonValue
