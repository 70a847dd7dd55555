import TaskNet.Number.Binary64
import TaskNet.Number.Integer64
import TaskNet.Text.Digits
import TaskNet.Toml.Basic

/-!
Words, numbers and points in time of a document. A scalar is a run of letters, digits and the marks
of numbers and dates; the run as a whole has to be of one of the forms.
-/

namespace TaskNet.Toml

open Number (integer64?)
open Text (isDigitOf digitsValue unsigned)

def isScalarChar (c : Char) : Bool :=
  c.isAlphanum || c == '_' || c == '+' || c == '-' || c == '.' || c == ':'

def ungroup (base : Nat) : List Char → Option (List Char)
  | [] => none
  | [c] => if isDigitOf base c then some [c] else none
  | c :: '_' :: rest =>
    if isDigitOf base c then (ungroup base rest).map (c :: ·) else none
  | c :: rest =>
    if isDigitOf base c then (ungroup base rest).map (c :: ·) else none

/-- The digits of a decimal without needless zeros in front. -/
def decimal? (cs : List Char) : Option (List Char) := do
  let digits ← ungroup 10 cs
  if digits.head? == some '0' && 1 < cs.length then none else some digits

/-- An integer: decimal with an optional sign, or without sign to a marked base. -/
def integer? : List Char → Option Int
  | '0' :: 'x' :: rest => (ungroup 16 rest).bind fun ds => integer64? false (digitsValue 16 ds)
  | '0' :: 'o' :: rest => (ungroup 8 rest).bind fun ds => integer64? false (digitsValue 8 ds)
  | '0' :: 'b' :: rest => (ungroup 2 rest).bind fun ds => integer64? false (digitsValue 2 ds)
  | cs =>
    let (negative, body) := unsigned cs
    (decimal? body).bind fun ds => integer64? negative (digitsValue 10 ds)

/-- The exponent of a float after its mark. -/
def exponent? (cs : List Char) : Option Int := do
  let (negative, body) := unsigned cs
  let digits ← ungroup 10 body
  let n : Int := Number.Binary64.exponentOf (digits.map Text.digitValue)
  some (if negative then -n else n)

/-- Whether a run is a float: infinite or undefined by name, or a decimal with a fraction, an
exponent or both that is not too large. -/
def isFloat (cs : List Char) : Bool :=
  let body := (unsigned cs).2
  if body == ['i', 'n', 'f'] || body == ['n', 'a', 'n'] then true
  else
    let mantissa := body.takeWhile fun c => c != 'e' && c != 'E'
    let power := body.drop mantissa.length
    let whole := mantissa.takeWhile (· != '.')
    let point := mantissa.drop whole.length
    let value : Option Number.Binary64 := do
      guard (!point.isEmpty || !power.isEmpty)
      let digits ← decimal? whole
      let fraction ← if point.isEmpty then some [] else ungroup 10 (point.drop 1)
      let exponent ← if power.isEmpty then some 0 else exponent? (power.drop 1)
      Number.Binary64.ofDecimal false (digitsValue 10 (digits ++ fraction))
        (exponent - fraction.length)
    value.isSome

def twoDigits? : List Char → Option (Nat × List Char)
  | a :: b :: rest => if a.isDigit && b.isDigit then some (digitsValue 10 [a, b], rest) else none
  | _ => none

def daysIn (year month : Nat) : Nat :=
  if month == 2 then
    if year % 4 == 0 && (year % 100 != 0 || year % 400 == 0) then 29 else 28
  else if month == 4 || month == 6 || month == 9 || month == 11 then 30
  else 31

def date? (cs : List Char) : Option (List Char) := do
  let (century, cs) ← twoDigits? cs
  let (year, cs) ← twoDigits? cs
  let '-' :: cs := cs | none
  let (month, cs) ← twoDigits? cs
  let '-' :: cs := cs | none
  let (day, cs) ← twoDigits? cs
  if 1 ≤ month && month ≤ 12 && 1 ≤ day && day ≤ daysIn (100 * century + year) month then some cs
  else none

/-- Takes the seconds of a time off the front of a run, with any number of places; they may be left
out. -/
def seconds? : List Char → Option (List Char)
  | ':' :: cs => do
    let (second, cs) ← twoDigits? cs
    if 60 ≤ second then none
    else match cs with
      | '.' :: rest =>
        let places := rest.takeWhile Char.isDigit
        if places.isEmpty then none else some (rest.drop places.length)
      | _ => some cs
  | cs => some cs

def time? (cs : List Char) : Option (List Char) := do
  let (hour, cs) ← twoDigits? cs
  let ':' :: cs := cs | none
  let (minute, cs) ← twoDigits? cs
  if 24 ≤ hour || 60 ≤ minute then none else seconds? cs

def isOffset (cs : List Char) : Bool :=
  let offset : List Char → Option (List Char) := fun cs => do
    let (hours, cs) ← twoDigits? cs
    let ':' :: cs := cs | none
    let (minutes, cs) ← twoDigits? cs
    if hours ≤ 24 && minutes ≤ 60 then some cs else none
  match cs with
  | [] => true
  | ['Z'] => true
  | ['z'] => true
  | '+' :: rest => offset rest == some []
  | '-' :: rest => offset rest == some []
  | _ => false

/-- Whether a run is a time of day with an optional offset. -/
def isClock (cs : List Char) : Bool :=
  ((time? cs).map isOffset).getD false

/-- Whether a run is a point in time: a date, a time of day, or a date and a time. -/
def isMoment (cs : List Char) : Bool :=
  match date? cs with
  | some [] => true
  | some ('T' :: rest) => isClock rest
  | some ('t' :: rest) => isClock rest
  | some _ => false
  | none => time? cs == some []

def scalarOf? (run : List Char) : Option Literal :=
  if run == ['t', 'r', 'u', 'e'] then some (.boolean true)
  else if run == ['f', 'a', 'l', 's', 'e'] then some (.boolean false)
  else match integer? run with
    | some n => some (.integer n)
    | none =>
      if isFloat run then some .float
      else if isMoment run then some .moment
      else none

/-- Takes a scalar off the front of a text. A blank may stand between a date and a time. -/
def scalar? (cs : List Char) : Option (Literal × List Char) :=
  let run := cs.takeWhile isScalarChar
  let rest := cs.drop run.length
  match date? run, rest with
  | some [], ' ' :: more =>
    let clock := more.takeWhile isScalarChar
    if isClock clock then some (.moment, more.drop clock.length) else some (.moment, rest)
  | _, _ => (scalarOf? run).map fun l => (l, rest)

end TaskNet.Toml
