import TaskNet.Number.Integer64
import TaskNet.Text.CaseFold
import TaskNet.Token.Scanner
import TaskNet.Tree.Kind

/-!
The values of number tokens. An integer must fit in 64 bits with its sign; a float is the nearest
double-precision number and must be finite.
-/

namespace TaskNet.Grammar

def digitsValue (bs : Text.Bytes) : Nat :=
  bs.foldl (fun n b => 10 * n + (b.toNat - 48)) 0

def exponentValue (bs : Text.Bytes) : Nat :=
  Number.Binary64.exponentOf (bs.map fun b => b.toNat - 48)

def integerValue? (negative : Bool) (lexeme : Text.Bytes) : Option Int :=
  Number.integer64? negative (digitsValue lexeme)

/-- The digits and the exponent of ten of a float lexeme. -/
def decimalOf (lexeme : Text.Bytes) : Nat × Int :=
  let whole := lexeme.takeWhile Scanner.isDigit
  let rest := lexeme.drop whole.length
  let frac := if rest.head? == some 46 then (rest.drop 1).takeWhile Scanner.isDigit else []
  let rest := if rest.head? == some 46 then rest.drop (1 + frac.length) else rest
  let power := (rest.drop 1).filter Scanner.isDigit
  let exponent : Int :=
    if (rest.drop 1).head? == some 45 then -(exponentValue power : Int) else exponentValue power
  (digitsValue (whole ++ frac), exponent - frac.length)

def floatValue? (negative : Bool) (lexeme : Text.Bytes) : Option Number.Binary64 :=
  let (digits, exponent) := decimalOf lexeme
  Number.Binary64.ofDecimal negative digits exponent

/-- Reads the text of a number with an optional sign; too large ones become infinite. The names of
the numbers that are not finite are read in any case, and only infinity has a sign. -/
def floatOfText? (text : String) : Option Number.Binary64 :=
  let bs := Text.bytesOf text
  let negative := bs.head? == some 45
  let body := if negative || bs.head? == some 43 then bs.drop 1 else bs
  let name := Text.ofAscii body
  if Text.equalFold name "inf" || Text.equalFold name "infinity" then some (.infinity negative)
  else if Text.equalFold (Text.ofAscii bs) "nan" then some .nan
  else if (body.head?.map fun b => Scanner.isDigit b || b == 46).getD false then
    some ((floatValue? negative body).getD (.infinity negative))
  else none

end TaskNet.Grammar
