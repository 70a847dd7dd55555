import TaskNet.Number.Binary64

/-!
Shortest decimal text of a double-precision number. The digits are those of the coarsest decimal
grid that has a point among the reals which round to the number; of two such points the nearer one
is taken, and of two equally near ones the even one. The text is positional for moderate exponents
and scientific otherwise.
-/

namespace TaskNet.Number

/-- The sign of `a * 10 ^ p` minus `b * 2 ^ s`. -/
def compareScaled (a : Nat) (p : Int) (b : Nat) (s : Int) : Ordering :=
  compare (a * Nat.pow 10 p.toNat * Nat.pow 2 (-s).toNat)
    (b * Nat.pow 2 s.toNat * Nat.pow 10 (-p).toNat)

namespace Binary64

/-- Whether `d * 10 ^ p` rounds to the positive number `x`. The interval of such reals reaches half
way to the neighbours and holds its ends when the significand is even; below a power of two the
lower neighbour is only half as far away. -/
def roundsTo (x : Binary64) (d : Nat) (p : Int) : Bool :=
  let m := x.significand
  let s := x.exponent - 2
  let below := if x.fractionField == 0 && 1 < x.exponentField then 1 else 2
  let low := compareScaled d p (4 * m - below) s
  let high := compareScaled d p (4 * m + 2) s
  if m % 2 == 0 then low != .lt && high != .gt else low == .gt && high == .lt

/-- The greatest `d` with `d * 10 ^ p` at most `x`. -/
def floorOnGrid (x : Binary64) (p : Int) : Nat :=
  (x.significand * Nat.pow 2 x.exponent.toNat * Nat.pow 10 (-p).toNat) /
    (Nat.pow 10 p.toNat * Nat.pow 2 (-x.exponent).toNat)

/-- Whether `d * 10 ^ p` stands for `x` rather than `(d + 1) * 10 ^ p`: it is nearer, or as near and
`d` is even. -/
def nearerBelow (x : Binary64) (d : Nat) (p : Int) : Bool :=
  match compareScaled (2 * d + 1) p (2 * x.significand) x.exponent with
  | .gt => true
  | .eq => d % 2 == 0
  | .lt => false

/-- The point of the grid of step `10 ^ p` that stands for `x`, if one rounds to it. -/
def onGrid? (x : Binary64) (p : Int) : Option Nat :=
  let d := x.floorOnGrid p
  match 0 < d && x.roundsTo d p, x.roundsTo (d + 1) p with
  | true, true => some (if x.nearerBelow d p then d else d + 1)
  | true, false => some d
  | false, true => some (d + 1)
  | false, false => none

/-- Searches the grids from step `10 ^ (n - 344)` down to finer ones. -/
def shortestFrom (x : Binary64) : Nat → Nat × Int
  | 0 => (0, 0)
  | n + 1 =>
    let p : Int := (n : Int) - 343
    match x.onGrid? p with
    | some d => (d, p)
    | none => x.shortestFrom n

/-- The digits `d` and the exponent `p` of the shortest decimal `d * 10 ^ p` that rounds to the
positive number `x`. -/
def shortest (x : Binary64) : Nat × Int :=
  x.shortestFrom 653

end Binary64

/-- When a number is written positionally: for decimal exponents in this range. -/
structure DecimalStyle where
  least : Int
  below : Int

/-- Literals are written positionally from `0.0001` up to six digits before the point. -/
def literalStyle : DecimalStyle := ⟨-4, 6⟩

/-- The exponent of scientific notation, with a sign and at least two digits. -/
def exponentText (x : Int) : String :=
  let digits := toString x.natAbs
  (if x < 0 then "e-" else "e+") ++ (if digits.length < 2 then "0" ++ digits else digits)

/-- Writes the decimal `d * 10 ^ p` in the given style. -/
def decimalText (style : DecimalStyle) (d : Nat) (p : Int) : String :=
  let digits := Nat.toDigits 10 d
  let x : Int := p + digits.length - 1
  if x < style.least || style.below ≤ x then
    let fraction := digits.drop 1
    String.ofList (digits.take 1 ++ (if fraction.isEmpty then [] else '.' :: fraction)) ++
      exponentText x
  else if x < 0 then
    "0." ++ String.ofList (List.replicate (-x - 1).toNat '0' ++ digits)
  else
    let whole := (x + 1).toNat
    if digits.length ≤ whole then
      String.ofList (digits ++ List.replicate (whole - digits.length) '0')
    else
      String.ofList (digits.take whole ++ '.' :: digits.drop whole)

def Binary64.text (x : Binary64) : String :=
  if x.isSpecial then
    if x.fractionField != 0 then "NaN" else if x.isNegative then "-Inf" else "+Inf"
  else
    let sign := if x.isNegative then "-" else ""
    if x.significand == 0 then sign ++ "0"
    else
      let (d, p) := x.shortest
      sign ++ decimalText literalStyle d p

end TaskNet.Number
