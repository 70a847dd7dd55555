/-!
Double-precision numbers as words of 64 bits: sign, eleven bits of exponent, fifty-two bits of
fraction. A decimal is read with a single rounding, to the nearest number with ties to the even
one, in exact integer arithmetic.
-/

namespace TaskNet.Number

/-- A double-precision number, given by its bits. -/
structure Binary64 where
  bits : UInt64
  deriving DecidableEq, Repr

namespace Binary64

def isNegative (x : Binary64) : Bool :=
  x.bits.toNat / Nat.pow 2 63 == 1

/-- The eleven bits of exponent. -/
def exponentField (x : Binary64) : Nat :=
  x.bits.toNat / Nat.pow 2 52 % Nat.pow 2 11

/-- The fifty-two bits of fraction. -/
def fractionField (x : Binary64) : Nat :=
  x.bits.toNat % Nat.pow 2 52

/-- Whether all exponent bits are set, as in the infinities and in what is no number. -/
def isSpecial (x : Binary64) : Bool :=
  x.exponentField == 2047

/-- The significand `m` of the absolute value `m * 2 ^ q`. -/
def significand (x : Binary64) : Nat :=
  if x.exponentField == 0 then x.fractionField else x.fractionField + Nat.pow 2 52

/-- The exponent `q` of the absolute value `m * 2 ^ q`. -/
def exponent (x : Binary64) : Int :=
  if x.exponentField == 0 then -1074 else (x.exponentField : Int) - 1075

def ofFields (negative : Bool) (field fraction : Nat) : Binary64 :=
  ⟨((if negative then Nat.pow 2 63 else 0) + field * Nat.pow 2 52 + fraction).toUInt64⟩

def zero (negative : Bool) : Binary64 :=
  ofFields negative 0 0

def infinity (negative : Bool) : Binary64 :=
  ofFields negative 2047 0

def nan : Binary64 :=
  ofFields false 2047 (Nat.pow 2 51 + 1)

/-- The integer nearest to `num / den`; a tie goes to the even one. -/
def roundHalfEven (num den : Nat) : Nat :=
  let floor := num / den
  let twice := 2 * (num % den)
  if twice < den then floor
  else if den < twice then floor + 1
  else if floor % 2 == 0 then floor else floor + 1

/-- The greatest `k` with `2 ^ k ≤ num / den`, for positive `num` and `den`. -/
def floorLog2 (num den : Nat) : Int :=
  let k : Int := (Nat.log2 num : Int) - Nat.log2 den
  if num * Nat.pow 2 (-k).toNat < den * Nat.pow 2 k.toNat then k - 1 else k

/-- The number nearest to `num / den`, none when it would be infinite. -/
def ofRatio (negative : Bool) (num den : Nat) : Option Binary64 :=
  if num == 0 then some (zero negative)
  else
    let q := max (floorLog2 num den - 52) (-1074)
    let m := roundHalfEven (num * Nat.pow 2 (-q).toNat) (den * Nat.pow 2 q.toNat)
    let (m, q) := if m == Nat.pow 2 53 then (Nat.pow 2 52, q + 1) else (m, q)
    if 971 < q then none
    else if m < Nat.pow 2 52 then some (ofFields negative 0 m)
    else some (ofFields negative (q + 1075).toNat (m - Nat.pow 2 52))

/-- The exponent that decimal digits give. Digits after the fifth do not count, since a number with
so large an exponent is out of range unless it has as many digits. -/
def exponentOf (digits : List Nat) : Nat :=
  digits.foldl (fun e d => if e < 10000 then 10 * e + d else e) 0

/-- The number nearest to `digits * 10 ^ exponent`, none when it would be infinite. Exponents that
are far out of range are decided without computing the power. -/
def ofDecimal (negative : Bool) (digits : Nat) (exponent : Int) : Option Binary64 :=
  if digits == 0 then some (zero negative)
  else
    let size : Int := (Nat.toDigits 10 digits).length
    if 310 < exponent + size then none
    else if exponent + size < -330 then some (zero negative)
    else ofRatio negative (digits * Nat.pow 10 exponent.toNat) (Nat.pow 10 (-exponent).toNat)

end Binary64

end TaskNet.Number
