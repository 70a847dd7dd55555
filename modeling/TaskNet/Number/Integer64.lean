/-!
Signed integers of 64 bits. They are read from a sign and a magnitude, where the negative range
reaches one further than the positive one, and sums that leave the range wrap around.
-/

namespace TaskNet.Number

/-- The magnitude of the least integer of 64 bits; every positive one is below it. -/
def integerBound : Nat := 9223372036854775808

/-- The integer with a sign and a magnitude, none when 64 bits do not hold it. -/
def integer64? (negative : Bool) (n : Nat) : Option Int :=
  if negative then if n ≤ integerBound then some (-(n : Int)) else none
  else if n < integerBound then some (n : Int) else none

/-- The integer of 64 bits that differs from an integer by a multiple of `2 ^ 64`. -/
def wrap64 (n : Int) : Int :=
  n.bmod 18446744073709551616

end TaskNet.Number
