/-!
The type tags of the planning language and their join. `any` is the unit of the join and
`notAType` absorbs; the numeric tags widen along `int8`, `int32`, `int64`, `float`, and every other
tag joins with itself only. Passing an argument is cheaper the fewer steps it widens by.
-/

namespace TaskNet

/-- The type of a variable, a parameter or an expression. A `foreign` tag has a code outside the
enumeration; it has no meaning of its own and only equals itself. -/
inductive TypeTag where
  | any
  | id32
  | id64
  | int8
  | int32
  | int64
  | float
  | vec3
  | factRef
  | notAType
  | foreign (code : UInt8)
  deriving DecidableEq, Repr, Inhabited

namespace TypeTag

/-- The tags of the enumeration in the order of their codes. -/
def enumeration : List TypeTag :=
  [any, id32, id64, int8, int32, int64, float, vec3, factRef, notAType]

def ofCode (code : UInt8) : TypeTag :=
  (enumeration[code.toNat]?).getD (foreign code)

def code : TypeTag → UInt8
  | any => 0
  | id32 => 1
  | id64 => 2
  | int8 => 3
  | int32 => 4
  | int64 => 5
  | float => 6
  | vec3 => 7
  | factRef => 8
  | notAType => 9
  | foreign c => c

def name : TypeTag → String
  | any => "any"
  | id32 => "id32"
  | id64 => "id64"
  | int8 => "int8"
  | int32 => "int32"
  | int64 => "int64"
  | float => "float"
  | vec3 => "vec3"
  | factRef => "fact"
  | notAType => "not_a_type"
  | foreign c => "tag(" ++ toString c.toNat ++ ")"

/-- The tags a variable can resolve to. -/
def concrete : List TypeTag :=
  [id32, id64, int8, int32, int64, float, vec3, factRef]

def isConcrete (t : TypeTag) : Bool :=
  concrete.contains t

/-- The place of a numeric tag in the order of widening, zero for all other tags. -/
def width : TypeTag → Nat
  | int8 => 1
  | int32 => 2
  | int64 => 3
  | float => 4
  | _ => 0

/-- Whether a tag takes part in numeric widening. -/
def isNumeric (t : TypeTag) : Bool :=
  0 < t.width

/-- The lower-case form of a character, as far as it is an ASCII letter. Two characters outside
ASCII have one: the capital I with a dot and the Kelvin sign. -/
def lowerChar (c : Char) : Char :=
  if c.toNat == 0x130 then 'i' else if c.toNat == 0x212A then 'k' else c.toLower

def lowerCase (s : String) : String :=
  String.ofList (s.toList.map lowerChar)

/-- The concrete tag with this name, in any case of letters. -/
def ofName? (s : String) : Option TypeTag :=
  concrete.find? fun t => t.name == lowerCase s

/-- The join of two tags. -/
def unify (a b : TypeTag) : TypeTag :=
  if a = notAType ∨ b = notAType then notAType
  else if a = any then b
  else if b = any then a
  else if a = b then a
  else if a.isNumeric && b.isNumeric then if b.width ≤ a.width then a else b
  else notAType

/-- The text of a failed join. -/
def unifyMessage (a b : TypeTag) : String :=
  "cannot unify " ++ a.name ++ " with " ++ b.name

/-- The cost of widening one numeric tag to another: one for each step between integers, and one
more for landing on `float`. -/
def wideningSteps (source target : TypeTag) : Option Nat :=
  if source.isNumeric && target.isNumeric && source.width ≤ target.width then
    some (target.width - source.width +
      (if target = float ∧ source ≠ float then 1 else 0))
  else none

/-- The cost of passing a value of the first type where the second is expected, none when there is
no implicit conversion. An unknown type on either side is accepted at cost one. -/
def wideningCost (source target : TypeTag) : Option Nat :=
  if source = notAType ∨ target = notAType then none
  else if source = target then some 0
  else if source = any ∨ target = any then some 1
  else wideningSteps source target

end TypeTag

end TaskNet
