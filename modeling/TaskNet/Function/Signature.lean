import TaskNet.TypeTag

/-!
Function signatures: a return type and ordered parameter types. The hash is FNV-1a over the codes of
the return type, the number of parameters and the parameters.
-/

namespace TaskNet

/-- One overload of a function. -/
structure Signature where
  result : TypeTag
  params : List TypeTag
  deriving DecidableEq, Repr

namespace Signature

def arity (s : Signature) : Nat :=
  s.params.length

def listText (types : List TypeTag) : String :=
  "(" ++ ", ".intercalate (types.map TypeTag.name) ++ ")"

/-- The text of a signature, such as `(vec3, vec3): float`. -/
def text (s : Signature) : String :=
  listText s.params ++ ": " ++ s.result.name

/-- The bytes a signature is hashed by. The number of parameters counts modulo 256. -/
def digestBytes (s : Signature) : List UInt8 :=
  s.result.code :: s.arity.toUInt8 :: s.params.map TypeTag.code

def fnv1a (bytes : List UInt8) : UInt64 :=
  bytes.foldl (fun h b => (h ^^^ b.toUInt64) * 0x100000001b3) 0xcbf29ce484222325

/-- A structural hash: equal signatures have equal hashes. -/
def hash (s : Signature) : UInt64 :=
  fnv1a s.digestBytes

end Signature

end TaskNet
