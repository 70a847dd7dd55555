/-!
Names that are not in use. A fresh name is a base name with a number; the numbers only go up, so no
name is ever handed out twice.
-/

namespace TaskNet

/-- The names in use and the last number given. -/
structure NameSupply where
  taken : List String
  counter : Nat
  deriving Repr

namespace NameSupply

def numbered (base : String) (n : Nat) : String :=
  base ++ "_" ++ toString n

/-- The first of `tries` numbers from `k` on that makes a name not in use. -/
def firstFree (taken : List String) (base : String) : Nat → Nat → Nat
  | 0, k => k
  | tries + 1, k =>
    if taken.contains (numbered base k) then firstFree taken base tries (k + 1) else k

/-- A new name and the supply in which it is taken. One of as many numbers as there are names, and
one more, must be free. -/
def fresh (s : NameSupply) (base : String) : String × NameSupply :=
  let k := firstFree s.taken base (s.taken.length + 1) (s.counter + 1)
  let name := numbered base k
  (name, ⟨name :: s.taken, k⟩)

end NameSupply

end TaskNet
