import TaskNet.Function.Signature

/-!
Overload tables. A table keeps for each name the signatures registered since the name was last
removed, in order and each once. Resolution takes the overload of least total widening cost, and of
those with equal cost the one registered first.
-/

namespace TaskNet

/-- The overloads of one name in registration order, with the digests seen so far. -/
structure OverloadSet where
  digests : List UInt64
  signatures : List Signature
  deriving Repr

namespace OverloadSet

def empty : OverloadSet := ⟨[], []⟩

/-- Adds a signature unless it is there already, and gives the place of the overload that stands for
it. A digest not seen before needs no comparison; under one that was seen the signatures themselves
are compared, so a collision of digests drops nothing. -/
def insertBy (digest : Signature → UInt64) (o : OverloadSet) (sig : Signature) :
    OverloadSet × Nat :=
  if o.digests.contains (digest sig) then
    match o.signatures.idxOf? sig with
    | some place => (o, place)
    | none => (⟨o.digests, o.signatures ++ [sig]⟩, o.signatures.length)
  else (⟨digest sig :: o.digests, o.signatures ++ [sig]⟩, o.signatures.length)

end OverloadSet

/-- A table of overloads: names with their signatures. No name occurs twice. -/
structure OverloadTable where
  entries : List (String × OverloadSet)
  deriving Repr

inductive ResolveError where
  | unknownFunction (name : String)
  | noOverload (name : String) (args : List TypeTag)
  deriving DecidableEq, Repr

def ResolveError.message : ResolveError → String
  | .unknownFunction name => name ++ ": unknown function"
  | .noOverload name args => name ++ Signature.listText args ++ ": no matching overload"

namespace OverloadTable

def empty : OverloadTable := ⟨[]⟩

def find? (t : OverloadTable) (name : String) : Option OverloadSet :=
  t.entries.lookup name

def has (t : OverloadTable) (name : String) : Bool :=
  (t.find? name).isSome

def overloads (t : OverloadTable) (name : String) : List Signature :=
  match t.find? name with
  | some o => o.signatures
  | none => []

def put (name : String) (o : OverloadSet) :
    List (String × OverloadSet) → List (String × OverloadSet)
  | [] => [(name, o)]
  | (n, old) :: rest => if n == name then (n, o) :: rest else (n, old) :: put name o rest

/-- Adds a signature as the next overload of a name, with a given digest, and gives the place of the
overload that stands for it. -/
def registerBy (digest : Signature → UInt64) (t : OverloadTable) (name : String)
    (sig : Signature) : OverloadTable × Nat :=
  let (o, place) := ((t.find? name).getD .empty).insertBy digest sig
  (⟨put name o t.entries⟩, place)

/-- Adds a signature as the next overload of a name. A signature that the name already has is kept
as it stands. -/
def register (t : OverloadTable) (name : String) (sig : Signature) : OverloadTable × Nat :=
  t.registerBy Signature.hash name sig

def remove (t : OverloadTable) (name : String) : OverloadTable :=
  ⟨t.entries.filter fun e => e.1 != name⟩

/-- All registered names in increasing order. -/
def names (t : OverloadTable) : List String :=
  (t.entries.map Prod.fst).mergeSort fun a b => decide (a ≤ b)

/-- The total widening cost of passing arguments to parameters, none when their numbers differ or
some argument does not convert. -/
def costOf : List TypeTag → List TypeTag → Option Nat
  | [], [] => some 0
  | arg :: args, param :: params =>
    match arg.wideningCost param, costOf args params with
    | some c, some rest => some (c + rest)
    | _, _ => none
  | _, _ => none

def rank (sig : Signature) (args : List TypeTag) : Option Nat :=
  costOf args sig.params

/-- The better of the best overload so far and the next one: an applicable overload wins over none,
and a later one wins by a strictly lower cost only. -/
def better (args : List TypeTag) (best : Option (Signature × Nat)) (sig : Signature) :
    Option (Signature × Nat) :=
  match rank sig args, best with
  | none, _ => best
  | some r, none => some (sig, r)
  | some r, some (b, rb) => if r < rb then some (sig, r) else some (b, rb)

def resolve (t : OverloadTable) (name : String) (args : List TypeTag) :
    Except ResolveError Signature :=
  match t.find? name with
  | none => .error (.unknownFunction name)
  | some o =>
    match o.signatures.foldl (better args) none with
    | none => .error (.noOverload name args)
    | some (sig, _) => .ok sig

end OverloadTable

end TaskNet
