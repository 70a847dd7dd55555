import TaskNet.Fault

/-!
Scratch space. A stack holds the working set of one item at a time: values are pushed while the item
is worked on, and the stack is released back to a mark once it is done. What a stack cannot do is a
fault, and a stack that is worked on keeps the first one. A store only grows.
-/

namespace TaskNet

/-- A stack of working values, oldest first. -/
structure Stack (α : Type) where
  items : Array α
  fault : Option Fault
  deriving Repr

namespace Stack

variable {α : Type}

def empty : Stack α := ⟨#[], none⟩

/-- The greatest number of items that room can be asked for. -/
def maxCapacity : Int := 35184372088832

/-- A stack without items that has room for a number of them. -/
def ofCapacity (capacity : Int) : Except Fault (Stack α) :=
  if capacity < 0 ∨ maxCapacity < capacity then .error .outOfRange else .ok empty

def size (s : Stack α) : Nat :=
  s.items.size

/-- Puts an item on top. Its index is the size before. -/
def push (s : Stack α) (a : α) : Stack α :=
  { s with items := s.items.push a }

def pushMany (s : Stack α) (n : Nat) (a : α) : Stack α :=
  { s with items := s.items ++ Array.replicate n a }

/-- The item on top, and the stack without it. -/
def pop? (s : Stack α) : Except Fault (α × Stack α) :=
  match s.items.back? with
  | some a => .ok (a, { s with items := s.items.pop })
  | none => .error .outOfRange

def get? (s : Stack α) (i : Int) : Except Fault α :=
  if i < 0 then .error .outOfRange
  else
    match s.items[i.toNat]? with
    | some a => .ok a
    | none => .error .outOfRange

def set? (s : Stack α) (i : Int) (a : α) : Except Fault (Stack α) :=
  if i < 0 ∨ s.size ≤ i.toNat then .error .outOfRange
  else .ok { s with items := s.items.setIfInBounds i.toNat a }

/-- Drops what was pushed after a mark. -/
def shrinkTo (s : Stack α) (mark : Nat) : Stack α :=
  { s with items := s.items.take mark }

/-- Drops what was pushed after a mark, unless the mark lies above the top. -/
def release (s : Stack α) (mark : Nat) : Except Fault (Stack α) :=
  if s.size < mark then .error .releaseToFuture else .ok (s.shrinkTo mark)

def fail (s : Stack α) (f : Fault) : Stack α :=
  { s with fault := s.fault.or (some f) }

/-- What an operation leaves, or the stack with its fault. -/
def settle (s : Stack α) : Except Fault (Stack α) → Stack α
  | .ok t => t
  | .error f => s.fail f

/-- The stack without the item on top. -/
def pop (s : Stack α) : Stack α :=
  s.settle (s.pop?.map Prod.snd)

/-- The items from one mark up to another. -/
def between (s : Stack α) (start stop : Nat) : List α :=
  (s.items.extract start stop).toList

def since (s : Stack α) (mark : Nat) : List α :=
  s.between mark s.size

def indexSince? (s : Stack α) (mark : Nat) (p : α → Bool) : Option Nat :=
  ((s.since mark).findIdx? p).map (mark + ·)

end Stack

/-- A store of values in the order they were put in, none of which is ever dropped. -/
structure Store (α : Type) where
  values : Array α
  deriving Repr

namespace Store

variable {α : Type}

def empty : Store α := ⟨#[]⟩

def size (s : Store α) : Nat :=
  s.values.size

def putMany (s : Store α) (n : Nat) (a : α) : Store α :=
  ⟨s.values ++ Array.replicate n a⟩

end Store

end TaskNet
