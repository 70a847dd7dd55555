import TaskNet.Fault
import TaskNet.Tree.Basic

/-!
What a transformation of trees draws on and leaves behind: fresh identities, the trees that it took
out, and whether it had to stop. Once a transformation has stopped, the rest of a tree is left as it
stands.
-/

namespace TaskNet

/-- Why a transformation stopped. -/
inductive Stop where
  /-- The bound on the number of clauses was reached. -/
  | limit
  | fault (f : Fault)
  deriving DecidableEq, Repr

/-- The supply of a transformation. -/
structure Pool where
  /-- The next identity. -/
  next : NodeId
  /-- Trees that were taken out, newest first. -/
  loose : List Tree
  /-- Why the transformation stopped, if it did. -/
  stop : Option Stop

namespace Pool

/-- A supply from an identity on, with nothing taken out. -/
def start (next : NodeId) : Pool :=
  ⟨next, [], none⟩

def stopped (p : Pool) : Bool :=
  p.stop.isSome

def take (p : Pool) (n : Nat) : Pool :=
  { p with next := p.next + n }

def discard (p : Pool) (t : Tree) : Pool :=
  { p with loose := t :: p.loose }

def halt (p : Pool) (s : Stop) : Pool :=
  { p with stop := some s }

end Pool

namespace Tree

mutual

/-- A copy with identities from `next` on, in pre-order, and the next free identity. What is below
error nodes is copied too. References to other nodes stay as they are. -/
def copy (next : NodeId) : Tree → Tree × NodeId
  | mk n cs =>
    let (ds, after) := copyList (next + 1) cs
    (mk { n with id := next } ds, after)

def copyList (next : NodeId) : List Tree → List Tree × NodeId
  | [] => ([], next)
  | t :: ts =>
    let (s, mid) := copy next t
    let (ss, after) := copyList mid ts
    (s :: ss, after)

end

def copyIn (p : Pool) (t : Tree) : Tree × Pool :=
  let (s, after) := copy p.next t
  (s, { p with next := after })

/-- An operator node without a type. -/
def operator (x : NodeId) (o : Operator) (loc : Location) (cs : List Tree) : Tree :=
  mk ⟨x, .any, loc, .op o⟩ cs

end Tree

end TaskNet
