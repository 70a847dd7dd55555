import TaskNet.Clause.Negation
import TaskNet.Tree.Forest

/-!
Normal forms in a forest of linked nodes. Negations are pushed down, and nests of one operator are
flattened, by a walk in pre-order that relinks the node it is at and goes on from there. What stands
around the tree is left alone.
-/

namespace TaskNet.Surgery

def createOperator (o : Operator) (loc : Location) : Surgery NodeId :=
  create ⟨0, .any, loc, .op o⟩

/-- Takes a node from its parent and puts it, under a new negation, last among the children of
another. -/
def appendNegated (parent x : NodeId) : Surgery Unit := do
  detach (some x)
  let c ← cell (some x)
  let n ← createOperator .not c.node.loc
  append (some n) (some x)
  append (some parent) (some n)

/-- Resolves the negation at a node over its first operand: a double negation gives way to what is
below it, and a negated conjunction or disjunction to its dual. Gives the node that stands in the
place of the negation then, or none if there is nothing to resolve. -/
def resolveNegation (x : NodeId) : Surgery (Option NodeId) := do
  let c ← cell (some x)
  match c.node.content, c.links.first with
  | .op .not, some y =>
    let d ← cell (some y)
    match d.node.content with
    | .op .not =>
      detach d.links.first
      replace (some x) d.links.first
    | .op .and | .op .or =>
      let z ← createOperator (Tree.dual d.node.content) d.node.loc
      (← children y).forM (appendNegated z)
      replace (some x) (some z)
    | _ => pure none
  | _, _ => pure none

/-- Pushes negations down from a node on, below another one, if it does not take more than a number
of steps. What takes the place of a negation is looked at again before the walk goes on. Gives the
node that stands at the top then. -/
def pushDownWithin : Nat → NodeId → Option NodeId → Surgery NodeId
  | _, top, none => pure top
  | 0, _, some _ => endless
  | k + 1, top, some x => do
    match ← resolveNegation x with
    | some y => pushDownWithin k (if x = top then y else top) (some y)
    | none => pushDownWithin k top (← preorderNext (some top) (some x))

/-- Brings the tree below a node into negation normal form. Gives the node that stands in its place
then. The walk takes less than two steps for each node. -/
def pushDown (x : NodeId) : Surgery NodeId := do
  pushDownWithin (2 * (← get).count) x (some x)

/-- Whether a node below another one is a conjunction or disjunction and its parent is the same. -/
def isNested (top x : NodeId) : Surgery Bool := do
  match ← link .parent x with
  | some p =>
    if x = top then pure false
    else
      let c ← cell (some x)
      let d ← cell (some p)
      pure ((c.node.content == .op .and || c.node.content == .op .or) &&
        d.node.content == c.node.content)
  | none => pure false

/-- Puts nodes after a sibling, in their order, wherever they were before. -/
def moveAfter : NodeId → List NodeId → Surgery Unit
  | _, [] => pure ()
  | s, c :: cs => do
    detach (some c)
    insert (some s) (some c)
    moveAfter c cs

def dissolve (x : NodeId) : Surgery Unit := do
  moveAfter x (← children x)
  detach (some x)

/-- Dissolves the nested operators from a node on, below another one, if it does not take more than
a number of steps. Says whether there were any, or had been before. -/
def flattenWithin : Nat → NodeId → Bool → Option NodeId → Surgery Bool
  | _, _, changed, none => pure changed
  | 0, _, _, some _ => endless
  | k + 1, top, changed, some x => do
    if ← isNested top x then
      let next ← match ← link .first x with
        | some y => pure (some y)
        | none => nextAfter (some top) (some x)
      dissolve x
      flattenWithin k top true next
    else flattenWithin k top changed (← preorderNext (some top) (some x))

/-- One walk that flattens the tree below a node. Says whether it changed anything. -/
def flattenOnce (x : NodeId) : Surgery Bool := do
  flattenWithin (← get).count x false (some x)

/-- Walks that flatten the tree below a node, until one changes nothing, if there are not more than
a number. -/
def flattenRepeat : Nat → NodeId → Surgery Unit
  | 0, _ => endless
  | k + 1, x => do
    if ← flattenOnce x then flattenRepeat k x

/-- Flattens the tree below a node. A walk that changes something takes a node out of the tree. -/
def flattenAll (x : NodeId) : Surgery Unit := do
  flattenRepeat ((← get).count + 1) x

end TaskNet.Surgery
