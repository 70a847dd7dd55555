import TaskNet.Tree.Pool

/-!
Flattening: a conjunction below a conjunction, or a disjunction below a disjunction, is replaced by
its own operands in place. Order is kept, an empty one vanishes, and error nodes are leaves.
-/

namespace TaskNet.Tree

mutual

/-- Flattens a tree. The top node stays what it is. -/
def flatten (p : Pool) : Tree → Tree × Pool
  | mk n cs =>
    match n.content with
    | .error _ _ => (mk n cs, p)
    | .op .and =>
      let (cs, p) := splice .and p cs
      (mk n cs, p)
    | .op .or =>
      let (cs, p) := splice .or p cs
      (mk n cs, p)
    | _ =>
      let (cs, p) := flattenList p cs
      (mk n cs, p)

def flattenList (p : Pool) : List Tree → List Tree × Pool
  | [] => ([], p)
  | t :: ts =>
    let (t, p) := flatten p t
    let (ts, p) := flattenList p ts
    (t :: ts, p)

/-- Flattens the operands of the operator `o`, where operands that are the same operator give way to
their own. -/
def splice (o : Operator) (p : Pool) : List Tree → List Tree × Pool
  | [] => ([], p)
  | mk n cs :: ts =>
    if n.content = .op o then
      let (inner, p) := splice o p cs
      let (later, p) := splice o (p.discard (mk n [])) ts
      (inner ++ later, p)
    else
      let (t, p) := flatten p (mk n cs)
      let (later, p) := splice o p ts
      (t :: later, p)

end

end TaskNet.Tree
