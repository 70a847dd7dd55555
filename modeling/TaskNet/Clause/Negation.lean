import TaskNet.Tree.Pool

/-!
Negation normal form. Negations are pushed down by double negation and De Morgan's laws until each
stands over something that is not logical. The pass works from the top down and from left to
right, also inside the arguments of what is not logical; error nodes are leaves.
-/

namespace TaskNet.Tree

/-- The operator that De Morgan's laws put for a negated conjunction or disjunction. -/
def dual : Content → Operator
  | .op .or => .and
  | _ => .or

/-- What became of the first operand of a negation: the negation stays over it, or another tree
stands in the place of the whole negation. -/
inductive Negated where
  | kept (operand : Tree)
  | replaced (t : Tree)

mutual

/-- Brings a tree into negation normal form. -/
def pushNegations (p : Pool) : Tree → Tree × Pool
  | mk n cs =>
    if p.stopped then (mk n cs, p)
    else
      match n.content with
      | .op .not =>
        match cs with
        | [] => (mk n [], p)
        | c :: rest =>
          match negate p n rest c with
          | (.replaced t, p) => (t, p)
          | (.kept c, p) =>
            let (rest, p) := pushNegationsList p rest
            (mk n (c :: rest), p)
      | .error _ _ => (mk n cs, p)
      | _ =>
        let (cs, p) := pushNegationsList p cs
        (mk n cs, p)

def pushNegationsList (p : Pool) : List Tree → List Tree × Pool
  | [] => ([], p)
  | t :: ts =>
    let (t, p) := pushNegations p t
    let (ts, p) := pushNegationsList p ts
    (t :: ts, p)

/-- Resolves the negation `n` over its first operand; `rest` are the operands after it, which a
well-formed negation does not have. The new nodes of De Morgan's laws have consecutive identities:
first the dual operator, then the negations of its operands. -/
def negate (p : Pool) (n : Node) (rest : List Tree) : Tree → Negated × Pool
  | mk m ds =>
    match m.content with
    | .op .not =>
      match ds with
      | [] => (.kept (mk m []), p.halt (.fault .detachOfTop))
      | e :: more =>
        let (t, p) := pushNegations (p.discard (mk n (mk m more :: rest))) e
        (.replaced t, p)
    | .op .and | .op .or =>
      let taken := (p.take (1 + ds.length)).discard (mk n (mk m [] :: rest))
      let (cs, q) := negateEach (p.next + 1) taken ds
      (.replaced (operator p.next (dual m.content) m.loc cs), q)
    | .error _ _ => (.kept (mk m ds), p)
    | _ =>
      let (ds, p) := pushNegationsList p ds
      (.kept (mk m ds), p)

/-- Negates every tree of a list, with negations of consecutive identities from `x` on. -/
def negateEach (x : NodeId) (p : Pool) : List Tree → List Tree × Pool
  | [] => ([], p)
  | d :: ds =>
    if p.stopped then
      let (cs, p) := negateEach (x + 1) p ds
      (operator x .not d.loc [d] :: cs, p)
    else
      let n : Node := ⟨x, .any, d.loc, .op .not⟩
      match negate p n [] d with
      | (.replaced t, p) =>
        let (cs, p) := negateEach (x + 1) p ds
        (t :: cs, p)
      | (.kept c, p) =>
        let (cs, p) := negateEach (x + 1) p ds
        (mk n [c] :: cs, p)

end

end TaskNet.Tree
