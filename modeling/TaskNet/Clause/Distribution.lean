import TaskNet.Clause.Flatten
import TaskNet.Clause.Negation

/-!
Disjunctive normal form. After negations are pushed down and nests are flattened, a conjunction with
a disjunction among its operands is replaced by one conjunction for each alternative, leftmost
first, until every clause is a conjunction of literals. A bound on the number of clauses stops the
distribution before the step that would pass it.
-/

namespace TaskNet.Tree

/-- Whether a clause needs no distribution: it is a literal or a conjunction of literals. -/
def isSimple (t : Tree) : Bool :=
  t.isClauseLiteral || (t.kind == .op .and && t.children.all isClauseLiteral)

mutual

def disjunctions : Tree → Nat
  | mk n cs => (if n.content = .op .or then 1 else 0) + disjunctionsList cs

def disjunctionsList : List Tree → Nat
  | [] => 0
  | t :: ts => disjunctions t + disjunctionsList ts

end

/-- The operands before, at and after the first disjunction. -/
def splitAtOr : List Tree → Option (List Tree × Tree × List Tree)
  | [] => none
  | t :: ts =>
    if t.kind == .op .or then some ([], t, ts)
    else (splitAtOr ts).map fun (before, or, after) => (t :: before, or, after)

/-- The state of a distribution: the pool and the number of clauses there are. -/
structure Spread where
  pool : Pool
  total : Nat

/-- One conjunction for each alternative, each with its own copy of the other operands. -/
def alternatives (loc : Location) (before after : List Tree) (p : Pool) :
    List Tree → List Tree × Pool
  | [] => ([], p)
  | arg :: args =>
    let x := p.next
    let (b, mid) := copyList (x + 1) before
    let (a, next) := copyList mid after
    let (c, p) := flatten { p with next := next } (operator x .and loc (b ++ arg :: a))
    let (cs, p) := alternatives loc before after p args
    (c :: cs, p)

/-- Whether a number of clauses passes the bound; a bound of zero is none. -/
def passes (limit : Int) (clauses : Nat) : Bool :=
  0 < limit && limit < clauses

def expandEach (f : Spread → Tree → List Tree × Spread) (s : Spread) :
    List Tree → List Tree × Spread
  | [] => ([], s)
  | c :: cs =>
    let (ds, s) := f s c
    let (es, s) := expandEach f s cs
    (ds ++ es, s)

/-- The clauses that a clause with at most `n` disjunctions expands to. -/
def expandClause (limit : Int) : Nat → Spread → Tree → List Tree × Spread
  | n, s, clause =>
    if s.pool.stopped || clause.isSimple then ([clause], s)
    else
      match splitAtOr clause.children, n with
      | some (before, or, after), n + 1 =>
        let total := s.total - 1 + or.children.length
        if passes limit total then ([clause], { s with pool := s.pool.halt .limit })
        else
          let spent := clause.withChildren (before ++ or.withChildren [] :: after)
          let (clauses, p) := alternatives clause.loc before after (s.pool.discard spent)
            or.children
          expandEach (expandClause limit n) ⟨p, total⟩ clauses
      | _, _ => ([clause], { s with pool := s.pool.halt (.fault .noDisjunction) })

/-- Puts every clause that is no conjunction under one. -/
def wrapClauses (p : Pool) : List Tree → List Tree × Pool
  | [] => ([], p)
  | c :: cs =>
    if c.kind == .op .and then
      let (ds, p) := wrapClauses p cs
      (c :: ds, p)
    else
      let wrapped := operator p.next .and c.loc [c]
      let (ds, p) := wrapClauses (p.take 1) cs
      (wrapped :: ds, p)

/-- Brings a tree into disjunctive normal form under a new disjunction. When the transformation
stops, the result is the tree as far as it got. -/
def toClauses (limit : Int) (p : Pool) (t : Tree) : Tree × Pool :=
  let top : Node := ⟨p.next, .any, t.loc, .op .or⟩
  let (cs, p) := pushNegationsList (p.take 1) [t]
  if p.stopped then (mk top cs, p)
  else
    let (cs, p) := splice .or p cs
    let (clauses, s) := expandEach (fun s c => expandClause limit c.disjunctions s c)
      ⟨p, cs.length⟩ cs
    if s.pool.stopped then (mk top clauses, s.pool)
    else
      let (wrapped, p) := wrapClauses s.pool clauses
      (mk top wrapped, p)

end TaskNet.Tree
