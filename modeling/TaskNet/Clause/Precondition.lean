import TaskNet.Clause.Distribution
import TaskNet.Session

/-!
The preconditions of a program in disjunctive normal form. The precondition of every case is
replaced; a case whose clauses pass the bound keeps what had been reached by then.
-/

namespace TaskNet

structure Normalizer where
  next : NodeId
  loose : List Tree
  /-- The number of clauses of all preconditions that stayed within the bound. -/
  clauses : Nat
  /-- The cases that passed the bound, with their tasks. -/
  limited : List (Tree × Tree)
  /-- What could not be done. -/
  fault : Option Fault

/-- Brings the precondition of a case into disjunctive normal form. After a fault everything is left
as it stands. -/
def normalizeBranch (limit : Int) (task branch : Tree) : StateM Normalizer Tree :=
  modifyGet fun s =>
    match s.fault, branch.content with
    | none, .branch info =>
      match info.precond with
      | none => (branch, s)
      | some x =>
        match branch.part? s.loose x with
        | none => (branch, s)
        | some t =>
          let (new, pool) := t.toClauses limit (.start s.next)
          let (changed, loose) := branch.putPart s.loose x new
          let s := { s with next := pool.next, loose := pool.loose ++ loose }
          let linked := changed.withContent (.branch { info with precond := some new.id })
          match pool.stop with
          | some (.fault f) => (changed, { s with fault := some f })
          | some .limit => (linked, { s with limited := s.limited ++ [(task, branch)] })
          | none => (linked, { s with clauses := s.clauses + new.children.length })
    | _, _ => (branch, s)

namespace Session

structure Normalized where
  session : Session
  clauses : Nat
  limited : List (Tree × Tree)
  fault : Option Fault

/-- Brings the precondition of every case into disjunctive normal form, with a bound on the number
of clauses of each. -/
def normalize (limit : Int) (s : Session) : Normalized :=
  let p := s.program
  let (root, n) := (p.root.mapBranchesM (normalizeBranch limit)).run ⟨p.next, p.loose, 0, [], none⟩
  { session := { s with program := { p with root := root, loose := n.loose, next := n.next } }
    clauses := n.clauses
    limited := n.limited
    fault := n.fault }

end Session

end TaskNet
