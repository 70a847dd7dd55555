import TaskNet.Diagnostic.Basic

/-!
Collecting diagnostics. A collector only grows; order and duplicates are settled when it is read.
Diagnostics come out by location, and at one location by problem and text, and of equal neighbours
only one.
-/

namespace TaskNet

/-- The diagnostics recorded so far, oldest first. -/
structure Collector where
  recorded : List Diagnostic
  deriving Repr

namespace Collector

def empty : Collector := ⟨[]⟩

def append (c : Collector) (ds : List Diagnostic) : Collector :=
  ⟨c.recorded ++ ds⟩

def add (c : Collector) (problem : Problem) (loc : Location) (args : List Subject) : Collector :=
  c.append [Diagnostic.make problem loc args]

/-- The number of diagnostics recorded, duplicates included. -/
def size (c : Collector) : Nat :=
  c.recorded.length

/-- Whether `a` may stand before `b`: by line, column, problem and message. -/
def precedes (a b : Diagnostic) : Bool :=
  if a.loc.before b.loc then true
  else if b.loc.before a.loc then false
  else if a.problem != b.problem then a.problem.number ≤ b.problem.number
  else decide (a.message ≤ b.message)

/-- Drops every element that equals the one before it. -/
def compact : List Diagnostic → List Diagnostic
  | [] => []
  | [d] => [d]
  | d :: e :: rest => if d = e then compact (e :: rest) else d :: compact (e :: rest)

/-- The diagnostics in order, without neighbouring duplicates. -/
def sorted (c : Collector) : List Diagnostic :=
  compact (c.recorded.mergeSort precedes)

/-- The text of several diagnostics, one on each line under a count; a single one stands alone. -/
def errorText (ds : List Diagnostic) : String :=
  match ds with
  | [d] => d.text
  | _ => toString ds.length ++ " errors:\n" ++ "\n".intercalate (ds.map Diagnostic.text)

end Collector

end TaskNet
