import TaskNet.Macro.Table
import TaskNet.Program

/-!
Which macros call themselves. A macro calls those that its body refers to; it is recursive when some
chain of calls leads back to it. The search keeps the current chain on the scratch stack and enters
no macro twice on one chain, so it ends on every graph.
-/

namespace TaskNet.MacroTable

def callees (t : MacroTable) (m : Template) : List Template :=
  match m.body with
  | none => []
  | some b => b.visited.filterMap fun s => t.refer? m.scope s.content

/-- Whether one of some macros is the target or leads to it. The chain so far stands on the stack
above `base`. -/
def someLeads (visit : Stack NodeRef → Template → Bool × Stack NodeRef) (target : NodeId)
    (base : Nat) (s : Stack NodeRef) : List Template → Bool × Stack NodeRef
  | [] => (false, s)
  | c :: cs =>
    if c.id == target then (true, s)
    else if (s.since base).any fun r => r.id == c.id then someLeads visit target base s cs
    else
      match visit s c with
      | (true, s) => (true, s)
      | (false, s) => someLeads visit target base s cs

/-- Whether a macro leads to the target by a chain of at most `n` further macros. -/
def leads (t : MacroTable) (target : NodeId) (base : Nat) :
    Nat → Stack NodeRef → Template → Bool × Stack NodeRef
  | 0, s, _ => (false, s)
  | n + 1, s, m =>
    let (found, s) := someLeads (leads t target base n) target base (s.push ⟨m.id, m.name⟩)
      (t.callees m)
    (found, s.pop)

def isRecursive (t : MacroTable) (s : Stack NodeRef) (m : Template) : Bool × Stack NodeRef :=
  let (found, s') := leads t m.id s.size t.declared.length s m
  (found, s'.settle (s'.release s.size))

/-- The macros that lead back to themselves, in the order of declaration. -/
def recursiveOf (t : MacroTable) (s : Stack NodeRef) :
    List Template → List Template × Stack NodeRef
  | [] => ([], s)
  | m :: ms =>
    let (found, s) := t.isRecursive s m
    let (rest, s) := recursiveOf t s ms
    (if found then m :: rest else rest, s)

end TaskNet.MacroTable
