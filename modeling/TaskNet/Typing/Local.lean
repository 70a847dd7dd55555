import TaskNet.Typing.Expression

/-!
The types of the variables of one case. Each variable has a slot that starts out unknown and takes
the join of what is known of its uses: parameters of facts and primitives, right sides of
assignments, and the other half of the case. The first join that fails ends the work on the case.
-/

namespace TaskNet

namespace Tree

mutual

def assignments : Tree → List Tree
  | mk n cs =>
    match n.content with
    | .error _ _ => []
    | .op .assign => [mk n cs]
    | _ => assignmentsList cs

/-- The assignments of a list of trees that are not inside of other assignments. -/
def assignmentsList : List Tree → List Tree
  | [] => []
  | t :: ts => assignments t ++ assignmentsList ts

end

end Tree

namespace Infer

/-- Joins the parameter types of a declaration into the slots of the variables passed to them. Says
whether all joins exist. -/
def joinArguments (slots : Slots) : List (Tree × Tree) → Infer Bool
  | [] => pure true
  | (arg, param) :: rest =>
    match arg.content with
    | .var v =>
      match slots.find? v.name with
      | none => joinArguments slots rest
      | some i => do
        let want ← typeOf param.id
        let known ← slot i
        match ← join arg.loc v.name known want with
        | none => pure false
        | some u => do
          setSlot i u
          joinArguments slots rest
    | _ => joinArguments slots rest

/-- Joins the parameter types of the declarations that calls resolved to, for those that pass a
test. -/
def joinCalls (env : TypingContext) (accept : Site → Bool) (slots : Slots) :
    List Tree → Infer Bool
  | [] => pure true
  | t :: ts =>
    match (env.declaration? t.content).filter accept with
    | none => joinCalls env accept slots ts
    | some s => do
      if ← joinArguments slots (t.children.zip s.params) then joinCalls env accept slots ts
      else pure false

/-- What one walk over the assignments of a case came to. -/
inductive Walked where
  | failed
  | unchanged
  | changed
  deriving DecidableEq

/-- Joins the types of right sides into the slots of left sides, once for each assignment. -/
def walkAssignments (env : TypingContext) (slots : Slots) :
    Walked → List Tree → Infer Walked
  | result, [] => pure result
  | result, t :: ts =>
    match t.children with
    | [] => throw .missingNode
    | target :: rest =>
      match target.content with
      | .var v => do
        let value ← exprType env (.slots slots) .peek (rest.getLast?.getD target)
        match slots.find? v.name with
        | none => walkAssignments env slots result ts
        | some i =>
          if value = .any then walkAssignments env slots result ts
          else do
            let known ← slot i
            match ← join target.loc v.name known value with
            | none => pure .failed
            | some u =>
              if u = known then walkAssignments env slots result ts
              else do
                setSlot i u
                walkAssignments env slots .changed ts
      | _ => throw .otherContent

/-- Walks over the assignments until no slot moves, at most a number of times. An assignment may
read a variable that is assigned after it. A slot moves at most four times. -/
def settleAssignments (env : TypingContext) (slots : Slots) (assignments : List Tree) :
    Nat → Infer Bool
  | 0 => pure true
  | n + 1 => do
    match ← walkAssignments env slots .unchanged assignments with
    | .failed => pure false
    | .unchanged => pure true
    | .changed => settleAssignments env slots assignments n

/-- Joins the slots of the variables that the precondition and the task list share. The second slot
of each is at the place of the entry. -/
def joinShared (env : TypingContext) (before : Slots) : Nat → List VarEntry → Infer Bool
  | _, [] => pure true
  | i, e :: es =>
    match (env.site? e.node).map fun s => s.tree.node with
    | some n =>
      match n.content with
      | .var v =>
        match before.find? v.name with
        | none => joinShared env before (i + 1) es
        | some j => do
          let p ← slot j
          let q ← slot i
          match ← join n.loc v.name p q with
          | none => pure false
          | some u => do
            setSlot j u
            setSlot i u
            joinShared env before (i + 1) es
      | _ => throw .otherContent
    | none => throw .missingNode

def joinParams (before : Slots) : List Tree → Infer Bool
  | [] => pure true
  | p :: ps =>
    match before.find? p.name with
    | none => joinParams before ps
    | some i => do
      let known ← slot i
      if known = .any then joinParams before ps
      else
        match ← join p.loc p.name (← typeOf p.id) known with
        | none => pure false
        | some u => do
          setType p.id u
          joinParams before ps

/-- Stores the types of the slots on the variables of a precondition. A binding occurrence must have
got a type. -/
def storePrecond (slots : Slots) : List Tree → Infer Unit
  | [] => pure ()
  | t :: ts => do
    match t.content with
    | .var v =>
      let u ← slotType slots v.name
      setType t.id u
      if v.binding && u = .any then
        report .unboundVar t.loc [.name v.name]
    | _ => pure ()
    storePrecond slots ts

def storeTasks (slots : Slots) : List Tree → Infer Unit
  | [] => pure ()
  | t :: ts => do
    match t.content with
    | .var v =>
      let u ← slotType slots v.name
      setType t.id u
    | _ => pure ()
    storeTasks slots ts

/-- The nodes of a part of a case that a traversal visits. -/
def visitedOf (part : Option Tree) : List Tree :=
  match part with
  | some t => t.visited
  | none => []

/-- Infers the types of the variables of a case from the joins that the slots take part in, one kind
of use after the other. -/
def inferSlots (env : TypingContext) (task : Tree) (info : Guarded) (before after : Slots) :
    Infer Unit := do
  let precond := env.tree? info.precond
  let tasks := env.tree? info.tasks
  let assignments := match precond with
    | some t => t.assignments
    | none => []
  let calls := match tasks with
    | some t => t.children
    | none => []
  if ← joinCalls env Site.isWorldFact before (visitedOf precond) then
    if ← settleAssignments env before assignments (4 * before.names.length + 1) then
      if ← joinCalls env Site.isPrimitive after calls then
        if ← joinShared env before after.base info.taskVars then
          if ← joinParams before (task.childrenOf .param) then
            storePrecond before (visitedOf precond)
            storeTasks after (visitedOf tasks)

def inferBranch (env : TypingContext) (task branch : Tree) : Infer Unit := do
  match branch.content with
  | .branch info =>
    let before := info.precondVars.map VarEntry.name
    let after := info.taskVars.map VarEntry.name
    withSlots (before.length + after.length) fun mark =>
      inferSlots env task info ⟨mark, before⟩ ⟨mark + before.length, after⟩
  | _ => pure ()

def inferBranches (env : TypingContext) : List (Tree × Tree) → Infer Unit
  | [] => pure ()
  | (task, branch) :: rest => do
    inferBranch env task branch
    inferBranches env rest

end Infer

end TaskNet
