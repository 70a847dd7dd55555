import TaskNet.Typing.Local

/-!
Types across tasks. The types of parameters are joined with those of the arguments of every task
call until a sweep changes nothing; what is still unknown then is taken from the task lists. At the
end every expression is typed and checked.
-/

namespace TaskNet

namespace Infer

/-- Gives an unknown parameter of the calling task the type of the parameter that it is passed
for. Says whether that changed it. -/
def typeCaller (env : TypingContext) (arg : Tree) (type : TypeTag) : Infer Bool := do
  match arg.content with
  | .var v =>
    match v.definition.bind env.site? with
    | some d =>
      if d.tree.kind == .param && (← typeOf d.tree.id) = .any && type != .any then
        setType d.tree.id type
        pure true
      else pure false
    | none => pure false
  | _ => pure false

/-- Joins the types of the arguments of one call into the parameters of the task. An argument whose
type does not join is reported once. Says whether a type changed. -/
def sweepArguments (env : TypingContext) : List (Tree × Tree) → Infer Bool
  | [] => pure false
  | (arg, param) :: rest => do
    if (← get).reported.contains arg.id then sweepArguments env rest
    else
      let type ← exprType env .resolved .peek arg
      let known ← typeOf param.id
      match ← join arg.loc param.name known type with
      | none =>
        modify fun s => { s with reported := arg.id :: s.reported }
        sweepArguments env rest
      | some u =>
        if u != known then
          setType param.id u
        let typed ← typeCaller env arg u
        let later ← sweepArguments env rest
        pure (u != known || typed || later)

def sweepCalls (env : TypingContext) : List Tree → Infer Bool
  | [] => pure false
  | call :: rest => do
    let changed ← match (env.declaration? call.content).filter fun s => s.tree.kind == .task with
      | some s => sweepArguments env (call.children.zip s.params)
      | none => pure false
    let later ← sweepCalls env rest
    pure (changed || later)

def taskListOf (env : TypingContext) (branch : Tree) : Option Tree :=
  match branch.content with
  | .branch info => env.tree? info.tasks
  | _ => none

/-- The entries of the task list of a case. -/
def callsOf (env : TypingContext) (branch : Tree) : List Tree :=
  match taskListOf env branch with
  | some t => t.children
  | none => []

/-- Joins types along the task calls of every case, once. -/
def sweep (env : TypingContext) : List (Tree × Tree) → Infer Bool
  | [] => pure false
  | (_, branch) :: rest => do
    let changed ← sweepCalls env (callsOf env branch)
    let later ← sweep env rest
    pure (changed || later)

/-- Sweeps until nothing changes, at most a number of times, and counts the sweeps. -/
def propagateFor (env : TypingContext) (branches : List (Tree × Tree)) : Nat → Infer Nat
  | 0 => pure 0
  | n + 1 => do
    if ← sweep env branches then
      let more ← propagateFor env branches n
      pure (more + 1)
    else pure 1

/-- Sweeps until nothing changes. A parameter changes at most four times. -/
def propagate (env : TypingContext) (branches : List (Tree × Tree)) : Infer Nat :=
  propagateFor env branches (4 * env.paramCount + 1)

/-- Types parameters of a task that are still unknown by their uses in a task list. -/
def seedFrom (env : TypingContext) (task : Tree) : List Tree → Infer Unit
  | [] => pure ()
  | t :: ts => do
    match t.content with
    | .var v =>
      match v.definition.bind env.site? with
      | some d =>
        let use ← typeOf t.id
        if d.tree.kind == .param && d.parent.any (fun p => p.id == task.id) &&
            (← typeOf d.tree.id) = .any && use.isConcrete then
          setType d.tree.id use
      | none => pure ()
    | _ => pure ()
    seedFrom env task ts

def seed (env : TypingContext) : List (Tree × Tree) → Infer Unit
  | [] => pure ()
  | (task, branch) :: rest => do
    seedFrom env task (visitedOf (taskListOf env branch))
    seed env rest

def reportUntyped : List Tree → Infer Unit
  | [] => pure ()
  | p :: ps => do
    if (← typeOf p.id) = .any then
      report .failedToInferType p.loc [.name p.name]
    reportUntyped ps

def settleAttributes (env : TypingContext) : List Tree → Infer Unit
  | [] => pure ()
  | attr :: rest => do
    let _ ← exprTypes env .resolved .settle attr.children
    settleAttributes env rest

/-- Settles the types of a case, unless it has errors: those were reported before. -/
def settleBranch (env : TypingContext) (branch : Tree) : Infer Unit := do
  match branch.content with
  | .branch info =>
    if branch.hasError then pure ()
    else
      settleAttributes env (branch.childrenOf .attr)
      match env.tree? info.precond with
      | some t =>
        let _ ← exprType env .resolved .settle t
      | none => pure ()
      let _ ← exprTypes env .resolved .settle (callsOf env branch)
  | _ => pure ()

def settleBranches (env : TypingContext) : List (Tree × Tree) → Infer Unit
  | [] => pure ()
  | (_, branch) :: rest => do
    settleBranch env branch
    settleBranches env rest

def worldAttributes (root : Tree) : List Tree :=
  match root.findChild? .world with
  | some w => w.children.flatMap fun f => f.childrenOf .attr
  | none => []

def taskParams (root : Tree) : List Tree :=
  match root.findChild? .domain with
  | some d => (d.childrenOf .task).flatMap fun t => t.childrenOf .param
  | none => []

def problems : Infer Nat := do
  pure (← get).diagnostics.size

/-- Infers all types of a program. The number of sweeps is given when that phase was reached. -/
def inferAll (env : TypingContext) (root : Tree) : Infer (Option Nat) := do
  let start ← problems
  let branches := root.branches
  inferBranches env branches
  if (← problems) > start then pure none
  else
    let first ← propagate env branches
    seed env branches
    let second ← propagate env branches
    reportUntyped (taskParams root)
    if (← problems) > start then pure (some (first + second))
    else
      settleAttributes env (worldAttributes root)
      settleBranches env branches
      pure (some (first + second))

end Infer

def Typing.applyTo (s : Typing) (n : Node) : Node :=
  let type := (s.types[n.id]?).getD n.type
  match n.content, (s.signatures[n.id]?).join with
  | .call c, some sig => { n with type := type, content := .call { c with signature := some sig } }
  | _, _ => { n with type := type }

def Program.types (p : Program) : Array TypeTag :=
  (Tree.nodesList (p.root :: p.loose)).foldl
    (fun table n => table.setIfInBounds n.id n.type) (Array.replicate p.next .any)

namespace Session

/-- Infers the types of the program, whose names are resolved. Says whether no problem was found, or
what could not be done. -/
def inferTypes (functions : OverloadTable) (s : Session) : Except Fault Bool × Session :=
  let p := s.program
  let env := TypingContext.ofProgram functions p
  let start : Typing :=
    ⟨p.types, Array.replicate p.next none, s.scratch.tags, s.diagnostics, []⟩
  let (result, t) := (Infer.inferAll env p.root).run start
  let s : Session :=
    { s with
      program := { p with
        root := p.root.mapNodes t.applyTo
        loose := Tree.mapNodesList t.applyTo p.loose }
      diagnostics := t.diagnostics
      scratch := { s.scratch with tags := t.tags.shrinkTo s.scratch.tags.size } }
  match result with
  | .error f => (.error f, s)
  | .ok sweeps =>
    let s := match sweeps with
      | some n => s.record (.debug "global inference converged" [("iterations", toString n)])
      | none => s
    (.ok (t.diagnostics.size == start.diagnostics.size), s)

end Session

end TaskNet
