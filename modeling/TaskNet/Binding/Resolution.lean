import TaskNet.Binding.Declared
import TaskNet.Session

/-!
Resolution of names. In a conjunct of a precondition a name is bound by its first occurrence as a
direct argument of a positive fact literal, or as the left side of an assignment; parameters of the
task are never bound. Every other occurrence refers to the parameter or to the binding occurrence.
Names in task lists and attributes must be bound in every conjunct and refer to the first.
-/

namespace TaskNet

/-- The state of a resolution. The binding occurrences of the case at hand stand on the stack. -/
structure Binder where
  stack : Stack NodeRef
  diagnostics : Collector
  loose : List Tree

abbrev Bind := StateM Binder

namespace Bind

def report (problem : Problem) (loc : Location) (args : List Subject) : Bind Unit :=
  modify fun s => { s with diagnostics := s.diagnostics.add problem loc args }

/-- The number of binding occurrences so far. -/
def mark : Bind Nat := do
  pure (← get).stack.size

end Bind

/-- The part of the stack that holds the binding occurrences of one conjunct. -/
structure Conjunct where
  start : Nat
  stop : Nat

/-- The occurrence that binds a name, among those at some places of the stack. -/
def Binder.bindingAt (s : Binder) (name : String) : List Nat → Except Fault (Option NodeId)
  | [] => .ok none
  | i :: is => do
    let r ← s.stack.get? i
    if r.name == name then pure (some r.id) else s.bindingAt name is

/-- The occurrence that binds a name in a conjunct. -/
def Bind.bindingIn (c : Conjunct) (name : String) : Bind (Option NodeId) :=
  modifyGet fun s =>
    match s.bindingAt name (List.range' c.start (c.stop - c.start)) with
    | .ok b => (b, s)
    | .error f => (none, { s with stack := s.stack.fail f })

namespace Tree

mutual

/-- Applies an action to every variable that a traversal meets. -/
def mapVariablesM {m : Type → Type} [Monad m] (f : Node → Variable → m Variable) :
    Tree → m Tree
  | mk n cs =>
    match n.content with
    | .var v => do
      let w ← f n v
      pure (mk { n with content := .var w } cs)
    | .error _ _ => pure (mk n cs)
    | _ => do
      let ds ← mapVariablesListM f cs
      pure (mk n ds)

def mapVariablesListM {m : Type → Type} [Monad m] (f : Node → Variable → m Variable) :
    List Tree → m (List Tree)
  | [] => pure []
  | t :: ts => do
    let s ← mapVariablesM f t
    let ss ← mapVariablesListM f ts
    pure (s :: ss)

end

/-- Adds the variables of a list of nodes to a table that lacks their names, the first occurrence of
each name. -/
def addVariables (table : List VarEntry) : List Tree → List VarEntry
  | [] => table
  | t :: ts =>
    match t.content with
    | .var v =>
      if table.any fun e => e.name == v.name then addVariables table ts
      else addVariables (table ++ [⟨v.name, t.id⟩]) ts
    | _ => addVariables table ts

/-- The first occurrence of every variable name of a tree in pre-order. -/
def variableTable (t : Tree) : List VarEntry :=
  addVariables [] t.visited

end Tree

/-- What names mean in a case: the declarations and the parameters of the task. -/
structure NameScope where
  declarations : Declarations
  params : List (String × NodeId)

namespace NameScope

/-- The names that a task brings into its cases; the first of equal parameters counts. -/
def ofTask (ds : Declarations) (task : Tree) : NameScope :=
  ⟨ds, (task.childrenOf .param).map fun p => (p.name, p.id)⟩

def param? (scope : NameScope) (name : String) : Option NodeId :=
  scope.params.lookup name

/-- Resolves a call to a declaration of a group and checks the number of arguments. -/
def linkCall (group : String) (d : Declaration) (c : Invocation) (t : Tree) : Bind Tree := do
  if t.children.length != d.arity then
    Bind.report .mismatchingNumberOfArgs t.loc [.name d.name, .group group]
  pure (t.withContent (.call { c with decl := some d.id }))

/-- Whether a name can not be bound any more in the conjunct that starts at a mark. -/
def isTaken (scope : NameScope) (start : Nat) (name : String) : Bind Bool := do
  let b ← Bind.bindingIn ⟨start, ← Bind.mark⟩ name
  pure ((scope.param? name).isSome || b.isSome)

def bindHere (t : Tree) (v : Variable) : Bind Tree := do
  modify fun s => { s with stack := s.stack.push ⟨t.id, v.name⟩ }
  pure (t.withContent (.var { v with binding := true, definition := none }))

/-- Binds an argument of a fact literal, if it is a variable whose name is free. -/
def bindArgument (scope : NameScope) (start : Nat) (t : Tree) : Bind Tree :=
  match t.content with
  | .var v => do
    if ← scope.isTaken start v.name then pure t else bindHere t v
  | _ => pure t

/-- Binds the left side of an assignment. A name that is not free makes it an error. -/
def bindTarget (scope : NameScope) (start : Nat) (t : Tree) : Bind Tree :=
  match t.content with
  | .var v => do
    if ← scope.isTaken start v.name then
      Bind.report .alreadyBound t.loc [.name v.name]
      pure (t.markError .alreadyBound)
    else bindHere t v
  | _ => pure t

/-- Resolves a call to a fact, if there is one of its name. -/
def linkFact (scope : NameScope) (t : Tree) : Bind Tree :=
  match t.content with
  | .call c =>
    match Declarations.find? scope.declarations.facts c.name with
    | some d => linkCall "fact" d c t
    | none => pure t
  | _ => pure t

/-- Finds the binding occurrences in a literal of the conjunct that starts at a mark. -/
def bindLiteral (scope : NameScope) (start : Nat) (t : Tree) : Bind Tree :=
  match t.content with
  | .call c =>
    match Declarations.find? scope.declarations.facts c.name with
    | some d => do
      let t ← linkCall "fact" d c t
      let cs ← t.children.mapM (scope.bindArgument start)
      pure (t.withChildren cs)
    | none => pure t
  | .op .assign =>
    match t.children with
    | [] => pure t
    | target :: rest => do
      let target ← scope.bindTarget start target
      pure (t.withChildren (target :: rest))
  | .op .not =>
    match t.children with
    | [] => pure t
    | c :: rest => do
      let c ← scope.linkFact c
      pure (t.withChildren (c :: rest))
  | _ => pure t

def linkInside (scope : NameScope) (c : Conjunct) (n : Node) (v : Variable) : Bind Variable := do
  if v.binding then pure v
  else
    match scope.param? v.name with
    | some p => pure { v with definition := some p }
    | none =>
      match ← Bind.bindingIn c v.name with
      | some b => pure { v with definition := some b }
      | none =>
        Bind.report .unboundVar n.loc [.name v.name]
        pure v

/-- Resolves the names of a conjunct: binding occurrences first, in the order of the literals, then
all other occurrences. -/
def resolveConjunct (scope : NameScope) (t : Tree) : Bind (Tree × Conjunct) := do
  let start ← Bind.mark
  let cs ← t.children.mapM (scope.bindLiteral start)
  let stop ← Bind.mark
  let t ← (t.withChildren cs).mapVariablesM (scope.linkInside ⟨start, stop⟩)
  pure (t, ⟨start, stop⟩)

def linkOutside (scope : NameScope) (conjuncts : List Conjunct) (n : Node) (v : Variable) :
    Bind Variable := do
  match scope.param? v.name with
  | some p => pure { v with definition := some p }
  | none =>
    let found := (← conjuncts.mapM (Bind.bindingIn · v.name)).filterMap fun b => b
    if found.isEmpty then
      Bind.report .unboundVar n.loc [.name v.name]
    else if found.length < conjuncts.length then
      Bind.report .notBoundInAllConjuncts n.loc [.name v.name]
    pure { v with definition := found.head? }

/-- Resolves an entry of a task list to a task or else a primitive. -/
def linkTask (scope : NameScope) (t : Tree) : Bind Tree :=
  match t.content with
  | .call c =>
    match Declarations.find? scope.declarations.tasks c.name,
      Declarations.find? scope.declarations.primitives c.name with
    | some d, _ => linkCall "task" d c t
    | none, some d => linkCall "primitive" d c t
    | none, none => do
      Bind.report .undeclaredTask t.loc [.name c.name]
      pure t
  | _ => pure t

def resolvePrecond (scope : NameScope) (t : Tree) : Bind (Tree × List Conjunct) := do
  let resolved ← t.children.mapM scope.resolveConjunct
  pure (t.withChildren (resolved.map Prod.fst), resolved.map Prod.snd)

def resolveTasks (scope : NameScope) (conjuncts : List Conjunct) (t : Tree) : Bind Tree := do
  let cs ← t.children.mapM scope.linkTask
  (t.withChildren cs).mapVariablesM (scope.linkOutside conjuncts)

end NameScope

/-- Applies an action to a part of a case, if it is there. -/
def onPart {α : Type} (branch : Tree) (part : Option NodeId) (absent : α)
    (f : Tree → Bind (Tree × α)) : Bind (Tree × α) := do
  match part with
  | none => pure (branch, absent)
  | some x =>
    match branch.part? (← get).loose x with
    | none => pure (branch, absent)
    | some t =>
      let (t, a) ← f t
      let s ← get
      let (branch, loose) := branch.putPart s.loose x t
      set { s with loose := loose }
      pure (branch, a)

namespace NameScope

/-- Resolves the names of a case and fills its tables of variables. -/
def resolveBranch (scope : NameScope) (branch : Tree) : Bind Tree := do
  match branch.content with
  | .branch info =>
    let base ← Bind.mark
    let (branch, conjuncts, precondVars) ← onPart branch info.precond ([], []) fun t => do
      let (t, conjuncts) ← scope.resolvePrecond t
      pure (t, conjuncts, t.variableTable)
    let branch ← branch.mapKindM .attr fun attr =>
      attr.mapVariablesM (scope.linkOutside conjuncts)
    let (branch, taskVars) ← onPart branch info.tasks [] fun t => do
      let t ← scope.resolveTasks conjuncts t
      pure (t, t.variableTable)
    modify fun s => { s with stack := s.stack.settle (s.stack.release base) }
    pure (branch.withContent (.branch
      { info with precondVars := precondVars, taskVars := taskVars }))
  | _ => pure branch

end NameScope

namespace Session

/-- Resolves the names of the program, whose preconditions are in disjunctive normal form. Says
whether no problem was found. -/
def resolveNames (s : Session) : Bool × Session :=
  let p := s.program
  let (declarations, reports) := declarationsOf p.root
  let start : Binder := ⟨s.scratch.nodes, s.diagnostics.append reports, p.loose⟩
  let (root, b) := (p.root.mapBranchesM fun task branch =>
    (NameScope.ofTask declarations task).resolveBranch branch).run start
  let added := b.diagnostics.size - s.diagnostics.size
  let s : Session :=
    { s with
      program := { p with root := root, loose := b.loose, declarations := declarations }
      diagnostics := b.diagnostics
      scratch := { s.scratch with nodes := b.stack } }
  (added == 0, s.record (.debug "annotated tree"
    [("facts", toString declarations.facts.length),
      ("primitives", toString declarations.primitives.length),
      ("tasks", toString declarations.tasks.length),
      ("diagnostics", toString added)]))

end Session

end TaskNet
