import TaskNet.Tree.Basic

/-!
Macro declarations and how calls refer to them. Names resolve lexically: in a task its own macros
come first, then those of the domain; a macro body sees what its declaration sees. Names of facts
and primitives never mean a macro.
-/

namespace TaskNet

/-- A declared macro. -/
structure Template where
  id : NodeId
  name : String
  loc : Location
  /-- The names of the parameters. -/
  formals : List String
  /-- What a call is replaced with; a declaration may lack it. -/
  body : Option Tree
  /-- The task in which it is declared, none for the domain. -/
  scope : Option NodeId

namespace Template

/-- The body of a macro: its last child, unless that is a parameter. -/
def bodyOf (t : Tree) : Option Tree :=
  t.children.getLast?.filter fun b => b.kind != .param

def ofTree (scope : Option NodeId) (t : Tree) : Template :=
  ⟨t.id, t.name, t.loc, (t.childrenOf .param).map Tree.name, bodyOf t, scope⟩

end Template

structure MacroTable where
  /-- The names of facts and primitives. -/
  reserved : List String
  /-- All macros in the order of declaration. -/
  declared : List Template
  /-- The parameter names of each task. -/
  params : List (NodeId × List String)

namespace MacroTable

def declaredBy (t : Tree) : List Template :=
  match t.kind with
  | .template => [.ofTree none t]
  | .task => (t.childrenOf .template).map (.ofTree (some t.id))
  | _ => []

def factNames (block : Option Tree) : List String :=
  match block with
  | some b => (b.childrenOf .fact).map Tree.name
  | none => []

def ofTree (root domain : Tree) : MacroTable where
  reserved := factNames (root.findChild? .world) ++ factNames (root.findChild? .primitives)
  declared := domain.children.flatMap declaredBy
  params := (domain.childrenOf .task).map fun task =>
    (task.id, (task.childrenOf .param).map Tree.name)

def declaredIn? (t : MacroTable) (scope : Option NodeId) (name : String) : Option Template :=
  t.declared.find? fun m => m.scope == scope && m.name == name

def lookup? (t : MacroTable) (scope : Option NodeId) (name : String) : Option Template :=
  if t.reserved.contains name then none
  else
    match t.declaredIn? scope name with
    | some m => some m
    | none => t.declaredIn? none name

/-- The macro that a node refers to. A variable only refers to a macro without parameters. -/
def refer? (t : MacroTable) (scope : Option NodeId) : Content → Option Template
  | .call c => t.lookup? scope c.name
  | .var v => (t.lookup? scope v.name).filter fun m => m.formals.isEmpty
  | _ => none

def redefined (seen : List (Option NodeId × String)) : List Template → List Template
  | [] => []
  | m :: ms =>
    if seen.contains (m.scope, m.name) then m :: redefined seen ms
    else redefined ((m.scope, m.name) :: seen) ms

def scopeParams (t : MacroTable) (scope : Option NodeId) : List String :=
  match scope with
  | none => []
  | some task => ((t.params.find? fun p => p.1 == task).map Prod.snd).getD []

end MacroTable

end TaskNet
