import TaskNet.Program
import TaskNet.Tree.Printer
import TaskNet.Tree.Shape

/-!
What can be told about a program: for every case its two halves, its tables of variables and what
every variable and call was resolved to.
-/

namespace TaskNet

/-- How a node is mentioned: kind, name and place. -/
def Node.mention (n : Node) : String :=
  n.kind.label ++ " " ++ n.content.name ++ " " ++ n.loc.place

structure VariableReport where
  name : String
  written : String
  binding : Bool
  definition : Option String
  type : String

structure CallReport where
  name : String
  declaration : Option String
  signature : Option String
  type : String

structure BranchReport where
  task : String
  precond : Option String
  tasks : Option String
  precondVars : List String
  taskVars : List String
  uses : List VariableReport
  calls : List CallReport

namespace SiteTable

def mention? (sites : SiteTable) (x : Option NodeId) : Option String :=
  (x.bind sites.find?).map fun s => s.tree.node.mention

def compact? (sites : SiteTable) (x : Option NodeId) : Option String :=
  (x.bind sites.find?).map fun s => s.tree.compact

def placeIn (table : List VarEntry) (name : String) : Nat :=
  (table.findIdx? fun e => e.name == name).getD 0

/-- An entry of a table of variables: the place of the name that its node has by now, the name and
the type. -/
def entryText (sites : SiteTable) (table : List VarEntry) (e : VarEntry) : String :=
  match sites.find? e.node with
  | some s =>
    toString (placeIn table s.tree.name) ++ " " ++ s.tree.name ++ " " ++ s.tree.node.type.name
  | none => ""

def useOf? (sites : SiteTable) (t : Tree) : Option VariableReport :=
  match t.content with
  | .var v => some
    ⟨v.name, v.written, v.binding, sites.mention? v.definition, t.node.type.name⟩
  | _ => none

def callOf? (sites : SiteTable) (t : Tree) : Option CallReport :=
  match t.content with
  | .call c => some
    ⟨c.name, sites.mention? c.decl, c.signature.map Signature.text, t.node.type.name⟩
  | _ => none

def branchReport (sites : SiteTable) (task branch : Tree) : BranchReport :=
  let info := match branch.content with
    | .branch info => info
    | _ => .unset
  { task := task.name
    precond := sites.compact? info.precond
    tasks := sites.compact? info.tasks
    precondVars := info.precondVars.map (sites.entryText info.precondVars)
    taskVars := info.taskVars.map (sites.entryText info.taskVars)
    uses := branch.visited.filterMap sites.useOf?
    calls := branch.visited.filterMap sites.callOf? }

end SiteTable

namespace Program

def report (p : Program) : List BranchReport :=
  let sites := p.sites
  p.root.branches.map fun (task, branch) => sites.branchReport task branch

/-- Whether the printed tree reads back as its shape. -/
def readsBack (p : Program) : Bool :=
  match Shape.read p.root.print with
  | .ok shape => shape.beq p.root.shape
  | .error _ => false

/-- The places of the fact, the primitive and the task of a name. -/
def lookup (p : Program) (name : String) : Option String × Option String × Option String :=
  let place (ds : List Declaration) := (Declarations.find? ds name).map fun d => d.loc.place
  (place p.declarations.facts, place p.declarations.primitives, place p.declarations.tasks)

end Program

end TaskNet
