import TaskNet.Diagnostic.Collector
import TaskNet.Program

/-!
What a program declares, and the rules of declarations: each name once in its group, each parameter
once, each attribute once, and only constants for the size of a fact.
-/

namespace TaskNet

def byFirstName (seen : List String) : List Tree → List Tree × List Tree
  | [] => ([], [])
  | t :: ts =>
    if seen.contains t.name then
      let (firsts, repeats) := byFirstName seen ts
      (firsts, t :: repeats)
    else
      let (firsts, repeats) := byFirstName (t.name :: seen) ts
      (t :: firsts, repeats)

/-- The report that a name of a group is taken. -/
def redefinition (group : String) (t : Tree) : Diagnostic :=
  .make .redefinition t.loc [.name t.name, .group group]

/-- The declarations of a group and the reports of repeated names. -/
def declare (group : String) (ts : List Tree) : List Declaration × List Diagnostic :=
  let (firsts, repeats) := byFirstName [] ts
  (firsts.map .ofTree, repeats.map (redefinition group))

/-- The reports of repeated parameters. -/
def checkParams (t : Tree) : List Diagnostic :=
  (byFirstName [] (t.childrenOf .param)).2.map (redefinition "param")

/-- The reports on one attribute of a declaration, seen for the first time. -/
def checkAttribute (owner : Kind) (attr : Tree) : List Diagnostic :=
  if owner == .fact && attr.name == "size" then
    (attr.children.filter fun arg => !arg.isConstant).map fun arg =>
      .make .onlyConstExprAllowed arg.loc [.name attr.name]
  else []

def checkAttributes (t : Tree) : List Diagnostic :=
  let (firsts, repeats) := byFirstName [] (t.childrenOf .attr)
  firsts.flatMap (checkAttribute t.kind) ++
    repeats.map fun attr => .make .onlySingleAttrAllowed attr.loc [.name attr.name]

def checkTaskChild (t : Tree) : List Diagnostic :=
  match t.kind with
  | .branch => checkAttributes t
  | .template => checkParams t
  | _ => []

/-- The reports on a child of the domain, repeated task names apart. -/
def checkDomainChild (t : Tree) : List Diagnostic :=
  match t.kind with
  | .task => checkParams t ++ t.children.flatMap checkTaskChild
  | .template => checkParams t
  | _ => []

def Tree.childrenOfFirst (t : Tree) (k : Kind) : List Tree :=
  match t.findChild? k with
  | some c => c.children
  | none => []

def declarationsOf (root : Tree) : Declarations × List Diagnostic :=
  let world := root.childrenOfFirst .world
  let domain := root.childrenOfFirst .domain
  let (facts, factReports) := declare "fact" world
  let (primitives, primitiveReports) := declare "primitive" (root.childrenOfFirst .primitives)
  let (tasks, taskReports) := declare "task" (domain.filter fun t => t.kind == .task)
  (⟨facts, primitives, tasks⟩,
    factReports ++ world.flatMap checkAttributes ++ primitiveReports ++ taskReports ++
      domain.flatMap checkDomainChild)

end TaskNet
