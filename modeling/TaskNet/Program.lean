import TaskNet.Scratch
import TaskNet.Tree.Pool

/-!
A program: the tree of its declarations, the trees that were taken out of it but may still be
referred to, and what its names stand for once they are resolved.
-/

namespace TaskNet

namespace Tree

variable {m : Type → Type} [Monad m]

def mapKindM (k : Kind) (f : Tree → m Tree) (t : Tree) : m Tree := do
  let cs ← t.children.mapM fun c => if c.kind == k then f c else pure c
  pure (t.withChildren cs)

def mapFirstM (k : Kind) (f : Tree → m Tree) : List Tree → m (List Tree)
  | [] => pure []
  | t :: ts =>
    if t.kind == k then do
      let s ← f t
      pure (s :: ts)
    else do
      let ss ← mapFirstM k f ts
      pure (t :: ss)

/-- Applies an action to every case of every task of the domain. The action is given the task
too. -/
def mapBranchesM (f : Tree → Tree → m Tree) (root : Tree) : m Tree := do
  let cs ← mapFirstM .domain (fun domain =>
    domain.mapKindM .task fun task => task.mapKindM .branch (f task)) root.children
  pure (root.withChildren cs)

def branches (root : Tree) : List (Tree × Tree) :=
  match root.findChild? .domain with
  | none => []
  | some domain =>
    (domain.childrenOf .task).flatMap fun task => (task.childrenOf .branch).map (task, ·)

end Tree

/-- A node of a program: the tree below it and the node above it. -/
structure Site where
  tree : Tree
  parent : Option Node

namespace Tree

mutual

def sites (parent : Option Node) (table : Array (Option Site)) : Tree → Array (Option Site)
  | mk n cs => sitesList (some n) (table.setIfInBounds n.id (some ⟨mk n cs, parent⟩)) cs

def sitesList (parent : Option Node) (table : Array (Option Site)) :
    List Tree → Array (Option Site)
  | [] => table
  | t :: ts => sitesList parent (sites parent table t) ts

end

end Tree

/-- The nodes of a program by identity. -/
structure SiteTable where
  table : Array (Option Site)

def SiteTable.find? (s : SiteTable) (x : NodeId) : Option Site :=
  (s.table[x]?).join

namespace Site

def isFactOf (s : Site) (block : Kind) : Bool :=
  s.tree.kind == .fact && s.parent.any fun p => p.kind == block

def isWorldFact (s : Site) : Bool :=
  s.isFactOf .world

def isPrimitive (s : Site) : Bool :=
  s.isFactOf .primitives

def params (s : Site) : List Tree :=
  s.tree.childrenOf .param

end Site

/-- The part of a case with an identity, which may have been taken out of the case. -/
def Tree.part? (branch : Tree) (loose : List Tree) (x : NodeId) : Option Tree :=
  (branch.children.find? fun c => c.id == x).or (findList? x loose)

/-- Puts a tree in the place of a part of a case, or of what was taken out of it. -/
def Tree.putPart (branch : Tree) (loose : List Tree) (x : NodeId) (new : Tree) :
    Tree × List Tree :=
  if branch.children.any fun c => c.id == x then
    (branch.withChildren (branch.children.map fun c => if c.id == x then new else c), loose)
  else (branch, replaceList x new loose)

/-- What a name of a fact, primitive or task stands for. -/
structure Declaration where
  id : NodeId
  name : String
  loc : Location
  /-- The number of parameters. -/
  arity : Nat
  deriving DecidableEq, Repr

def Declaration.ofTree (t : Tree) : Declaration :=
  ⟨t.id, t.name, t.loc, (t.childrenOf .param).length⟩

/-- The declarations of a program, each name once. -/
structure Declarations where
  facts : List Declaration
  primitives : List Declaration
  tasks : List Declaration
  deriving DecidableEq, Repr

namespace Declarations

def none : Declarations := ⟨[], [], []⟩

def find? (ds : List Declaration) (name : String) : Option Declaration :=
  ds.find? fun d => d.name == name

end Declarations

/-- A program in the course of its compilation. -/
structure Program where
  root : Tree
  /-- Trees that are not part of the program any more. -/
  loose : List Tree
  /-- The next free identity. -/
  next : NodeId
  declarations : Declarations

namespace Program

def empty : Program :=
  ⟨.mk ⟨0, .any, .nowhere, .root⟩ [], [], 1, .none⟩

/-- Turns the node at the end of a path into an error. Gives the kind it had. -/
def markErrorAt (p : Program) (path : List Int) (problem : Problem) :
    Except Fault (Kind × Program) :=
  match p.root.descend? path with
  | none => .error .missingNode
  | some t => .ok (t.kind, { p with root := Tree.replace t.id (t.markError problem) p.root })

/-- Takes the tree at the end of a path out of the program. Gives the kind of its node. -/
def detachAt (p : Program) (path : List Int) : Except Fault (Kind × Program) :=
  match p.root.descend? path with
  | none => .error .missingNode
  | some t =>
    if t.id == p.root.id then .error .detachOfTop
    else .ok (t.kind, { p with root := p.root.erase t.id, loose := t :: p.loose })

/-- All nodes by identity, those of the trees taken out included. -/
def sites (p : Program) : SiteTable :=
  ⟨Tree.sitesList none (Array.replicate p.next none) (p.root :: p.loose)⟩

end Program

/-- A node on the scratch stack: its identity and name. -/
structure NodeRef where
  id : NodeId
  name : String
  deriving DecidableEq, Repr

/-- The scratch stacks that the passes share. -/
structure Scratch where
  nodes : Stack NodeRef
  tags : Stack TypeTag

def Scratch.empty : Scratch := ⟨.empty, .empty⟩

end TaskNet
