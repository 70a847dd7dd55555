import TaskNet.Tree.Kind

/-!
Syntax trees. A tree is a node and the ordered list of its children; every node has an identity, by
which variables refer to their definitions and calls to their declarations. Below an error node the
children are kept, but traversals do not enter it.
-/

namespace TaskNet

/-- A node without its children. -/
structure Node where
  id : NodeId
  type : TypeTag
  loc : Location
  content : Content
  deriving DecidableEq, Repr, Inhabited

def Node.kind (n : Node) : Kind :=
  n.content.kind

inductive Tree where
  | mk (node : Node) (children : List Tree)
  deriving Repr, Inhabited

namespace Tree

def node : Tree → Node
  | mk n _ => n

def children : Tree → List Tree
  | mk _ cs => cs

def id (t : Tree) : NodeId :=
  t.node.id

def kind (t : Tree) : Kind :=
  t.node.kind

def content (t : Tree) : Content :=
  t.node.content

def loc (t : Tree) : Location :=
  t.node.loc

/-- The name of the top node, empty when it has none. -/
def name (t : Tree) : String :=
  t.content.name

def withContent (t : Tree) (c : Content) : Tree :=
  mk { t.node with content := c } t.children

def withChildren (t : Tree) (cs : List Tree) : Tree :=
  mk t.node cs

def childrenOf (t : Tree) (k : Kind) : List Tree :=
  t.children.filter fun c => c.kind == k

def findChild? (t : Tree) (k : Kind) : Option Tree :=
  t.children.find? fun c => c.kind == k

def findAttribute? (t : Tree) (name : String) : Option Tree :=
  t.children.find? fun c => c.content == .attr name

/-- Turns the top node into an error that remembers its kind. Type, place and children stay. -/
def markError (t : Tree) (p : Problem) : Tree :=
  t.withContent (.error t.kind p)

mutual

def size : Tree → Nat
  | mk _ cs => 1 + sizeList cs

def sizeList : List Tree → Nat
  | [] => 0
  | t :: ts => size t + sizeList ts

end

mutual

/-- All nodes in pre-order, those below error nodes included. -/
def nodes : Tree → List Node
  | mk n cs => n :: nodesList cs

def nodesList : List Tree → List Node
  | [] => []
  | t :: ts => nodes t ++ nodesList ts

end

mutual

/-- All subtrees in pre-order that a traversal visits: an error node is visited, what lies below it
is not. -/
def visited : Tree → List Tree
  | mk n cs => mk n cs :: (if n.kind == .error then [] else visitedList cs)

def visitedList : List Tree → List Tree
  | [] => []
  | t :: ts => visited t ++ visitedList ts

end

def hasError (t : Tree) : Bool :=
  t.visited.any fun s => s.kind == .error

mutual

def find? (x : NodeId) : Tree → Option Tree
  | mk n cs => if n.id == x then some (mk n cs) else findList? x cs

def findList? (x : NodeId) : List Tree → Option Tree
  | [] => none
  | t :: ts =>
    match find? x t with
    | some s => some s
    | none => findList? x ts

end

mutual

def mapNodes (f : Node → Node) : Tree → Tree
  | mk n cs => mk (f n) (mapNodesList f cs)

def mapNodesList (f : Node → Node) : List Tree → List Tree
  | [] => []
  | t :: ts => mapNodes f t :: mapNodesList f ts

end

mutual

/-- Puts a tree in the place of the subtree with an identity. -/
def replace (x : NodeId) (new : Tree) : Tree → Tree
  | mk n cs => if n.id == x then new else mk n (replaceList x new cs)

def replaceList (x : NodeId) (new : Tree) : List Tree → List Tree
  | [] => []
  | t :: ts => replace x new t :: replaceList x new ts

end

mutual

/-- Takes the subtree with an identity out of the children of its parent. -/
def erase (x : NodeId) : Tree → Tree
  | mk n cs => mk n (eraseList x cs)

def eraseList (x : NodeId) : List Tree → List Tree
  | [] => []
  | t :: ts => if t.node.id == x then eraseList x ts else erase x t :: eraseList x ts

end

/-- The child at an index; an index below zero means the first. -/
def child? (t : Tree) (i : Int) : Option Tree :=
  t.children[i.toNat]?

def descend? : List Int → Tree → Option Tree
  | [], t => some t
  | i :: path, t =>
    match t.child? i with
    | some c => descend? path c
    | none => none

/-- Whether a tree is a literal of a clause: anything but a conjunction or disjunction, where a
negation stands over something that is not logical. -/
def isClauseLiteral : Tree → Bool
  | mk n cs =>
    match n.content with
    | .op .not =>
      match cs with
      | [] => false
      | c :: _ => !c.kind.isLogical
    | .op .and | .op .or => false
    | _ => true

mutual

/-- Whether a tree is built from constants and arithmetic only. -/
def isConstant : Tree → Bool
  | mk n cs =>
    match n.content with
    | .literal _ => true
    | .op o => o.isArithmetic && !cs.isEmpty && areConstant cs
    | _ => false

def areConstant : List Tree → Bool
  | [] => true
  | t :: ts => isConstant t && areConstant ts

end

end Tree

end TaskNet
