import TaskNet.Tree.Pool

/-!
Forests of linked nodes. A forest holds every node that was made. Each node is linked to its parent,
to its first and last child and to the siblings before and after it, and trees are changed by
relinking nodes. The payloads of nodes are held apart from them, so that two nodes could share one.
An operation that is refused says why. What follows links comes to an end unless a node was put
under itself.
-/

namespace TaskNet

namespace Tree

mutual

/-- The subtrees that a traversal visits when it enters only nodes that pass a test, and never
errors. -/
def walk (enter : Node → Bool) : Tree → List Tree
  | mk n cs => mk n cs :: (if n.kind == .error || !enter n then [] else walkList enter cs)

def walkList (enter : Node → Bool) : List Tree → List Tree
  | [] => []
  | t :: ts => walk enter t ++ walkList enter ts

end

end Tree

/-- What a declaration of a kind carries, if the kind has a name. -/
def Content.named? (k : Kind) (name : String) : Option Content :=
  match k with
  | .fact => some (.fact name)
  | .task => some (.task name)
  | .template => some (.template name)
  | .attr => some (.attr name)
  | .domain => some (.domain name)
  | _ => none

/-- The directions in which a node is linked to others. -/
inductive Side where
  | parent
  | first
  | last
  | before
  | after
  deriving DecidableEq, Repr

structure Links where
  parent : Option NodeId
  first : Option NodeId
  last : Option NodeId
  before : Option NodeId
  after : Option NodeId
  deriving DecidableEq, Repr

namespace Links

def alone : Links :=
  ⟨none, none, none, none, none⟩

def side (l : Links) : Side → Option NodeId
  | .parent => l.parent
  | .first => l.first
  | .last => l.last
  | .before => l.before
  | .after => l.after

/-- Another node in a direction. -/
def set (l : Links) (y : Option NodeId) : Side → Links
  | .parent => { l with parent := y }
  | .first => { l with first := y }
  | .last => { l with last := y }
  | .before => { l with before := y }
  | .after => { l with after := y }

end Links

/-- The place of a payload among all that were made. -/
abbrev PayloadId := Nat

/-- What a node carries: a kind that says it all, or a payload. -/
inductive Data where
  | plain (c : Content)
  | payload (a : PayloadId)

/-- A node as it is held. -/
structure Cell where
  type : TypeTag
  loc : Location
  data : Data
  links : Links

/-- All nodes that were made; the identity of a node is its place. What nodes carry is there. -/
structure Forest where
  cells : Array Cell
  payloads : Array Content
  held : ∀ (x : Nat) (c : Cell) (a : PayloadId), cells[x]? = some c → c.data = .payload a →
    a < payloads.size

/-- A node as it is seen in its place. -/
structure View where
  node : Node
  data : Data
  links : Links

namespace Forest

def rootId : NodeId := 0

/-- What a node carries when it is made. -/
def blank (x : NodeId) : Node :=
  ⟨x, .any, .nowhere, .root⟩

def fresh : Cell :=
  ⟨.any, .nowhere, .plain .root, .alone⟩

/-- The forest that holds the root alone. -/
def start : Forest where
  cells := #[fresh]
  payloads := #[]
  held x c a found carried := by
    rw [Array.mem_singleton.mp (Array.mem_of_getElem? found)] at carried
    cases carried

def contentAt (f : Forest) : Data → Content
  | .plain c => c
  | .payload a => (f.payloads[a]?).getD .root

def view? (f : Forest) (x : NodeId) : Option View :=
  (f.cells[x]?).map fun c => ⟨⟨x, c.type, c.loc, f.contentAt c.data⟩, c.data, c.links⟩

/-- Changes a node, with new payloads behind those that are there. -/
def modify (f : Forest) (x : NodeId) (new : Array Content) (h : Cell → Cell)
    (valid : ∀ c a, (h c).data = .payload a → c.data = .payload a ∨ a < (f.payloads ++ new).size) :
    Forest where
  cells := f.cells.modify x h
  payloads := f.payloads ++ new
  held y c a found carried := by
    have old : ∀ d, f.cells[y]? = some d → d.data = .payload a → a < (f.payloads ++ new).size := by
      intro d there same
      rw [Array.size_append]
      exact Nat.lt_add_right _ (f.held y d a there same)
    rw [Array.getElem?_modify] at found
    split at found
    · obtain ⟨d, there, rfl⟩ := Option.map_eq_some_iff.mp found
      exact (valid d a carried).elim (old d there) (·)
    · exact old c found carried

/-- The number of nodes that were made. -/
def count (f : Forest) : Nat :=
  f.cells.size

def link (f : Forest) (s : Side) (x : NodeId) : Option NodeId :=
  match f.cells[x]? with
  | some c => c.links.side s
  | none => none

def setLink (f : Forest) (s : Side) (x : NodeId) (y : Option NodeId) : Forest :=
  f.modify x #[] (fun c => { c with links := c.links.set y s }) fun _ _ => .inl

def setHead (f : Forest) (x : NodeId) (type : TypeTag) (loc : Location) : Forest :=
  f.modify x #[] (fun c => { c with type := type, loc := loc }) fun _ _ => .inl

/-- Gives a node a new payload, if its kind has one. -/
def setContent (f : Forest) (x : NodeId) (content : Content) : Forest :=
  if content.kind.hasPayload then
    f.modify x #[content] (fun c => { c with data := .payload f.payloads.size }) fun _ _ new =>
      .inr (by cases new; simp)
  else f.modify x #[] (fun c => { c with data := .plain content }) fun _ _ plain => by cases plain

/-- Sets what a node carries. Its identity stays. -/
def write (f : Forest) (x : NodeId) (n : Node) : Forest :=
  (f.setHead x n.type n.loc).setContent x n.content

/-- Changes the payload of a node where it is. Every node that shares it shows the change. -/
def edit (f : Forest) (x : NodeId) (h : Content → Content) : Forest :=
  match (f.cells[x]?).map Cell.data with
  | some (.payload a) =>
    { f with
      payloads := f.payloads.modify a h
      held := by simpa using f.held }
  | _ => f

/-- One more node, which stands alone. -/
def grow (f : Forest) : Forest where
  cells := f.cells.push fresh
  payloads := f.payloads
  held x c a found carried := by
    rw [Array.getElem?_push] at found
    split at found
    · cases found
      cases carried
    · exact f.held x c a found carried

/-- Whether a node has neither a parent nor siblings. -/
def isLoose (f : Forest) (x : NodeId) : Bool :=
  (f.link .parent x).isNone && (f.link .before x).isNone && (f.link .after x).isNone

/-- Whether nothing comes before the first child of a node. -/
def startsClean (f : Forest) (x : NodeId) : Bool :=
  (f.link .first x).all fun c => (f.link .before c).isNone

/-- Whether nothing comes after the last child of a node. -/
def endsClean (f : Forest) (x : NodeId) : Bool :=
  (f.link .last x).all fun c => (f.link .after c).isNone

end Forest

/-- Work on a forest: if it comes to an end, a result or a fault and the forest that is left. -/
abbrev Surgery :=
  ExceptT Fault (StateT Forest Option)

namespace Surgery

/-- What becomes of a forest, and what is answered. -/
def exec {α : Type} (work : Surgery α) (f : Forest) : Option (Except Fault α × Forest) :=
  work.run.run f

/-- Work that does not come to an end. A walk along links is taken for endless after as many steps
as there are nodes, since it has come round to a node where it was before. -/
def endless {α : Type} : Surgery α :=
  ExceptT.mk fun _ => none

def link (s : Side) (x : NodeId) : Surgery (Option NodeId) := do
  return (← get).link s x

def setLink (s : Side) (x : NodeId) (y : Option NodeId) : Surgery Unit :=
  modify fun f => f.setLink s x y

/-- A node in its place. It must be there. -/
def cell (x : Option NodeId) : Surgery View := do
  let f ← get
  match x.bind f.view? with
  | some c => pure c
  | none => throw .missingNode

/-- A fault unless the forest passes a test. -/
def require (test : Forest → Bool) (fault : Fault) : Surgery Unit := do
  if test (← get) then pure () else throw fault

def alloc : Surgery NodeId :=
  modifyGet fun f => (f.count, f.grow)

def write (x : NodeId) (n : Node) : Surgery Unit :=
  modify fun f => f.write x n

/-- A new node that carries what another one carries. -/
def create (n : Node) : Surgery NodeId := do
  let x ← alloc
  write x n
  pure x

/-- A new declaration of a kind with a name. A kind without a name is refused, though a node is
made. -/
def createNamed (k : Kind) (name : String) : Surgery NodeId := do
  let x ← alloc
  match Content.named? k name with
  | some c =>
    write x { Forest.blank x with content := c }
    pure x
  | none => throw (.namedOnUnnamed k)

/-- Makes a node the last child of another. -/
def append (parent child : Option NodeId) : Surgery Unit :=
  match parent, child with
  | some p, some c => do
    require (·.isLoose c) .appendOfAttached
    setLink .parent c (some p)
    match ← link .last p with
    | none => setLink .first p (some c)
    | some z =>
      setLink .after z (some c)
      setLink .before c (some z)
    setLink .last p (some c)
    require (fun f => f.startsClean p && f.endsClean p) .brokenAppend
  | _, _ => throw .appendOfNothing

def compose (n : Node) (operands : List (Option NodeId)) : Surgery NodeId := do
  let x ← create n
  operands.forM fun c => append (some x) c
  pure x

/-- Makes a node the next sibling of another. -/
def insert (sibling child : Option NodeId) : Surgery Unit :=
  match sibling, child with
  | some s, some c => do
    match ← link .parent s with
    | none => throw .insertAfterTop
    | some p =>
      require (·.isLoose c) .insertOfAttached
      setLink .parent c (some p)
      setLink .before c (some s)
      let next ← link .after s
      setLink .after c next
      match next with
      | some z => setLink .before z (some c)
      | none => setLink .last p (some c)
      setLink .after s (some c)
      require (·.endsClean p) .brokenInsert
  | _, _ => throw .insertOfNothing

/-- Takes a node out of the children of its parent. -/
def detach (node : Option NodeId) : Surgery Unit :=
  match node with
  | none => throw .detachOfTop
  | some x => do
    match ← link .parent x with
    | none => throw .detachOfTop
    | some p =>
      let before ← link .before x
      let after ← link .after x
      match before with
      | some b => setLink .after b after
      | none => setLink .first p after
      match after with
      | some a => setLink .before a before
      | none => setLink .last p before
      setLink .parent x none
      setLink .before x none
      setLink .after x none
      require (fun f => f.startsClean p && f.endsClean p) .brokenDetach

/-- Takes a node out of the children of its parent, if it has one. -/
def release (x : NodeId) : Surgery Unit := do
  if (← link .parent x).isSome then detach (some x) else pure ()

/-- Puts a node in the place of another, which is left without a parent. The new one is taken from
wherever it is first. -/
def replace (old new : Option NodeId) : Surgery (Option NodeId) :=
  if old = new then pure old
  else
    match new with
    | none => throw .missingNode
    | some r => do
      release r
      match old with
      | none => throw .missingNode
      | some x =>
        if (← link .parent x).isSome then
          insert (some x) (some r)
          detach (some x)
        pure (some r)

mutual

/-- Makes the nodes of a tree, each before its children. -/
def plant : Tree → Surgery NodeId
  | .mk n cs => do
    let x ← create n
    plantEach x cs
    pure x

def plantEach (x : NodeId) : List Tree → Surgery Unit
  | [] => pure ()
  | t :: ts => do
    let y ← plant t
    append (some x) (some y)
    plantEach x ts

end

/-- A node and the siblings after it, if there are not more than a number. -/
def siblingsWithin : Nat → Option NodeId → Surgery (List NodeId)
  | _, none => pure []
  | 0, some _ => endless
  | n + 1, some x => do
    let rest ← siblingsWithin n (← link .after x)
    pure (x :: rest)

def siblings (x : Option NodeId) : Surgery (List NodeId) := do
  siblingsWithin (← get).count x

def children (x : NodeId) : Surgery (List NodeId) := do
  siblings (← link .first x)

def detachChildren (x : NodeId) : Surgery (List NodeId) := do
  let cs ← children x
  cs.forM fun c => detach (some c)
  pure cs

/-- The tree below a node, if it is not deeper than a number. -/
def treeWithin : Nat → NodeId → Surgery Tree
  | 0, _ => endless
  | n + 1, x => do
    let c ← cell (some x)
    let ids ← siblings c.links.first
    let cs ← ids.mapM (treeWithin n)
    pure (.mk c.node cs)

def tree (x : NodeId) : Surgery Tree := do
  treeWithin ((← get).count + 1) x

/-- Gives a node what another one carries, in a payload of its own if it is a payload. -/
def clonePayload (x : NodeId) (d : Data) : Surgery Unit :=
  modify fun f => f.setContent x (f.contentAt d)

/-- A copy of a node with all that is below it, if that is not deeper than a number. -/
def cloneWithin : Nat → Option NodeId → Surgery NodeId
  | 0, _ => endless
  | n + 1, x => do
    let y ← alloc
    let c ← cell x
    modify fun f => f.setHead y c.node.type c.node.loc
    clonePayload y c.data
    let ids ← siblings c.links.first
    ids.forM fun c => do
      let d ← cloneWithin n (some c)
      append (some y) (some d)
    pure y

/-- A copy of a node with all that is below it. Without a node there is nothing to copy, but a node
is made. -/
def clone (x : Option NodeId) : Surgery NodeId := do
  cloneWithin ((← get).count + 1) x

/-- The topmost node above a node, if there are not more above it than a number. -/
def topWithin : Nat → NodeId → Surgery NodeId
  | 0, _ => endless
  | n + 1, x => do
    match ← link .parent x with
    | none => pure x
    | some p => topWithin n p

def top (x : NodeId) : Surgery NodeId := do
  topWithin ((← get).count + 1) x

/-- The node after the whole subtree of a node, if there are not more above it than a number. -/
def nextAfterWithin : Nat → Option NodeId → Option NodeId → Surgery (Option NodeId)
  | 0, _, _ => endless
  | n + 1, within, x =>
    if x = within then pure none
    else
      match x with
      | none => throw .missingNode
      | some x => do
        match ← link .after x with
        | some s => pure (some s)
        | none =>
          match ← link .parent x with
          | some p => nextAfterWithin n within (some p)
          | none => pure none

/-- The node after the whole subtree of a node in pre-order, inside of another. Nothing comes after
a node inside of itself, be it there or not. -/
def nextAfter (within x : Option NodeId) : Surgery (Option NodeId) := do
  nextAfterWithin ((← get).count + 1) within x

/-- The node after a node in pre-order, inside of another. Error nodes have nothing below them. -/
def preorderNext (within x : Option NodeId) : Surgery (Option NodeId) := do
  let c ← cell x
  match c.links.first with
  | some y => if c.node.kind = .error then nextAfter within x else pure (some y)
  | none => nextAfter within x

end Surgery

namespace Forest

mutual

/-- Writes a tree over nodes that were made, and the links below its top. -/
def lay : Tree → Forest → Forest
  | .mk n cs, f =>
    layEach n.id none cs (((f.write n.id n).setLink .first n.id (cs.head?.map Tree.id)).setLink
      .last n.id (cs.getLast?.map Tree.id))

/-- Writes trees as children of a node, after a sibling. -/
def layEach (parent : NodeId) (before : Option NodeId) : List Tree → Forest → Forest
  | [], f => f
  | t :: ts, f =>
    layEach parent (some t.id) ts ((((lay t f).setLink .parent t.id (some parent)).setLink
      .before t.id before).setLink .after t.id (ts.head?.map Tree.id))

end

def place (f : Forest) (x : NodeId) (l : Links) : Forest :=
  let f := ((f.setLink .parent x l.parent).setLink .before x l.before).setLink .after x l.after
  let f := match l.before, l.parent with
    | some b, _ => f.setLink .after b (some x)
    | none, some p => f.setLink .first p (some x)
    | none, none => f
  match l.after, l.parent with
  | some a, _ => f.setLink .before a (some x)
  | none, some p => f.setLink .last p (some x)
  | none, none => f

end Forest

/-- Runs a transformation on a tree in its place. What it took out stays in the forest. -/
def Surgery.transform (pass : Pool → Tree → Tree × Pool) (x : NodeId) :
    Surgery (Tree × Option Stop) := do
  let t ← tree x
  let f ← get
  let (new, pool) := pass (.start f.count) t
  let around := ((f.view? x).map View.links).getD .alone
  let f := (List.range (pool.next - f.count)).foldl (fun f _ => f.grow) f
  let f := pool.loose.foldl (fun f u => (f.lay u).place u.id .alone) f
  set ((f.lay new).place new.id around)
  pure (new, pool.stop)

end TaskNet
