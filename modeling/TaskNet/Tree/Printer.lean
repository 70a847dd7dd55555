import TaskNet.Tree.Basic

/-!
Printed trees: one line for each node, indented by depth; a compact form on one line; and records of
labels with positions.
-/

namespace TaskNet

/-- The label of a node: its kind, what it carries, and its type when that is concrete. -/
def Node.label (n : Node) : String :=
  " ".intercalate
    (n.kind.label :: n.content.labelParts ++
      (if n.type.isConcrete then ["<" ++ n.type.name ++ ">"] else []))

namespace Tree

def indentation (depth : Nat) : String :=
  String.ofList (List.replicate (2 * depth) ' ')

mutual

/-- The printed lines of a tree at a depth, without line ends. -/
def lines (depth : Nat) : Tree → List String
  | mk n cs =>
    (indentation depth ++ n.label) ::
      (if n.kind == .error then [] else linesList (depth + 1) cs)

def linesList (depth : Nat) : List Tree → List String
  | [] => []
  | t :: ts => lines depth t ++ linesList depth ts

end

def print (t : Tree) : String :=
  String.join ((t.lines 0).map (· ++ "\n"))

mutual

/-- The compact form of a tree, such as `or(and(at(x), not(d)))`. -/
def compact : Tree → String
  | mk n cs =>
    match n.content with
    | .var v => v.name
    | .literal l => l.text
    | .error _ _ => "error"
    | .call c => c.name ++ "(" ++ compactList cs ++ ")"
    | c =>
      (if c.name == "" then c.kind.label else c.name) ++ "(" ++ compactList cs ++ ")"

def compactList : List Tree → String
  | [] => ""
  | [t] => compact t
  | t :: u :: ts => compact t ++ ", " ++ compactList (u :: ts)

end

def places (t : Tree) : String :=
  " ".intercalate (t.visited.map fun s => s.loc.place)

end Tree

/-- A label with a position and the records of the children. -/
inductive Record where
  | mk (label : String) (line column : Int) (children : List Record)
  deriving Repr

mutual

/-- The record of a tree; an error node has no children. -/
def Tree.record : Tree → Record
  | .mk n cs =>
    .mk n.label n.loc.line n.loc.column (if n.kind == .error then [] else Tree.recordList cs)

def Tree.recordList : List Tree → List Record
  | [] => []
  | t :: ts => Tree.record t :: Tree.recordList ts

end

end TaskNet
