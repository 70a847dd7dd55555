import TaskNet.Text.Blank
import TaskNet.Tree.Basic

/-!
Shapes: the kinds of a tree with names and types dropped. A shape is read back from a printed tree
by the indentation of its lines and the label each of them starts with.
-/

namespace TaskNet

/-- The kinds of a tree. -/
inductive Shape where
  | mk (kind : Kind) (children : List Shape)
  deriving Repr

/-- Why a text is no printed tree. -/
inductive ShapeError where
  | oddIndentation (line : Nat)
  | unknownKind (line : Nat) (label : String)
  | secondRoot (line : Nat)
  | skippedLevel (line : Nat)
  | lineTooLong
  | noLines
  deriving DecidableEq, Repr

def ShapeError.message : ShapeError → String
  | .oddIndentation n => "line " ++ toString n ++ ": odd indentation"
  | .unknownKind n label => "line " ++ toString n ++ ": unknown kind " ++ Text.quoted label
  | .secondRoot n => "line " ++ toString n ++ ": second root"
  | .skippedLevel n => "line " ++ toString n ++ ": indentation skips a level"
  | .lineTooLong => "read shape: bufio.Scanner: token too long"
  | .noLines => "empty input"

mutual

/-- The shape of a tree; an error node has no children. -/
def Tree.shape : Tree → Shape
  | .mk n cs => .mk n.kind (if n.kind == .error then [] else Tree.shapeList cs)

def Tree.shapeList : List Tree → List Shape
  | [] => []
  | t :: ts => Tree.shape t :: Tree.shapeList ts

end

namespace Shape

mutual

def beq : Shape → Shape → Bool
  | mk k cs, mk l ds => k == l && beqList cs ds

def beqList : List Shape → List Shape → Bool
  | [], [] => true
  | s :: ss, t :: ts => beq s t && beqList ss ts
  | _, _ => false

end

instance : BEq Shape := ⟨beq⟩

mutual

def text : Shape → String
  | mk k [] => k.label
  | mk k (c :: cs) => k.label ++ "(" ++ textList (c :: cs) ++ ")"

def textList : List Shape → String
  | [] => ""
  | [s] => text s
  | s :: t :: ss => text s ++ " " ++ textList (t :: ss)

end

/-- A line of a printed tree: its depth and the kind it starts with. -/
structure Entry where
  depth : Nat
  kind : Kind
  deriving DecidableEq, Repr

def readLine (number : Nat) (line : List Char) : Except ShapeError Entry :=
  let indent := (line.takeWhile (· == ' ')).length
  if indent % 2 != 0 then .error (.oddIndentation number)
  else
    let label := String.ofList ((line.drop indent).takeWhile (· != ' '))
    match Kind.ofLabel? label with
    | none => .error (.unknownKind number label)
    | some k => .ok ⟨indent / 2, k⟩

/-- The entries of numbered lines. `depth` is the depth of the entry before, none before the first
one: a later line may not have depth zero and may be at most one deeper than the line before it. -/
def readLines : Option Nat → List (Nat × List Char) → Except ShapeError (List Entry)
  | _, [] => .ok []
  | previous, (number, line) :: rest =>
    if Text.isBlankLine line then readLines previous rest
    else
      match readLine number line with
      | .error e => .error e
      | .ok entry =>
        match previous with
        | none =>
          if entry.depth == 0 then (readLines (some 0) rest).map (entry :: ·)
          else .error (.skippedLevel number)
        | some depth =>
          if entry.depth == 0 then .error (.secondRoot number)
          else if depth + 1 < entry.depth then .error (.skippedLevel number)
          else (readLines (some entry.depth) rest).map (entry :: ·)

/-- The leading entries at or below a depth as sibling shapes, with the entries that are left. -/
def siblings (depth : Nat) (entries : List Entry) : List Shape × List Entry :=
  match entries with
  | [] => ([], [])
  | e :: rest =>
    if e.depth < depth then ([], e :: rest)
    else
      let below := rest.takeWhile fun f => e.depth < f.depth
      let after := rest.dropWhile fun f => e.depth < f.depth
      let inner := siblings (e.depth + 1) below
      let later := siblings depth after
      (mk e.kind inner.1 :: later.1, later.2)
termination_by entries.length
decreasing_by
  · have := (List.takeWhile_sublist (l := rest) fun f => decide (e.depth < f.depth)).length_le
    simp only [List.length_cons]; omega
  · have := (List.dropWhile_sublist (l := rest) fun f => decide (e.depth < f.depth)).length_le
    simp only [List.length_cons]; omega

/-- Splits a text into lines at line feeds; a line feed at the end starts no further line. -/
def splitLines : List Char → List (List Char)
  | [] => []
  | c :: rest =>
    if c == '\n' then [] :: splitLines rest
    else
      match splitLines rest with
      | [] => [[c]]
      | line :: more => (c :: line) :: more

/-- Drops one carriage return from the end of a line. -/
def dropReturn (line : List Char) : List Char :=
  if line.getLast? == some '\r' then line.dropLast else line

def byteSize (line : List Char) : Nat :=
  line.foldl (fun size c => size + c.utf8Size) 0

def maxLineSize : Nat := 65536

/-- The lines up to the first one that is too long, and whether there is one. A line is too long
when it fills the buffer before its end is seen: the line feed counts if there is one. -/
def boundedLines : List (List Char) → List (List Char) × Bool
  | [] => ([], false)
  | line :: rest =>
    if maxLineSize ≤ byteSize line then ([], true)
    else
      let more := boundedLines rest
      (line :: more.1, more.2)

/-- Reads the shape of a printed tree. Lines of white space are skipped; whatever follows the label
of a line is ignored. -/
def read (text : String) : Except ShapeError Shape :=
  let (all, tooLong) := boundedLines (splitLines text.toList)
  let numbered := (all.map dropReturn).zipIdx 1 |>.map fun (line, n) => (n, line)
  match readLines none numbered with
  | .error e => .error e
  | .ok entries =>
    if tooLong then .error .lineTooLong
    else
      match (siblings 0 entries).1 with
      | [] => .error .noLines
      | s :: _ => .ok s

end Shape

end TaskNet
