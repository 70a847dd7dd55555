import TaskNet.Tree.Printer

/-!
The record of a tree written out field by field. Fields are indented under the record, children
under their field, and what lies too deep is only marked.
-/

namespace TaskNet.Record

/-- The depth from which on records are not written out. -/
def maxDepth : Nat := 10

def outlineLine (indent : Nat) (text : String) : String :=
  String.ofList (List.replicate indent ' ') ++ text ++ "\n"

mutual

/-- The outline of a record at a depth. `tail` follows its last line. -/
def outlineAt (depth : Nat) (tail : String) : Record → String
  | .mk label line column children =>
    let indent := 8 * depth
    if maxDepth ≤ depth then outlineLine indent ("&!%v(DEPTH EXCEEDED)" ++ tail)
    else
      outlineLine indent "&ast.Exported\x7b" ++
      outlineLine (indent + 4) ("Label:    " ++ Text.quoted label ++ ",") ++
      outlineLine (indent + 4) ("Line:     " ++ toString line ++ ",") ++
      outlineLine (indent + 4) ("Column:   " ++ toString column ++ ",") ++
      (if children.isEmpty then outlineLine (indent + 4) "Children: nil,"
       else
        outlineLine (indent + 4) "Children: \x7b" ++ outlineList (depth + 1) children ++
        outlineLine (indent + 4) "\x7d,") ++
      outlineLine indent ("\x7d" ++ tail)

def outlineList (depth : Nat) : List Record → String
  | [] => ""
  | r :: rest => outlineAt depth "," r ++ outlineList depth rest

end

def outline (r : Record) : String :=
  outlineAt 0 "" r

end TaskNet.Record
