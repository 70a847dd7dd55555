import TaskNet.Compile
import TaskNet.Json.Basic
import TaskNet.Tree.Printer

/-!
The methods that a compile service offers. Both take a source: one checks it, the other gives the
tree as far as the compilation got.
-/

namespace TaskNet.Service

inductive Method where
  | compile
  | dump
  deriving DecidableEq, Repr

def Method.ofName? (name : String) : Option Method :=
  if name == "Compile" then some .compile
  else if name == "Dump" then some .dump
  else none

structure Params where
  file : String
  source : String

def unnamed : String := "input.htn"

def diagnosticValue (d : Diagnostic) : JsonValue :=
  .object [("code", .ofString d.problem.code), ("line", .int d.loc.line),
    ("column", .int d.loc.column), ("message", .ofString d.message)]

mutual

def recordValue : Record → JsonValue
  | .mk label line column children =>
    .object ([("label", .ofString label), ("line", .int line), ("column", .int column)] ++
      if children.isEmpty then [] else [("children", .array (recordValues children))])

def recordValues : List Record → List JsonValue
  | [] => []
  | r :: rest => recordValue r :: recordValues rest

end

/-- The result of a check. Task signatures are part of it when there are no problems. -/
def checked (o : Outcome) : JsonValue :=
  let tasks := if o.ok then o.tree.taskSignatures else []
  .object ([("ok", .bool o.ok), ("phase", .ofString o.reached.name),
    ("diagnostics", .array (o.diagnostics.map diagnosticValue))] ++
    if tasks.isEmpty then [] else [("tasks", .array (tasks.map .ofString))])

/-- The tree of a compilation with its problems. -/
def dumped (o : Outcome) : JsonValue :=
  .object ([("tree", .ofString o.tree.print), ("nodes", recordValue o.tree.record)] ++
    if o.diagnostics.isEmpty then []
    else [("diagnostics", .array (o.diagnostics.map diagnosticValue))])

def Method.run (opts : Options) (method : Method) (p : Params) : Except Fault JsonValue := do
  let file := if p.file.isEmpty then unnamed else p.file
  let o ← TaskNet.compile opts ⟨file, Text.bytesOf p.source⟩
  pure (match method with
    | .compile => checked o
    | .dump => dumped o)

end TaskNet.Service
