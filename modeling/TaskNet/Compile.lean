import TaskNet.Binding.Resolution
import TaskNet.Clause.Precondition
import TaskNet.Function.Intrinsic
import TaskNet.Grammar.Reader
import TaskNet.Macro.Expansion
import TaskNet.Typing.Global

/-!
Compilation of one source: reading, macro expansion, normalization of preconditions, resolution of
names and type inference. A phase that reports a problem is the last one, so that later phases only
see what the earlier ones accepted.
-/

namespace TaskNet

inductive Phase where
  | parse
  | expand
  | normalize
  | resolve
  | infer
  deriving DecidableEq, Repr

namespace Phase

def all : List Phase := [parse, expand, normalize, resolve, infer]

def name : Phase → String
  | parse => "parse"
  | expand => "inline"
  | normalize => "normalize"
  | resolve => "annotate"
  | infer => "infer"

/-- The name of the phase with a number; a number of no phase is shown itself. -/
def nameOfNumber (n : Nat) : String :=
  match all[n]? with
  | some p => p.name
  | none => "Phase(" ++ toString n ++ ")"

end Phase

structure Options where
  /-- The bound on the clauses of one precondition, none when it is not positive. -/
  maxClauses : Int
  /-- Intrinsics that are not available. -/
  disabled : List String
  deriving DecidableEq, Repr

def disableIntrinsics (table : OverloadTable) (log : List LogRecord) :
    List String → OverloadTable × List LogRecord
  | [] => (table, log)
  | name :: names =>
    if table.has name then disableIntrinsics (table.remove name) log names
    else disableIntrinsics table
      (log ++ [.warn "cannot disable unknown intrinsic" [("name", name)]]) names

namespace Session

def read (file : String) (src : Text.Bytes) (s : Session) :
    Option SyntaxError × Session :=
  let p := s.program
  let parsed := Grammar.parse p.root p.next file src
  (parsed.error, { s with program := { p with root := parsed.root, next := parsed.next } })

def parsePhase (file : String) (src : Text.Bytes) (s : Session) : Bool × Session :=
  match s.read file src with
  | (none, s) => (true, s)
  | (some e, s) =>
    (false, { s with
      diagnostics := s.diagnostics.add .malformed e.loc [.group e.message] })

/-- Normalizes preconditions and reports those with too many clauses. -/
def normalizePhase (limit : Int) (s : Session) : Except Fault Bool × Session :=
  if (s.program.root.findChild? .domain).isNone then (.ok true, s)
  else
    let n := s.normalize limit
    let reports := n.limited.map fun (task, branch) =>
      Diagnostic.make .tooManyClauses branch.loc [.name task.name]
    let s := { n.session with diagnostics := n.session.diagnostics.append reports }
    match n.fault with
    | some f => (.error f, s)
    | none =>
      (.ok n.limited.isEmpty,
        s.record (.debug "normalized preconditions" [("clauses", toString n.clauses)]))

end Session

structure Source where
  file : String
  text : Text.Bytes

/-- The answer of a phase, unless it asked the scratch stack for what that could not do. -/
def Session.answer (before s : Session) (ok : Bool) : Except Fault Bool :=
  match before.scratch.nodes.fault, s.scratch.nodes.fault with
  | none, some f => .error f
  | _, _ => .ok ok

/-- Runs one phase. Says whether the next one may run. -/
def Phase.run (functions : OverloadTable) (limit : Int) (src : Source) (s : Session) :
    Phase → Except Fault Bool × Session
  | .parse =>
    let (ok, s) := s.parsePhase src.file src.text
    (.ok ok, s)
  | .expand =>
    let (ok, s') := s.expandMacros
    (s.answer s' ok, s')
  | .normalize => s.normalizePhase limit
  | .resolve =>
    let (ok, s') := s.resolveNames
    (s.answer s' ok, s')
  | .infer => s.inferTypes functions

structure Outcome where
  source : Source
  session : Session
  /-- The last phase that ran. -/
  reached : Phase
  /-- The problems in order, each once. -/
  diagnostics : List Diagnostic

namespace Outcome

def ok (o : Outcome) : Bool :=
  o.diagnostics.isEmpty

def tree (o : Outcome) : Tree :=
  o.session.program.root

end Outcome

/-- The signature of a task: its name and the types of its parameters. -/
def Tree.signatureText (task : Tree) : String :=
  task.name ++ Signature.listText ((task.childrenOf .param).map fun p => p.node.type)

/-- The signatures of the tasks of a program in order, none without a domain. -/
def Tree.taskSignatures (root : Tree) : List String :=
  match root.findChild? .domain with
  | none => []
  | some domain =>
    ((domain.childrenOf .task).map signatureText).mergeSort fun a b => decide (a ≤ b)

def namesText (names : List String) : String :=
  if names.isEmpty then "[]string(nil)"
  else "[]string\x7b" ++ ", ".intercalate (names.map Text.quoted) ++ "\x7d"

/-- Runs phases until one reports a problem. -/
def runPhases (functions : OverloadTable) (limit : Int) (src : Source) (s : Session)
    (reached : Phase) : List Phase → Except Fault (Phase × Session)
  | [] => .ok (reached, s)
  | phase :: rest =>
    let before := s.diagnostics.size
    match phase.run functions limit src s with
    | (.error f, _) => .error f
    | (.ok ok, s) =>
      let added := s.diagnostics.size - before
      let s := s.record (.debug "phase finished"
        [("file", src.file), ("phase", phase.name), ("diagnostics", toString added)])
      if !ok || added > 0 then .ok (phase, s)
      else runPhases functions limit src s phase rest

def compile (opts : Options) (src : Source) : Except Fault Outcome := do
  let (functions, log) := disableIntrinsics .intrinsics [] opts.disabled
  let (reached, s) ←
    runPhases functions opts.maxClauses src { Session.start with log := log } .parse Phase.all
  let diagnostics := s.diagnostics.sorted
  let s := s.record (.debug "compiled"
    [("file", src.file), ("diagnostics", toString diagnostics.length)])
  let s := if diagnostics.isEmpty then
      s.record (.debug "task signatures"
        [("file", src.file), ("tasks", namesText s.program.root.taskSignatures)])
    else s
  pure ⟨src, s, reached, diagnostics⟩

end TaskNet
