import TaskNet.Macro.CallGraph
import TaskNet.Macro.FreshName
import TaskNet.Session

/-!
Macro expansion. Calls are expanded bottom-up in preconditions, task lists and case attributes. An
expansion copies the body, gives its local variables fresh names, expands the calls in it as its
declaration sees them, and then puts copies of the arguments in the places of the parameters.
-/

namespace TaskNet

/-- What an expansion draws on and leaves behind. -/
structure Expander where
  pool : Pool
  supply : NameSupply
  diagnostics : Collector
  /-- The number of calls expanded. -/
  expansions : Nat
  log : List LogRecord

abbrev Expand := StateM Expander

namespace Expand

def report (problem : Problem) (loc : Location) (args : List Subject) : Expand Unit :=
  modify fun s => { s with diagnostics := s.diagnostics.add problem loc args }

def copy (t : Tree) : Expand Tree :=
  modifyGet fun s =>
    let (t, pool) := t.copyIn s.pool
    (t, { s with pool := pool })

def discard (t : Tree) : Expand Unit :=
  modify fun s => { s with pool := s.pool.discard t }

end Expand

/-- The new names of local variables given so far, and the supply of names. -/
structure Renaming where
  supply : NameSupply
  renamed : List (String × String)

namespace Renaming

/-- The new name of a local variable: all its occurrences share one. -/
def rename (name : String) : StateM Renaming String :=
  modifyGet fun r =>
    match r.renamed.lookup name with
    | some new => (new, r)
    | none =>
      let (new, supply) := r.supply.fresh name
      (new, ⟨supply, (name, new) :: r.renamed⟩)

end Renaming

namespace Tree

mutual

def renameLocals (keep : String → Bool) : Tree → StateM Renaming Tree
  | mk n cs => do
    if n.kind == .error then
      pure (mk n cs)
    else
      let content ← match n.content with
        | .var v =>
          if keep v.name then pure n.content
          else do
            let new ← Renaming.rename v.name
            pure (.var { v with name := new })
        | c => pure c
      let ds ← renameLocalsList keep cs
      pure (mk { n with content := content } ds)

def renameLocalsList (keep : String → Bool) : List Tree → StateM Renaming (List Tree)
  | [] => pure []
  | t :: ts => do
    let s ← renameLocals keep t
    let ss ← renameLocalsList keep ts
    pure (s :: ss)

end

mutual

/-- Puts copies of arguments in the places of variables. -/
def substitute (argument : String → Option Tree) : Tree → Expand Tree
  | mk n cs => do
    if n.kind == .error then
      pure (mk n cs)
    else
      match n.content with
      | .var v =>
        match argument v.name with
        | some arg =>
          let new ← Expand.copy arg
          Expand.discard (mk n cs)
          pure new
        | none =>
          let ds ← substituteList argument cs
          pure (mk n ds)
      | _ =>
        let ds ← substituteList argument cs
        pure (mk n ds)

def substituteList (argument : String → Option Tree) : List Tree → Expand (List Tree)
  | [] => pure []
  | t :: ts => do
    let s ← substitute argument t
    let ss ← substituteList argument ts
    pure (s :: ss)

end

end Tree

namespace MacroTable

/-- What becomes of a node whose children are expanded. A call to a recursive macro, or with the
wrong number of arguments, becomes an error; a call to a macro with a body is left to `onCall`. -/
def expandNode (table : MacroTable) (recursive : List NodeId)
    (onCall : Template → Tree → Expand Tree) (scope : Option NodeId) (t : Tree) : Expand Tree :=
  match table.refer? scope t.content with
  | none => pure t
  | some m =>
    if recursive.contains m.id then pure (t.markError .recursiveMacro)
    else if t.kind == .call && t.children.length != m.formals.length then do
      Expand.report .mismatchingNumberOfArgs t.loc [.name m.name, .group "macro"]
      pure (t.markError .mismatchingNumberOfArgs)
    else
      match m.body with
      | none => pure t
      | some _ => onCall m t

mutual

def expandTree (table : MacroTable) (recursive : List NodeId)
    (onCall : Template → Tree → Expand Tree) (scope : Option NodeId) : Tree → Expand Tree
  | .mk n cs => do
    if n.kind == .error then
      pure (.mk n cs)
    else
      let ds ← expandList table recursive onCall scope cs
      expandNode table recursive onCall scope (.mk n ds)

def expandList (table : MacroTable) (recursive : List NodeId)
    (onCall : Template → Tree → Expand Tree) (scope : Option NodeId) :
    List Tree → Expand (List Tree)
  | [] => pure []
  | t :: ts => do
    let s ← expandTree table recursive onCall scope t
    let ss ← expandList table recursive onCall scope ts
    pure (s :: ss)

end

/-- Whether a name in a macro body keeps its meaning outside of it: a parameter of the macro or of
its task, or a macro without parameters. -/
def isKept (table : MacroTable) (m : Template) (name : String) : Bool :=
  m.formals.contains name || (table.scopeParams m.scope).contains name ||
    (table.refer? m.scope (.use name)).isSome

def instantiate (table : MacroTable) (m : Template) (body : Tree) : Expand Tree := do
  let copy ← Expand.copy body
  modifyGet fun s =>
    let (t, r) := (copy.renameLocals (table.isKept m)).run ⟨s.supply, []⟩
    (t, { s with supply := r.supply })

/-- The argument of a call in the place of a parameter; the first of equal parameters counts. -/
def argumentOf (m : Template) (args : List Tree) (name : String) : Option Tree :=
  (m.formals.zip args).lookup name

/-- Expands a call of a macro, and the calls in its body through at most `depth` further macros. No
chain of calls of macros that are not recursive is longer than the number of macros. -/
def expandCall (table : MacroTable) (recursive : List NodeId) :
    Nat → Template → Tree → Expand Tree
  | 0, _, call => pure call
  | depth + 1, m, call =>
    match m.body with
    | none => pure call
    | some body => do
      modify fun s => { s with expansions := s.expansions + 1 }
      let copy ← instantiate table m body
      let expanded ← expandTree table recursive (expandCall table recursive depth) m.scope copy
      let new ← expanded.substitute (argumentOf m call.children)
      modify fun s => { s with log := s.log ++
        [.debug "expanded macro" [("macro", m.name), ("at", call.loc.text)]] }
      Expand.discard call
      pure new

/-- Expands the calls in a case: in the arguments of its attributes, in its precondition and in its
task list. -/
def expandBranch (table : MacroTable) (recursive : List NodeId) (task branch : Tree) :
    Expand Tree := do
  match branch.content with
  | .branch info =>
    let expand := expandTree table recursive
      (expandCall table recursive table.declared.length) (some task.id)
    let cs ← branch.children.mapM fun c => do
      if c.kind == .attr || info.tasks == some c.id then
        let ds ← c.children.mapM expand
        pure (c, c.withChildren ds)
      else if info.precond == some c.id then
        let d ← expand c
        pure (c, d)
      else
        pure (c, c)
    let precond := match cs.find? fun c => c.1.kind != .attr && info.tasks != some c.1.id &&
        info.precond == some c.1.id with
      | some c => some c.2.id
      | none => info.precond
    pure (.mk { branch.node with content := .branch { info with precond := precond } }
      (cs.map Prod.snd))
  | _ => pure branch

end MacroTable

namespace Session

/-- Expands every macro call of the program. Says whether no problem was found. -/
def expandMacros (s : Session) : Bool × Session :=
  let p := s.program
  match p.root.findChild? .domain with
  | none => (true, s)
  | some domain =>
    let table := MacroTable.ofTree p.root domain
    let names := (p.root.visited.map Tree.name).filter fun n => n != ""
    let (recursive, nodes) := table.recursiveOf s.scratch.nodes table.declared
    let cyclic := recursive.map fun m => Diagnostic.make .recursiveMacro m.loc [.name m.name]
    let start : Expander :=
      ⟨⟨p.next, p.loose, none⟩, ⟨names, 0⟩, s.diagnostics.append cyclic, 0, s.log⟩
    let (root, e) := (p.root.mapBranchesM
      (table.expandBranch (recursive.map Template.id))).run start
    let redefined := (MacroTable.redefined [] table.declared).map fun m =>
      Diagnostic.make .redefinition m.loc [.name m.name, .group "macro"]
    let diagnostics := e.diagnostics.append redefined
    let added := diagnostics.size - s.diagnostics.size
    let s : Session :=
      { program := { p with root := root, loose := e.pool.loose, next := e.pool.next }
        diagnostics := diagnostics
        scratch := { s.scratch with nodes := nodes }
        log := e.log }
    (added == 0, s.record (.debug "inlined macros"
      [("expansions", toString e.expansions), ("diagnostics", toString added)]))

end Session

end TaskNet
