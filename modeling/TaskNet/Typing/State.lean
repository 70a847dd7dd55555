import TaskNet.Function.Overload
import TaskNet.Session

/-!
The state of type inference. Trees do not change while types are inferred: the types of nodes and
the chosen overloads of calls are kept by identity and written back at the end.
-/

namespace TaskNet

/-- What inference reads and does not change. -/
structure TypingContext where
  functions : OverloadTable
  /-- The nodes of the program by identity. -/
  sites : SiteTable

namespace TypingContext

def ofProgram (functions : OverloadTable) (p : Program) : TypingContext :=
  ⟨functions, p.sites⟩

def site? (env : TypingContext) (x : NodeId) : Option Site :=
  env.sites.find? x

def tree? (env : TypingContext) (x : Option NodeId) : Option Tree :=
  (x.bind env.site?).map Site.tree

def declaration? (env : TypingContext) : Content → Option Site
  | .call c => c.decl.bind env.site?
  | _ => none

/-- The number of parameters of all declarations. -/
def paramCount (env : TypingContext) : Nat :=
  (env.sites.table.toList.filter fun s => s.any fun s => s.tree.kind == .param).length

end TypingContext

structure Typing where
  /-- The types of the nodes by identity. -/
  types : Array TypeTag
  /-- The overloads chosen for calls by identity. -/
  signatures : Array (Option Signature)
  /-- The type slots of the case at hand. -/
  tags : Stack TypeTag
  diagnostics : Collector
  /-- Arguments of task calls that are reported already. -/
  reported : List NodeId

/-- Steps of an inference. -/
abbrev Infer := ExceptT Fault (StateM Typing)

namespace Infer

def report (problem : Problem) (loc : Location) (args : List Subject) : Infer Unit :=
  modify fun s => { s with diagnostics := s.diagnostics.add problem loc args }

def reportUnify (loc : Location) (name : String) (a b : TypeTag) : Infer Unit :=
  report .failedToUnifyType loc [.name name, .type a, .type b]

def typeOf (x : NodeId) : Infer TypeTag := do
  pure (((← get).types[x]?).getD .any)

def setType (x : NodeId) (t : TypeTag) : Infer Unit :=
  modify fun s => { s with types := s.types.setIfInBounds x t }

def setSignature (x : NodeId) (sig : Signature) : Infer Unit :=
  modify fun s => { s with signatures := s.signatures.setIfInBounds x (some sig) }

def slot (i : Nat) : Infer TypeTag := do
  MonadExcept.ofExcept ((← get).tags.get? i)

/-- Changes the slots, if that can be done. -/
def changeSlots (f : Stack TypeTag → Except Fault (Stack TypeTag)) : Infer Unit := do
  let tags ← MonadExcept.ofExcept (f (← get).tags)
  modify fun s => { s with tags := tags }

def setSlot (i : Nat) (t : TypeTag) : Infer Unit :=
  changeSlots (·.set? i t)

def releaseSlots (mark : Nat) : Infer Unit :=
  changeSlots (·.release mark)

/-- Works in new slots and gives them up. -/
def withSlots (room : Nat) (work : Nat → Infer Unit) : Infer Unit := do
  let mark := (← get).tags.size
  modify fun s => { s with tags := s.tags.pushMany room .any }
  work mark
  releaseSlots mark

/-- The join of two types; a failure is reported under a name. -/
def join (loc : Location) (name : String) (a b : TypeTag) : Infer (Option TypeTag) :=
  let u := a.unify b
  if u = .notAType then do
    reportUnify loc name a b
    pure none
  else pure (some u)

end Infer

end TaskNet
