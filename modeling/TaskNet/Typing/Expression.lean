import TaskNet.Typing.State

/-!
The type of an expression, bottom-up. While inference is under way types are only looked at; at the
end they are stored on the nodes, overloads are chosen, and what is ill-typed is reported.
-/

namespace TaskNet

/-- The type slots of one case: the names of its variables and the place of the first slot. -/
structure Slots where
  base : Nat
  names : List String

def Slots.find? (s : Slots) (name : String) : Option Nat :=
  (s.names.idxOf? name).map (s.base + ·)

/-- How the type of a variable is read. -/
inductive VarView where
  /-- From the slots of the case at hand; a name without a slot is of unknown type. -/
  | slots (s : Slots)
  /-- From the definition that the variable refers to, or else from the variable itself. -/
  | resolved

/-- Whether types are only looked at or settled. -/
inductive TypingMode where
  | peek
  | settle
  deriving DecidableEq

namespace Infer

def slotType (s : Slots) (name : String) : Infer TypeTag :=
  match s.find? name with
  | some i => slot i
  | none => pure .any

def variableType (view : VarView) (n : Node) (v : Variable) : Infer TypeTag :=
  match view with
  | .slots s => slotType s v.name
  | .resolved => typeOf (v.definition.getD n.id)

/-- Reports the arguments of a call to a declaration whose types do not join with the parameter's.
-/
def checkArguments (name : String) : List (Tree × TypeTag) → List Tree → Infer Unit
  | (arg, got) :: args, param :: params => do
    let want ← typeOf param.id
    if got != .notAType && want != .any && got.unify want == .notAType then
      report .expectedArgumentType arg.loc [.name name, .type want, .type got]
    checkArguments name args params
  | _, _ => pure ()

def reportArguments (name : String) : List (Tree × TypeTag) → List TypeTag → Infer Unit
  | (arg, got) :: args, want :: params => do
    if (got.wideningCost want).isNone then
      report .expectedArgumentType arg.loc [.name name, .type want, .type got]
    reportArguments name args params
  | _, _ => pure ()

/-- Explains why a call has no overload. With a single overload of its arity the offending arguments
are pointed out, otherwise the call as a whole is reported. Arguments that are no types were
reported before. -/
def reportCall (functions : OverloadTable) (loc : Location) (name : String)
    (args : List (Tree × TypeTag)) : Infer Unit := do
  if args.any fun a => a.2 == .notAType then pure ()
  else
    match (functions.overloads name).filter fun sig => sig.params.length == args.length with
    | [sig] => reportArguments name args sig.params
    | _ => report .failedToResolveCall loc [.name name]

def callType (env : TypingContext) (mode : TypingMode) (n : Node) (c : Invocation)
    (args : List (Tree × TypeTag)) : Infer TypeTag :=
  match c.decl with
  | some d =>
    match env.site? d with
    | some s => do
      if mode = .settle then
        checkArguments s.tree.name args s.params
      pure (if s.isWorldFact then .int8 else .any)
    | none => pure .any
  | none =>
    match env.functions.resolve c.name (args.map Prod.snd) with
    | .ok sig => do
      if mode = .settle then
        setSignature n.id sig
      pure sig.result
    | .error _ =>
      if mode = .settle then do
        reportCall env.functions n.loc c.name args
        pure .notAType
      else pure .any

def checkLogical (o : Operator) : List (Tree × TypeTag) → Infer Unit
  | [] => pure ()
  | (c, t) :: rest => do
    if t != .notAType && !t.isNumeric then
      report .expectedArgumentType c.loc [.name o.label, .type .int8, .type t]
    checkLogical o rest

def comparable (o : Operator) (a b : TypeTag) : Bool :=
  let u := a.unify b
  u != .notAType && (o == .eq || o == .ne || u.isNumeric || u == .any)

/-- The type of an arithmetic operation on operands of given types: their join, which must be a
number, or a vector where the operator takes vectors. -/
def arithmetic (o : Operator) (types : List TypeTag) : Option TypeTag :=
  let u := types.foldl TypeTag.unify .any
  let vector := u == .vec3 && (o == .add || o == .sub || o == .neg)
  if u.isNumeric || u == .any || vector then some u else none

/-- The type of an arithmetic operation; operands that are no types poison it. -/
def arithmeticType (mode : TypingMode) (n : Node) (o : Operator) (types : List TypeTag) :
    Infer TypeTag := do
  if types.contains .notAType then pure .notAType
  else
    match arithmetic o types with
    | some u => pure u
    | none =>
      if mode = .settle then
        reportUnify n.loc o.label (types.head?.getD .any) (types.getLast?.getD .any)
      pure .notAType

def checkAssignment (cs : List Tree) (target value : TypeTag) : Infer Unit :=
  match cs with
  | [] => pure ()
  | c :: _ => do
    if value != .notAType && target.unify value == .notAType then
      reportUnify c.loc c.name target value

mutual

def exprType (env : TypingContext) (view : VarView) (mode : TypingMode) : Tree → Infer TypeTag
  | .mk n cs => do
    let t ← match n.content with
      | .error _ _ => pure TypeTag.notAType
      | .var v => variableType view n v
      | .literal l => pure l.type
      | .call c => do
        let types ← exprTypes env view mode cs
        callType env mode n c (cs.zip types)
      | .op .assign => do
        let value ← lastType env view mode cs
        let target ← firstType env view mode cs
        if mode = .settle then
          checkAssignment cs target value
        pure .int8
      | .op o => do
        if o.isLogical then
          let types ← exprTypes env view mode cs
          if mode = .settle then
            checkLogical o (cs.zip types)
          pure .int8
        else if o.isComparison then
          let a ← firstType env view mode cs
          let b ← lastType env view mode cs
          if mode = .settle && a != .notAType && b != .notAType && !comparable o a b then
            reportUnify n.loc o.label a b
          pure .int8
        else
          let types ← exprTypes env view mode cs
          arithmeticType mode n o types
      | _ => pure .any
    if mode = .settle then
      setType n.id t
    pure t

def exprTypes (env : TypingContext) (view : VarView) (mode : TypingMode) :
    List Tree → Infer (List TypeTag)
  | [] => pure []
  | t :: ts => do
    let u ← exprType env view mode t
    let us ← exprTypes env view mode ts
    pure (u :: us)

def firstType (env : TypingContext) (view : VarView) (mode : TypingMode) :
    List Tree → Infer TypeTag
  | [] => throw .missingNode
  | t :: _ => exprType env view mode t

def lastType (env : TypingContext) (view : VarView) (mode : TypingMode) :
    List Tree → Infer TypeTag
  | [] => throw .missingNode
  | t :: ts =>
    match ts with
    | [] => exprType env view mode t
    | _ :: _ => lastType env view mode ts

end

end Infer

end TaskNet
