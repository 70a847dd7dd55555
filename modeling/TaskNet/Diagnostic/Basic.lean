import TaskNet.Location
import TaskNet.Text.Quoted
import TaskNet.TypeTag

/-!
Diagnostics: what went wrong, where, and about which names and types. A diagnostic is a plain value,
so two reports of the same problem are equal.
-/

namespace TaskNet

/-- What went wrong. A `foreign` kind has a number outside the enumeration. -/
inductive Problem where
  | malformed
  | redefinition
  | recursiveMacro
  | unboundVar
  | alreadyBound
  | notBoundInAllConjuncts
  | mismatchingNumberOfArgs
  | undeclaredTask
  | failedToUnifyType
  | failedToInferType
  | failedToResolveCall
  | onlySingleAttrAllowed
  | onlyConstExprAllowed
  | expectedArgumentType
  | tooManyClauses
  | foreign (code : UInt8) (outside : 15 ≤ code.toNat)
  deriving DecidableEq, Repr, Inhabited

namespace Problem

/-- The problems of the enumeration in the order of their codes. -/
def enumeration : List Problem :=
  [malformed, redefinition, recursiveMacro, unboundVar, alreadyBound, notBoundInAllConjuncts,
    mismatchingNumberOfArgs, undeclaredTask, failedToUnifyType, failedToInferType,
    failedToResolveCall, onlySingleAttrAllowed, onlyConstExprAllowed, expectedArgumentType,
    tooManyClauses]

def ofNumber (n : UInt8) : Problem :=
  if inside : n.toNat < 15 then enumeration.get ⟨n.toNat, inside⟩
  else foreign n (Nat.le_of_not_lt inside)

/-- The number of a problem; diagnostics at one place are ordered by it. -/
def number : Problem → Nat
  | malformed => 0
  | redefinition => 1
  | recursiveMacro => 2
  | unboundVar => 3
  | alreadyBound => 4
  | notBoundInAllConjuncts => 5
  | mismatchingNumberOfArgs => 6
  | undeclaredTask => 7
  | failedToUnifyType => 8
  | failedToInferType => 9
  | failedToResolveCall => 10
  | onlySingleAttrAllowed => 11
  | onlyConstExprAllowed => 12
  | expectedArgumentType => 13
  | tooManyClauses => 14
  | foreign c _ => c.toNat

def name : Problem → String
  | malformed => "Syntax"
  | redefinition => "Redefinition"
  | recursiveMacro => "RecursiveMacro"
  | unboundVar => "UnboundVar"
  | alreadyBound => "AlreadyBound"
  | notBoundInAllConjuncts => "NotBoundInAllConjuncts"
  | mismatchingNumberOfArgs => "MismatchingNumberOfArgs"
  | undeclaredTask => "UndeclaredTask"
  | failedToUnifyType => "FailedToUnifyType"
  | failedToInferType => "FailedToInferType"
  | failedToResolveCall => "FailedToResolveCall"
  | onlySingleAttrAllowed => "OnlySingleAttrAllowed"
  | onlyConstExprAllowed => "OnlyConstExprAllowed"
  | expectedArgumentType => "ExpectedArgumentType"
  | tooManyClauses => "TooManyClauses"
  | foreign c _ => "Kind(" ++ toString c.toNat ++ ")"

def code : Problem → String
  | malformed => "syntax"
  | redefinition => "redefinition"
  | recursiveMacro => "recursive-macro"
  | unboundVar => "unbound-var"
  | alreadyBound => "already-bound"
  | notBoundInAllConjuncts => "not-bound-in-all-conjuncts"
  | mismatchingNumberOfArgs => "mismatching-number-of-args"
  | undeclaredTask => "undeclared-task"
  | failedToUnifyType => "failed-to-unify-type"
  | failedToInferType => "failed-to-infer-type"
  | failedToResolveCall => "failed-to-resolve-call"
  | onlySingleAttrAllowed => "only-single-attr-allowed"
  | onlyConstExprAllowed => "only-const-expr-allowed"
  | expectedArgumentType => "expected-argument-type"
  | tooManyClauses => "too-many-clauses"
  | foreign c _ => "kind(" ++ toString c.toNat ++ ")"

end Problem

/-- What a diagnostic speaks about: an identifier, a type, or the category of a declaration. A
`blank` argument has a text that is only shown by syntax errors. -/
inductive Subject where
  | blank (text : String)
  | name (text : String)
  | type (tag : TypeTag)
  | group (text : String)
  deriving DecidableEq, Repr

namespace Subject

def text : Subject → String
  | blank _ => ""
  | name s => Text.quoted s
  | type t => t.name
  | group s => s

/-- The bare text of an argument; a type has none. -/
def bare : Subject → String
  | blank s => s
  | name s => s
  | type _ => ""
  | group s => s

end Subject

structure Diagnostic where
  problem : Problem
  loc : Location
  args : List Subject
  deriving DecidableEq, Repr

namespace Diagnostic

def maxArgs : Nat := 3

/-- Builds a diagnostic; arguments past the third are dropped. -/
def make (problem : Problem) (loc : Location) (args : List Subject) : Diagnostic :=
  ⟨problem, loc, args.take maxArgs⟩

/-- The text of an argument, a question mark when there is none. -/
def argText (d : Diagnostic) (i : Nat) : String :=
  match d.args[i]? with
  | some a => a.text
  | none => "?"

def message (d : Diagnostic) : String :=
  match d.problem with
  | .malformed =>
    match d.args with
    | [] => "syntax error"
    | a :: _ => "syntax error: " ++ a.bare
  | .redefinition => "redefinition of " ++ d.argText 1 ++ " " ++ d.argText 0
  | .recursiveMacro => "recursive macro " ++ d.argText 0
  | .unboundVar => "unbound variable " ++ d.argText 0
  | .alreadyBound => "variable " ++ d.argText 0 ++ " is already bound"
  | .notBoundInAllConjuncts =>
    "variable " ++ d.argText 0 ++ " is not bound in all conjuncts of the precondition"
  | .mismatchingNumberOfArgs =>
    d.argText 1 ++ " " ++ d.argText 0 ++ " called with the wrong number of arguments"
  | .undeclaredTask => "undeclared task " ++ d.argText 0
  | .failedToUnifyType =>
    "failed to unify type of " ++ d.argText 0 ++ ": " ++ d.argText 1 ++ " vs " ++ d.argText 2
  | .failedToInferType => "failed to infer type of " ++ d.argText 0
  | .failedToResolveCall => "failed to resolve call to " ++ d.argText 0
  | .onlySingleAttrAllowed => "only a single " ++ d.argText 0 ++ " attribute is allowed"
  | .onlyConstExprAllowed =>
    "attribute " ++ d.argText 0 ++ " only accepts constant expressions"
  | .expectedArgumentType =>
    "argument of " ++ d.argText 0 ++ ": expected " ++ d.argText 1 ++ ", got " ++ d.argText 2
  | .tooManyClauses => "precondition of " ++ d.argText 0 ++ " expands to too many clauses"
  | .foreign c outside => (Problem.foreign c outside).name

def text (d : Diagnostic) : String :=
  d.loc.text ++ ": error[" ++ d.problem.code ++ "]: " ++ d.message

end Diagnostic

end TaskNet
