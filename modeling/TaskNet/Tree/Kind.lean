import TaskNet.Diagnostic.Basic
import TaskNet.Function.Signature
import TaskNet.Number.Shortest

/-!
What the nodes of a syntax tree are and carry. The content of a node fixes its kind; the kind alone
is what printed labels and shapes show.
-/

namespace TaskNet

/-- The identity of a node. Identities are handed out in order and never used twice. -/
abbrev NodeId := Nat

inductive Operator where
  | and
  | or
  | not
  | eq
  | ne
  | lt
  | le
  | gt
  | ge
  | assign
  | add
  | sub
  | mul
  | div
  | neg
  deriving DecidableEq, Repr

namespace Operator

/-- Conjunction, disjunction and negation. -/
def isLogical : Operator → Bool
  | and | or | not => true
  | _ => false

def isComparison : Operator → Bool
  | eq | ne | lt | le | gt | ge => true
  | _ => false

def isArithmetic : Operator → Bool
  | add | sub | mul | div | neg => true
  | _ => false

def label : Operator → String
  | and => "and"
  | or => "or"
  | not => "not"
  | eq => "eq"
  | ne => "ne"
  | lt => "lt"
  | le => "le"
  | gt => "gt"
  | ge => "ge"
  | assign => "assign"
  | add => "add"
  | sub => "sub"
  | mul => "mul"
  | div => "div"
  | neg => "neg"

end Operator

inductive Kind where
  | root
  | world
  | primitives
  | fact
  | param
  | domain
  | task
  | branch
  | attr
  | template
  | taskList
  | var
  | literal
  | call
  | op (o : Operator)
  | error
  deriving DecidableEq, Repr

namespace Kind

/-- The kinds in the order of their numbers. -/
def enumeration : List Kind :=
  [root, world, primitives, fact, param, domain, task, branch, attr, template, taskList, var,
    literal, call, op .and, op .or, op .not, op .eq, op .ne, op .lt, op .le, op .gt, op .ge,
    op .assign, op .add, op .sub, op .mul, op .div, op .neg, error]

def label : Kind → String
  | root => "root"
  | world => "world"
  | primitives => "primitive"
  | fact => "fact"
  | param => "param"
  | domain => "domain"
  | task => "task"
  | branch => "case"
  | attr => "attribute"
  | template => "macro"
  | taskList => "task_list"
  | var => "var"
  | literal => "literal"
  | call => "func"
  | op o => o.label
  | error => "error"

def ofLabel? (s : String) : Option Kind :=
  enumeration.find? fun k => k.label == s

def number (k : Kind) : Nat :=
  enumeration.idxOf k

/-- The label of the kind with a given number; a number of no kind is shown itself. -/
def labelOfNumber (n : Nat) : String :=
  match enumeration[n]? with
  | some k => k.label
  | none => "kind_" ++ toString n

def isLogical : Kind → Bool
  | op o => o.isLogical
  | _ => false

def isComparison : Kind → Bool
  | op o => o.isComparison
  | _ => false

def isArithmetic : Kind → Bool
  | op o => o.isArithmetic
  | _ => false

/-- The family of a kind: kinds of one family are handled alike. -/
def family : Kind → String
  | world | primitives => "block"
  | op _ => "op"
  | k => k.label

def hasPayload : Kind → Bool
  | root | world | primitives | taskList | op _ => false
  | _ => true

/-- Whether a kind may stand in an expression. -/
def isExpression : Kind → Bool
  | var | literal | call | op _ | error => true
  | _ => false

end Kind

/-- A constant. -/
inductive Literal where
  | int (value : Int)
  | float (value : Number.Binary64)
  deriving DecidableEq, Repr

namespace Literal

def text : Literal → String
  | int v => toString v
  | float v => v.text

/-- The type of a constant: the narrowest integer tag that holds it, or `float`. -/
def type : Literal → TypeTag
  | float _ => .float
  | int v =>
    if -128 ≤ v ∧ v < 128 then .int8
    else if -2147483648 ≤ v ∧ v < 2147483648 then .int32
    else .int64

end Literal

/-- A use of a name in an expression. -/
structure Variable where
  /-- The current name, after renaming by macro expansion. -/
  name : String
  /-- The name as written. -/
  written : String
  /-- The binding occurrence or parameter this occurrence refers to. -/
  definition : Option NodeId
  /-- Whether this occurrence binds the name in its conjunct. -/
  binding : Bool
  deriving DecidableEq, Repr

/-- A call: a fact literal, a task invocation or an intrinsic. -/
structure Invocation where
  name : String
  /-- The fact, primitive or task the call resolved to. -/
  decl : Option NodeId
  /-- The intrinsic overload picked by type inference. -/
  signature : Option Signature
  deriving DecidableEq, Repr

/-- An entry of a table of variables: a name and its first occurrence. -/
structure VarEntry where
  name : String
  node : NodeId
  deriving DecidableEq, Repr

/-- One guarded decomposition of a task: which children are the precondition and the task list, and
the variables of both, each name once. -/
structure Guarded where
  precond : Option NodeId
  tasks : Option NodeId
  precondVars : List VarEntry
  taskVars : List VarEntry
  deriving DecidableEq, Repr

/-- A decomposition of which nothing is known yet. -/
def Guarded.unset : Guarded := ⟨none, none, [], []⟩

/-- What a node is and carries. -/
inductive Content where
  | root
  | world
  | primitives
  | taskList
  | fact (name : String)
  | param (name : String)
  | domain (name : String)
  | task (name : String)
  | attr (name : String)
  | template (name : String)
  | branch (info : Guarded)
  | var (info : Variable)
  | literal (value : Literal)
  | call (info : Invocation)
  | op (o : Operator)
  | error (was : Kind) (problem : Problem)
  deriving DecidableEq, Repr, Inhabited

namespace Content

def kind : Content → Kind
  | root => .root
  | world => .world
  | primitives => .primitives
  | taskList => .taskList
  | fact _ => .fact
  | param _ => .param
  | domain _ => .domain
  | task _ => .task
  | attr _ => .attr
  | template _ => .template
  | branch _ => .branch
  | var _ => .var
  | literal _ => .literal
  | call _ => .call
  | op o => .op o
  | error _ _ => .error

/-- The declared or used name, empty for what has none. -/
def name : Content → String
  | fact n | param n | domain n | task n | attr n | template n => n
  | var v => v.name
  | call c => c.name
  | _ => ""

/-- The content of a new node of a kind, before anything is known of it. -/
def blank : Kind → Content
  | .root => root
  | .world => world
  | .primitives => primitives
  | .taskList => taskList
  | .fact => fact ""
  | .param => param ""
  | .domain => domain ""
  | .task => task ""
  | .attr => attr ""
  | .template => template ""
  | .branch => branch .unset
  | .var => var ⟨"", "", none, false⟩
  | .literal => literal (.int 0)
  | .call => call ⟨"", none, none⟩
  | .op o => op o
  | .error => error .root .malformed

def use (name : String) : Content :=
  var ⟨name, name, none, false⟩

/-- A call that is not resolved yet. -/
def invocation (name : String) : Content :=
  call ⟨name, none, none⟩

/-- What the label of a node says after its kind. -/
def labelParts : Content → List String
  | var v => (if v.name == "" then [] else [v.name]) ++ (if v.binding then ["binding"] else [])
  | literal l => [l.text]
  | error _ p => [p.code]
  | c => if c.name == "" then [] else [c.name]

end Content

end TaskNet
