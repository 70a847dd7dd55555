import TaskNet.Grammar.Expression

/-!
Reading domains, one token at a time. The reader holds the tree of what is complete and what is
still open: the block, the declaration, the clause of it, and inside it an expression. After a
syntax error the tree holds the blocks, facts, macros and tasks that were complete.
-/

namespace TaskNet.Grammar

/-- Where a macro is declared: in the domain, or in a task that is being read. -/
inductive Scope where
  | domain
  | task (t : Tree)

inductive Owner where
  | template (scope : Scope) (t : Tree)
  | task (t : Tree)

/-- Where attributes stand: in a block of facts, or in a task that is being read. -/
inductive Place where
  | block (kind : Kind)
  | task (t : Tree)

/-- What the next token is read as, with what is open. -/
inductive Mode where
  /-- A block, or the end of the file. -/
  | blocks
  /-- The opening bracket of a block of facts or primitives. -/
  | blockOpen (kind : Kind)
  /-- A fact, its next attribute, or the end of the block. -/
  | facts (kind : Kind) (attrs : List Tree)
  | attrName (place : Place) (attrs : List Tree) (loc : Location)
  /-- The arguments of an attribute, if it has any. -/
  | attrArgs (place : Place) (attrs : List Tree) (attr : Node)
  | attrList (place : Place) (attrs : List Tree) (p : Pending)
  | factOpen (kind : Kind) (fact : Tree)
  /-- A parameter type or the closing bracket; the flag says whether there was one before. -/
  | factParams (kind : Kind) (fact : Tree) (later : Bool)
  | factType (kind : Kind) (fact : Tree)
  | domainName
  | domainOpen
  /-- A macro, a task, or the end of the domain. -/
  | items
  | templateName (scope : Scope)
  | taskName
  | paramsOpen (owner : Owner)
  | params (owner : Owner) (later : Bool)
  | paramName (owner : Owner)
  | templateAssign (scope : Scope) (t : Tree)
  | templateBody (scope : Scope) (t : Tree) (p : Pending)
  | taskOpen (t : Tree)
  /-- A macro, a case, its next attribute, or the end of the task. -/
  | branches (t : Tree) (attrs : List Tree)
  /-- The precondition of a case, or the arrow when it has none. -/
  | guardStart (t branch : Tree)
  | guard (t branch : Tree) (p : Pending)
  | listOpen (t branch : Tree)
  /-- A call or the end of the task list; the flag says whether there was a call before. -/
  | calls (t branch list : Tree) (later : Bool)
  | callName (t branch list : Tree)
  | callOpen (t branch list : Tree) (head : Node)
  | callArgs (t branch list : Tree) (p : Pending)

/-- A reader: the tree of what is complete, the next free identity, and what is open. -/
structure Reader where
  root : Tree
  next : NodeId
  mode : Mode

def addChild (t c : Tree) : Tree :=
  t.withChildren (t.children ++ [c])

def addToFirst (kind : Kind) (c : Tree) : List Tree → List Tree
  | [] => []
  | t :: ts => if t.kind == kind then addChild t c :: ts else t :: addToFirst kind c ts

namespace Reader

/-- Adds a child to the block of a kind, or to the domain. -/
def addTo (r : Reader) (kind : Kind) (c : Tree) : Tree :=
  r.root.withChildren (addToFirst kind c r.root.children)

def newNode (file : String) (r : Reader) (t : Token) (content : Content) : Node :=
  ⟨r.next, .any, locate file t, content⟩

def isWord (t : Token) (word : String) : Bool :=
  t.kind = .identifier && t.word == word

def need (file : String) (t : Token) (wanted : TokenKind) (r : Reader) :
    Except SyntaxError Reader :=
  if t.kind = wanted then .ok r else refuse file t (.expectedToken wanted)

/-- Opens a block of facts or primitives; a second block of a kind goes on with the first. -/
def openBlock (file : String) (t : Token) (r : Reader) (content : Content) : Reader :=
  match r.root.findChild? content.kind with
  | some _ => { r with mode := .blockOpen content.kind }
  | none =>
    ⟨addChild r.root (.mk (r.newNode file t content) []), r.next + 1, .blockOpen content.kind⟩

def stepBlocks (file : String) (t : Token) (r : Reader) : Except SyntaxError Reader :=
  if t.kind = .endOfFile then .ok r
  else if isWord t "fact" then .ok (r.openBlock file t .world)
  else if isWord t "prim" then .ok (r.openBlock file t .primitives)
  else if isWord t "domain" then
    match r.root.findChild? .domain with
    | some _ => refuse file t .secondDomain
    | none => .ok { r with mode := .domainName }
  else refuse file t .expectedBlock

def stepFacts (file : String) (t : Token) (r : Reader) (kind : Kind) (attrs : List Tree) :
    Except SyntaxError Reader :=
  if t.kind = .rightCurly ∧ attrs = [] then .ok { r with mode := .blocks }
  else if t.kind = .atSign then
    .ok { r with mode := .attrName (.block kind) attrs (locate file t) }
  else if t.kind = .identifier then
    .ok ⟨r.root, r.next + 1, .factOpen kind (.mk (r.newNode file t (.fact t.word)) attrs)⟩
  else refuse file t (.expectedToken .identifier)

def addFactType (file : String) (t : Token) (r : Reader) (kind : Kind) (fact : Tree) :
    Except SyntaxError Reader :=
  if t.kind = .identifier then
    match TypeTag.ofName? t.word with
    | none => refuse file t .unknownType
    | some tag =>
      let param : Node := { r.newNode file t (.param "") with type := tag }
      .ok ⟨r.root, r.next + 1, .factParams kind (addChild fact (.mk param [])) true⟩
  else refuse file t (.expectedToken .identifier)

def stepItems (file : String) (t : Token) (r : Reader) : Except SyntaxError Reader :=
  if t.kind = .rightCurly then .ok { r with mode := .blocks }
  else if isWord t "macro" then .ok { r with mode := .templateName .domain }
  else if isWord t "task" then .ok { r with mode := .taskName }
  else refuse file t .expectedItem

def stepBranches (file : String) (t : Token) (r : Reader) (task : Tree) (attrs : List Tree) :
    Except SyntaxError Reader :=
  if t.kind = .rightCurly ∧ attrs = [] then
    .ok { r with root := r.addTo .domain task, mode := .items }
  else if isWord t "macro" ∧ attrs = [] then .ok { r with mode := .templateName (.task task) }
  else if t.kind = .atSign then
    .ok { r with mode := .attrName (.task task) attrs (locate file t) }
  else if isWord t "case" then
    .ok ⟨r.root, r.next + 1,
      .guardStart task (.mk (r.newNode file t (.branch .unset)) attrs)⟩
  else refuse file t (.expectedWord "case")

def afterAttr (place : Place) (attrs : List Tree) : Mode :=
  match place with
  | .block kind => .facts kind attrs
  | .task task => .branches task attrs

def afterParams : Owner → Mode
  | .template scope t => .templateAssign scope t
  | .task t => .taskOpen t

def addParam (owner : Owner) (param : Tree) : Owner :=
  match owner with
  | .template scope t => .template scope (addChild t param)
  | .task t => .task (addChild t param)

def stepParamName (file : String) (t : Token) (r : Reader) (owner : Owner) :
    Except SyntaxError Reader :=
  if t.kind = .identifier then
    let param : Tree := .mk (r.newNode file t (.param t.word)) []
    .ok ⟨r.root, r.next + 1, .params (addParam owner param) true⟩
  else refuse file t (.expectedToken .identifier)

def addTemplate (r : Reader) (scope : Scope) (t : Tree) : Reader :=
  match scope with
  | .domain => { r with root := r.addTo .domain t, mode := .items }
  | .task task => { r with mode := .branches (addChild task t) [] }

def afterTemplate (file : String) (t : Token) (r : Reader) (scope : Scope) (m : Tree) :
    Except SyntaxError Reader :=
  match scope with
  | .domain => stepItems file t (r.addTemplate .domain m)
  | .task task => stepBranches file t (r.addTemplate (.task task) m) (addChild task m) []

def afterGuard (r : Reader) (task branch precond : Tree) : Reader :=
  { r with mode := .listOpen task (addChild branch precond) }

def stepCallName (file : String) (t : Token) (r : Reader) (task branch list : Tree) :
    Except SyntaxError Reader :=
  if t.kind = .identifier then
    .ok ⟨r.root, r.next + 1, .callOpen task branch list (r.newNode file t (.invocation t.word))⟩
  else refuse file t (.expectedToken .identifier)

/-- Closes a case: its last two children are the precondition and the task list. -/
def closeBranch (task branch list : Tree) : Tree :=
  let precond := branch.children.getLast?.map Tree.id
  let info : Guarded := { Guarded.unset with precond := precond, tasks := some list.id }
  addChild task ((addChild branch list).withContent (.branch info))

def step (file : String) (t : Token) (r : Reader) : Except SyntaxError Reader :=
  match r.mode with
  | .blocks => stepBlocks file t r
  | .blockOpen kind => need file t .leftCurly { r with mode := .facts kind [] }
  | .facts kind attrs => stepFacts file t r kind attrs
  | .attrName place attrs loc =>
    need file t .identifier
      ⟨r.root, r.next + 1, .attrArgs place attrs ⟨r.next, .any, loc, .attr t.word⟩⟩
  | .attrArgs place attrs attr =>
    if t.kind = .leftRound then
      .ok { r with mode := .attrList place attrs (.startList attr) }
    else
      match place with
      | .block kind => stepFacts file t r kind (attrs ++ [.mk attr []])
      | .task task => stepBranches file t r task (attrs ++ [.mk attr []])
  | .attrList place attrs p => do
    let (progress, next) ← p.step file t r.next
    match progress with
    | .reading p => .ok ⟨r.root, next, .attrList place attrs p⟩
    | .closed attr | .ended attr => .ok ⟨r.root, next, afterAttr place (attrs ++ [attr])⟩
  | .factOpen kind fact => need file t .leftRound { r with mode := .factParams kind fact false }
  | .factParams kind fact later =>
    if t.kind = .rightRound then .ok { r with root := r.addTo kind fact, mode := .facts kind [] }
    else if later then need file t .comma { r with mode := .factType kind fact }
    else addFactType file t r kind fact
  | .factType kind fact => addFactType file t r kind fact
  | .domainName =>
    need file t .identifier
      ⟨addChild r.root (.mk (r.newNode file t (.domain t.word)) []), r.next + 1, .domainOpen⟩
  | .domainOpen => need file t .leftCurly { r with mode := .items }
  | .items => stepItems file t r
  | .templateName scope =>
    need file t .identifier ⟨r.root, r.next + 1,
      .paramsOpen (.template scope (.mk (r.newNode file t (.template t.word)) []))⟩
  | .taskName =>
    need file t .identifier
      ⟨r.root, r.next + 1, .paramsOpen (.task (.mk (r.newNode file t (.task t.word)) []))⟩
  | .paramsOpen owner => need file t .leftRound { r with mode := .params owner false }
  | .params owner later =>
    if t.kind = .rightRound then .ok { r with mode := afterParams owner }
    else if later then need file t .comma { r with mode := .paramName owner }
    else stepParamName file t r owner
  | .paramName owner => stepParamName file t r owner
  | .templateAssign scope m =>
    need file t .assign { r with mode := .templateBody scope m .start }
  | .templateBody scope m p => do
    let (progress, next) ← p.step file t r.next
    match progress with
    | .reading p => .ok ⟨r.root, next, .templateBody scope m p⟩
    | .closed body | .ended body =>
      afterTemplate file t { r with next := next } scope (addChild m body)
  | .taskOpen task => need file t .leftCurly { r with mode := .branches task [] }
  | .branches task attrs => stepBranches file t r task attrs
  | .guardStart task branch =>
    if t.kind = .arrow then
      .ok (afterGuard { r with next := r.next + 1 } task branch
        (Tree.operator r.next .and (locate file t) []))
    else do
      let (progress, next) ← Pending.start.step file t r.next
      match progress with
      | .reading p => .ok ⟨r.root, next, .guard task branch p⟩
      | .closed e | .ended e => .ok (afterGuard { r with next := next } task branch e)
  | .guard task branch p => do
    let (progress, next) ← p.step file t r.next
    match progress with
    | .reading p => .ok ⟨r.root, next, .guard task branch p⟩
    | .closed e | .ended e =>
      need file t .arrow (afterGuard { r with next := next } task branch e)
  | .listOpen task branch =>
    need file t .leftSquare
      ⟨r.root, r.next + 1, .calls task branch (.mk (r.newNode file t .taskList) []) false⟩
  | .calls task branch list later =>
    if t.kind = .rightSquare then
      .ok { r with mode := .branches (closeBranch task branch list) [] }
    else if later then need file t .comma { r with mode := .callName task branch list }
    else stepCallName file t r task branch list
  | .callName task branch list => stepCallName file t r task branch list
  | .callOpen task branch list head =>
    need file t .leftRound { r with mode := .callArgs task branch list (.startList head) }
  | .callArgs task branch list p => do
    let (progress, next) ← p.step file t r.next
    match progress with
    | .reading p => .ok ⟨r.root, next, .callArgs task branch list p⟩
    | .closed call | .ended call => .ok ⟨r.root, next, .calls task branch (addChild list call) true⟩

/-- Completes a macro whose body ends before a token. -/
def settle (file : String) (t : Token) (r : Reader) : Reader :=
  match r.mode with
  | .templateBody scope m p =>
    match p.step file t r.next with
    | .ok (.closed body, next) | .ok (.ended body, next) =>
      { r with next := next }.addTemplate scope (addChild m body)
    | _ => r
  | _ => r

/-- Reads tokens up to the first error. The reader is returned with what was complete before the
token that the error is at. -/
def run (file : String) (r : Reader) : List Token → Reader × Option SyntaxError
  | [] => (r, none)
  | t :: ts =>
    match r.step file t with
    | .ok r => run file r ts
    | .error e => (r.settle file t, some e)

end Reader

/-- What reading a source gives: the tree with the declarations that are complete, the next free
identity, and the syntax error that ended it early. -/
structure Parsed where
  root : Tree
  next : NodeId
  error : Option SyntaxError

/-- Reads a source into a tree that may already hold declarations. -/
def parse (root : Tree) (next : NodeId) (file : String) (src : Text.Bytes) : Parsed :=
  let (r, error) := Reader.run file ⟨root, next, .blocks⟩ (Token.scan src)
  ⟨r.root, r.next, error⟩

end TaskNet.Grammar

namespace TaskNet

def Tree.emptyRoot : Tree :=
  .mk ⟨0, .any, .nowhere, .root⟩ []

end TaskNet
