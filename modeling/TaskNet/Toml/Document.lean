import TaskNet.Toml.Reader

/-!
The table that the statements of a document build. A header and a dotted key make the tables on
their way; such a table may still be given a header of its own once, while a key that has a value is
taken. The keys are kept in the order in which they were written.

An inline table is built twice: its keys go into the document like any others, and they go into a
record of its own, where a key may be given a new value but must not lead through something that is
no table. The record is the value of the inline table. Mostly the document keeps what it has; where
it takes the record over, the two are one table from then on.
-/

namespace TaskNet.Toml

namespace Table

def get? (t : Table) (key : String) : Option Value :=
  t.lookup key

/-- Gives a key a value, in its place when it has one. -/
def put (key : String) (v : Value) : Table → Table
  | [] => [(key, v)]
  | (k, w) :: rest => if k == key then (k, v) :: rest else (k, w) :: put key v rest

/-- Changes the table that a key leads to, the last one for an array of tables. Fails where the key
leads to no table. -/
def update (f : Table → Option Table) : Key → Table → Option Table
  | [], t => f t
  | k :: ks, t =>
    match t.get? k with
    | some (.table entries) => (update f ks entries).map fun e => t.put k (.table e)
    | some (.tables rows) =>
      match rows.getLast? with
      | some row => (update f ks row).map fun e => t.put k (.tables (rows.dropLast ++ [e]))
      | none => none
    | _ => none

/-- Gives a key its value, whatever it had, and makes the tables on the way to it. Fails where the
way leads through something else. -/
def assign (last : String) (v : Value) : Key → Table → Option Table
  | [], t => some (t.put last v)
  | k :: ks, t =>
    match t.get? k with
    | none => (assign last v ks []).map fun e => t.put k (.table e)
    | some (.table entries) => (assign last v ks entries).map fun e => t.put k (.table e)
    | some _ => none

end Table

def Table.find? : Key → Table → Option Table
  | [], t => some t
  | k :: ks, t =>
    match t.get? k with
    | some (.table entries) => find? ks entries
    | some (.tables rows) => rows.getLast?.bind (find? ks)
    | _ => none

structure Builder where
  root : Table
  /-- The table that keys go into. -/
  context : Key
  /-- Tables that were made on the way and may still be defined. -/
  implicit : List Key
  /-- Keys whose value is an array. -/
  arrays : List Key
  /-- The keys that were written, in order. -/
  keys : List Key
  /-- Tables that are one with the record of an inline table. -/
  shared : List Key

namespace Builder

def empty : Builder := ⟨[], [], [], [], [], []⟩

def mark (b : Builder) (key : Key) : Builder :=
  { b with implicit := key :: b.implicit }

def unmark (b : Builder) (key : Key) : Builder :=
  { b with implicit := b.implicit.filter (· != key) }

/-- Notes whether a key of the current table holds an array. An empty key speaks for the table. -/
def note (b : Builder) (key : String) (array : Bool) : Builder :=
  let full := if key.isEmpty && !b.context.isEmpty then b.context else b.context ++ [key]
  let others := b.arrays.filter (· != full)
  { b with arrays := if array then full :: others else others }

def write (b : Builder) (key : Key) : Builder :=
  { b with keys := b.keys ++ [key] }

def put (b : Builder) (key : String) (v : Value) : Option Builder := do
  let root ← Table.update (fun t => some (t.put key v)) b.context b.root
  some { b with root := root }

/-- Marks a table as one with a record. -/
def share (b : Builder) (key : Key) : Value → Builder
  | .table _ => { b with shared := key :: b.shared }
  | _ => b

/-- Takes the marks off the tables at and below a key. -/
def unshare (b : Builder) (key : Key) : Builder :=
  { b with shared := b.shared.filter fun s => !key.isPrefixOf s }

/-- Gives a key of the current table the value that a record got, if the table is one with it. -/
def follow (b : Builder) (key : String) (v : Value) : Option Builder :=
  if b.shared.any (·.isPrefixOf (b.context ++ [key])) then b.put key v else some b

/-- Gives a key of the current table its value. A key that was made on the way is defined by this
once: under a key that holds an array the value takes the place of what was made, else what was made
stays. Any other key must be new. -/
def define (b : Builder) (key : String) (v : Value) : Option Builder := do
  let table ← Table.find? b.context b.root
  let full := b.context ++ [key]
  if (table.get? key).isNone then b.put key v
  else if !b.implicit.contains full then none
  else if b.arrays.contains full then ((b.unmark full).share full v).put key v
  else some (b.unmark full)

def reach (b : Builder) : Key → Option Builder
  | [] => some b
  | k :: ks => do
    let table ← Table.find? b.context b.root
    let full := b.context ++ [k]
    let b ← if (table.get? k).isNone then (b.mark full).put k (.table []) else some b
    reach { b with context := full } ks

/-- Enters the table of a key, or one more table of the array of tables of a key. -/
def enter (b : Builder) (key : Key) (element : Bool) : Option Builder := do
  let last ← key.getLast?
  let b ← reach { b with context := [] } key.dropLast
  let b ← if element then
      match (← Table.find? b.context b.root).get? last with
      | none => b.put last (.tables [[]])
      | some (.tables rows) => b.put last (.tables (rows ++ [[]]))
      | some _ => none
    else b.define last (.table [])
  some { b with context := key }

/-- Enters the tables on the way of a dotted key below the current table. -/
def descend (b : Builder) : Key → Option Builder
  | [] => some b
  | k :: ks => do
    let full := b.context ++ [k]
    let b ← (b.mark full).define k (.table [])
    descend { b with context := full } ks

mutual

def evaluate (b : Builder) (key : String) (inArray : Bool) :
    Literal → Option (Value × Builder)
  | .text s => some (.text s, b)
  | .integer n => some (.integer n, b)
  | .boolean x => some (.boolean x, b)
  | .float => some (.float, b)
  | .moment => some (.moment, b)
  | .array items => do
    let (values, b) ← evaluateItems (b.note key true) key items
    some (.array values, b)
  | .inline pairs => do
    let full := b.context ++ [key]
    let inner ← ((b.mark full).unshare full).enter full inArray
    let (record, inner) ← definePairs inner [] pairs
    some (.table record, { inner with context := b.context })

def evaluateItems (b : Builder) (key : String) : List Literal → Option (List Value × Builder)
  | [] => some ([], b)
  | item :: items => do
    let (v, b) ← evaluate b key true item
    let (vs, b) ← evaluateItems b key items
    some (v :: vs, b)

def definePairs (b : Builder) (record : Table) : List (Key × Literal) → Option (Table × Builder)
  | [] => some (record, b)
  | (key, literal) :: pairs => do
    let last ← key.getLast?
    let inner ← b.descend key.dropLast
    let (v, inner) ← evaluate (inner.write (inner.context ++ [last])) last false literal
    let inner ← inner.define last v
    let inner := inner.note last (literal matches .array _)
    let record ← record.assign last v key.dropLast
    let inner ← inner.follow last v
    definePairs { inner with context := b.context } record pairs

end

def step (b : Builder) : Statement → Option Builder
  | .table key => do
    let b ← b.enter key false
    some ((b.note "" false).write key)
  | .element key => do
    let b ← b.enter key true
    some ((b.note "" false).write key)
  | .pair key literal => (definePairs { b with shared := [] } [] [(key, literal)]).map Prod.snd

end Builder

/-- A document: its table, and its keys in the order in which they were written. -/
structure Document where
  root : Table
  keys : List Key

def parse? (text : String) : Option Document := do
  let statements ← read? text
  let b ← statements.foldlM Builder.step Builder.empty
  some ⟨b.root, b.keys⟩

end TaskNet.Toml
