import TaskNet.Json.Reader
import TaskNet.Service.Method

/-!
Requests to the service and replies. A line holds one request or a batch of them as JSON. A request
without an identifier is a notification, which is answered only when it is no valid request. Two
requests at a time must not have one identifier, and an identifier that was given to a method that
does not exist stays taken.
-/

namespace TaskNet.Service

inductive RequestError where
  | notJson
  | emptyBatch
  | notObject
  | versionKey
  | methodKey
  | errorKey
  | badId
  | badParams
  | mixed
  | extraFields
  | duplicateId
  | version
  | emptyMethod
  | unknownMethod
  | invalidParams
  | missingSource
  deriving DecidableEq, Repr

namespace RequestError

def code : RequestError → Int
  | notJson | notObject | versionKey | methodKey | errorKey => -32700
  | emptyBatch | badId | badParams | mixed | extraFields | duplicateId | version
  | emptyMethod => -32600
  | unknownMethod => -32601
  | invalidParams | missingSource => -32602

def message : RequestError → String
  | notJson => "invalid request value"
  | emptyBatch => "empty request batch"
  | notObject => "request is not a JSON object"
  | versionKey => "invalid version key"
  | methodKey => "invalid method name"
  | errorKey => "invalid error value"
  | badId => "invalid request ID"
  | badParams => "parameters must be array or object"
  | mixed => "mixed request and reply fields"
  | extraFields => "extra fields in request"
  | duplicateId => "duplicate request ID"
  | version => "invalid version marker"
  | emptyMethod => "empty method name"
  | unknownMethod => "method not found"
  | invalidParams => "invalid parameters"
  | missingSource => "missing source"

/-- Whether the request itself is at fault, so that also a notification is answered. -/
def isInvalidRequest (e : RequestError) : Bool :=
  e.code == -32700 || e.code == -32600

end RequestError

structure Request where
  /-- The identifier, none for a notification. -/
  id : Option JsonValue
  version : String
  method : String
  params : Option JsonValue
  /-- Whether it has members that only a reply has. -/
  reply : Bool
  error : Option RequestError

namespace Request

/-- A request of which nothing is known. -/
def blank : Request := ⟨none, "", "", none, false, none⟩

/-- Records an error unless there is one already. -/
def fail (r : Request) (e : RequestError) : Request :=
  { r with error := r.error.or (some e) }

/-- Whether a number is an integer of 32 bits. -/
def isCode (text : String) : Bool :=
  let (negative, digits) := Text.unsigned text.toList
  digits.all Char.isDigit &&
    Text.digitsValue 10 digits ≤ (if negative then 2147483648 else 2147483647)

/-- Whether a member can be part of an error: a code is a small integer and a message is a text. -/
def isErrorMember (name : String) (v : JsonValue) : Bool :=
  match v with
  | .null => true
  | .number t => !Text.equalFold name "message" && (!Text.equalFold name "code" || isCode t)
  | .string _ _ => !Text.equalFold name "code"
  | _ => !Text.equalFold name "message" && !Text.equalFold name "code"

def addMember (r : Request) (name : String) (v : JsonValue) : Request :=
  if name == "jsonrpc" then
    match v with
    | .string s _ => { r with version := s }
    | .null => r
    | _ => r.fail .versionKey
  else if name == "id" then
    match v with
    | .null => r
    | .string _ _ => { r with id := some v }
    | .number _ => { r with id := some v }
    | _ => r.fail .badId
  else if name == "method" then
    match v with
    | .string s _ => { r with method := s }
    | .null => r
    | _ => r.fail .methodKey
  else if name == "params" then
    match v with
    | .null => r
    | .array _ => { r with params := some v }
    | .object _ => { r with params := some v }
    | _ => r.fail .badParams
  else if name == "error" then
    match v with
    | .null => r
    | .object members =>
      let r := { r with reply := true }
      if members.all fun m => isErrorMember m.1 m.2 then r else r.fail .errorKey
    | _ => r.fail .errorKey
  else if name == "result" then { r with reply := true }
  else r

/-- The names that members of a message may have. -/
def memberNames : List String :=
  ["jsonrpc", "id", "method", "params", "error", "result"]

/-- The members of an object of which each name counts once, with its last value. -/
def distinct : List (String × JsonValue) → List (String × JsonValue)
  | [] => []
  | (name, v) :: rest =>
    if rest.any fun m => m.1 == name then distinct rest else (name, v) :: distinct rest

/-- A request with its members. What is wrong with a single member counts first, then the version,
then members that do not go together, then members that mean nothing. -/
def ofMembers (members : List (String × JsonValue)) : Request :=
  let r := members.foldl (fun r (name, v) => r.addMember name v) blank
  let r := if r.version == "2.0" then r else r.fail .version
  let r := if r.reply && !r.method.isEmpty then r.fail .mixed else r
  if members.all fun m => memberNames.contains m.1 then r else r.fail .extraFields

def ofJson : JsonValue → Request
  | .object members => ofMembers (distinct members)
  | .null => ofMembers []
  | _ => blank.fail .notObject

/-- What identifiers are told apart by: the way they are written. -/
def key? (r : Request) : Option String :=
  r.id.bind JsonValue.spelling?

/-- Whether a request asks for a method that does not exist. -/
def isLost (r : Request) : Bool :=
  r.error.isNone && !r.method.isEmpty && (Method.ofName? r.method).isNone

end Request

/-- Sets a parameter from a member of an object. The name counts without regard to case, and null
leaves the parameter as it is. -/
def Params.set (p : Params) (name : String) (v : JsonValue) : Except RequestError Params :=
  if Text.equalFold name "filename" then
    match v with
    | .string s _ => .ok { p with file := s }
    | .null => .ok p
    | _ => .error .invalidParams
  else if Text.equalFold name "source" then
    match v with
    | .string s _ => .ok { p with source := s }
    | .null => .ok p
    | _ => .error .invalidParams
  else .ok p

/-- The parameters of a request, by name or both by position. -/
def Params.ofJson : Option JsonValue → Except RequestError Params
  | none => .ok ⟨"", ""⟩
  | some (.object members) => members.foldlM (fun p (name, v) => p.set name v) ⟨"", ""⟩
  | some (.array [file, source]) => do
    let p ← Params.set ⟨"", ""⟩ "filename" file
    p.set "source" source
  | some _ => .error .invalidParams

def call (opts : Options) (method : Method) (p : Params) :
    Except Fault (Except RequestError JsonValue) :=
  if p.source.isEmpty then .ok (.error .missingSource)
  else (method.run opts p).map .ok

def Request.run (opts : Options) (r : Request) : Except Fault (Except RequestError JsonValue) :=
  match r.error with
  | some e => .ok (.error e)
  | none =>
    if r.method.isEmpty then .ok (.error .emptyMethod)
    else match Method.ofName? r.method with
      | none => .ok (.error .unknownMethod)
      | some method =>
        match Params.ofJson r.params with
        | .error e => .ok (.error e)
        | .ok p => call opts method p

def replyValue (id : Option JsonValue) (result : Except RequestError JsonValue) : JsonValue :=
  .object [("jsonrpc", .ofString "2.0"), ("id", id.getD .null),
    match result with
    | .ok v => ("result", v)
    | .error e => ("error", .object [("code", .int e.code), ("message", .ofString e.message)])]

/-- The reply to a request, none for a notification without fault. -/
def Request.reply? (opts : Options) (r : Request) : Except Fault (Option JsonValue) := do
  let result ← r.run opts
  match r.id, result with
  | none, .ok _ => return none
  | none, .error e => return if e.isInvalidRequest then some (replyValue none result) else none
  | some _, _ => return some (replyValue r.id result)

abbrev Taken := List String

/-- Requests that come together. One is refused when another one of them has its identifier, or when
its identifier is taken. -/
def refuseRepeated (taken : Taken) (batch : List Request) : List Request :=
  batch.map fun r =>
    match r.key? with
    | none => r
    | some key =>
      if taken.contains key || 1 < batch.countP fun other => other.key? == some key then
        { r with error := some .duplicateId }
      else r

def replies (opts : Options) : List Request → Except Fault (List JsonValue)
  | [] => .ok []
  | r :: rest => do
    let reply ← r.reply? opts
    let more ← replies opts rest
    pure (reply.toList ++ more)

def serve (opts : Options) (taken : Taken) (batch : List Request) :
    Except Fault (List JsonValue × Taken) := do
  let batch := refuseRepeated taken batch
  let sent ← replies opts batch
  pure (sent, taken ++ (batch.filter Request.isLost).filterMap Request.key?)

def answer (opts : Options) (taken : Taken) (line : String) :
    Except Fault (Option JsonValue × Taken) := do
  match JsonValue.parse? line with
  | none => return (some (replyValue none (.error .notJson)), taken)
  | some (.array []) => return (some (replyValue none (.error .emptyBatch)), taken)
  | some (.array items) =>
    let (sent, taken) ← serve opts taken (items.map Request.ofJson)
    return (if sent.isEmpty then none else some (.array sent), taken)
  | some v =>
    let (sent, taken) ← serve opts taken [Request.ofJson v]
    return (sent.head?, taken)

def answerLines (opts : Options) (taken : Taken) :
    List String → Except Fault (List JsonValue × Taken)
  | [] => .ok ([], taken)
  | line :: rest => do
    let (sent, taken) ← answer opts taken line
    let (more, taken) ← answerLines opts taken rest
    pure (sent.toList ++ more, taken)

end TaskNet.Service
