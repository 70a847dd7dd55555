import TaskNet.Compile
import TaskNet.Toml.Document

/-!
Settings of a project. They are kept in a document with the keys `max_dnf_clauses`, `color` and
`intrinsics.disable`, whose case does not matter; keys that are left out have default values and
other keys are refused.
-/

namespace TaskNet

structure Settings where
  /-- The bound on the clauses of one precondition; zero is no bound. -/
  maxClauses : Int
  /-- When diagnostics are colored. -/
  color : String
  /-- Intrinsics that are not available. -/
  disabled : List String
  deriving DecidableEq, Repr

inductive SettingsFlaw where
  | color (got : String)
  | limit (got : Int)
  deriving DecidableEq, Repr

inductive SettingsError where
  /-- The document cannot be read, or a key has a value of the wrong kind. -/
  | malformed (path : String)
  | unknownKey (path : String) (key : Toml.Key)
  | flawed (origin : String) (flaw : SettingsFlaw)
  deriving DecidableEq, Repr

def SettingsFlaw.message : SettingsFlaw → String
  | color got => "color must be \"auto\", \"always\" or \"never\", got " ++ Text.quoted got
  | limit got => "max_dnf_clauses must not be negative, got " ++ toString got

def SettingsError.message : SettingsError → String
  | malformed path => "parsing " ++ path ++ ": not a settings document"
  | unknownKey path key => path ++ ": unknown key " ++ Text.quoted (Toml.keyText key)
  | flawed origin flaw => origin ++ ": " ++ flaw.message

namespace Settings

def fileName : String := "htnc.toml"

/-- The settings of a project that has no document. -/
def standard : Settings := ⟨4096, "auto", []⟩

/-- The first value that is out of range. -/
def flaw? (s : Settings) : Option SettingsFlaw :=
  if s.color != "auto" && s.color != "always" && s.color != "never" then some (.color s.color)
  else if s.maxClauses < 0 then some (.limit s.maxClauses)
  else none

def validated (origin : String) (s : Settings) : Except SettingsError Settings :=
  match s.flaw? with
  | some f => .error (.flawed origin f)
  | none => .ok s

def useColor (s : Settings) (terminal : Bool) : Bool :=
  if s.color == "always" then true
  else if s.color == "never" then false
  else terminal

def options (s : Settings) : Options :=
  ⟨s.maxClauses, s.disabled⟩

def texts? : List Toml.Value → Option (List String)
  | [] => some []
  | .text s :: rest => (texts? rest).map (s :: ·)
  | _ => none

/-- Takes the keys of the table of intrinsics. Keys that mean something are collected. -/
def takeIntrinsics (table : String) (s : Settings) (known : List Toml.Key) :
    Toml.Table → Option (Settings × List Toml.Key)
  | [] => some (s, known)
  | (key, value) :: rest =>
    if Text.equalFold key "disable" then
      match value with
      | .array items => do
        let names ← texts? items
        takeIntrinsics table { s with disabled := names } ([table, key] :: known) rest
      | _ => none
    else takeIntrinsics table s known rest

/-- Takes the keys of a document. Keys that mean something are collected; a value of the wrong kind
ends it. -/
def takeKeys (s : Settings) (known : List Toml.Key) :
    Toml.Table → Option (Settings × List Toml.Key)
  | [] => some (s, known)
  | (key, value) :: rest =>
    if Text.equalFold key "max_dnf_clauses" then
      match value with
      | .integer n => takeKeys { s with maxClauses := n } ([key] :: known) rest
      | _ => none
    else if Text.equalFold key "color" then
      match value with
      | .text c => takeKeys { s with color := c } ([key] :: known) rest
      | _ => none
    else if Text.equalFold key "intrinsics" then
      match value with
      | .table entries => do
        let (s, known) ← takeIntrinsics key s ([key] :: known) entries
        takeKeys s known rest
      | _ => none
    else takeKeys s known rest

def ofDocument (path : String) (text : Text.Bytes) : Except SettingsError Settings :=
  let taken : Option (Toml.Document × Settings × List Toml.Key) := do
    let text ← String.fromUTF8? (ByteArray.mk text.toArray)
    let doc ← Toml.parse? text
    let (s, known) ← takeKeys standard [] doc.root
    some (doc, s, known)
  match taken with
  | none => .error (.malformed path)
  | some (doc, s, known) =>
    match doc.keys.find? fun key => !known.contains key with
    | some key => .error (.unknownKey path key)
    | none => s.validated path

end Settings

end TaskNet
