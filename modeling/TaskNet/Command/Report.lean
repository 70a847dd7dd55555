import TaskNet.Command.Arguments
import TaskNet.Files.Basic
import TaskNet.Settings.Basic

/-!
What a command comes to: what it writes, why it failed, and what it counted.
-/

namespace TaskNet.Command

inductive CommandError where
  | arguments (error : ArgumentError)
  | settings (error : SettingsError)
  | accessing (path : String) (error : FileError)
  | listing (path : String) (error : FileError)
  | reading (path : String) (error : FileError)
  | filesFailed (failed total : Nat)
  | stopped (path : String) (phase : Phase)
  deriving DecidableEq, Repr

def CommandError.message : CommandError → String
  | arguments e => e.message
  | settings e => e.message
  | accessing path e => "accessing " ++ path ++ ": stat " ++ path ++ ": " ++ e.text
  | listing path e => "reading directory " ++ path ++ ": open " ++ path ++ ": " ++ e.text
  | reading path e =>
    "reading " ++ path ++ (if e == .isDirectory then ": read " else ": open ") ++ path ++ ": " ++
    e.text
  | filesFailed failed total => toString failed ++ " of " ++ toString total ++ " files failed"
  | stopped path phase => path ++ ": compilation stopped in " ++ phase.name

abbrev Tally := List (String × Nat)

namespace Tally

def add (name : String) : Tally → Tally
  | [] => [(name, 1)]
  | (k, n) :: rest => if k == name then (k, n + 1) :: rest else (k, n) :: add name rest

/-- Counts a compilation: where it stopped and each of its problems, if it has any. -/
def count (o : Outcome) (t : Tally) : Tally :=
  let t := t.add "compiled"
  if o.ok then t
  else
    let t := (t.add "failed").add ("stopped " ++ o.reached.name)
    o.diagnostics.foldl (fun t d => t.add ("diagnostic " ++ d.problem.code)) t

end Tally

structure Report where
  stdout : Text.Bytes
  stderr : Text.Bytes
  error : Option CommandError
  tally : Tally
  log : List LogRecord

namespace Report

def empty : Report := ⟨[], [], none, [], []⟩

def failed (e : CommandError) : Report :=
  { empty with error := some e }

/-- The same with nothing written, for a caller without streams. -/
def silent (r : Report) : Report :=
  { r with stdout := [], stderr := [] }

end Report

end TaskNet.Command
