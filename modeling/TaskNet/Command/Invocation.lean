import TaskNet.Settings.Search

/-!
An invocation of the program: the options that every command takes, the name of the command, and
the arguments that are left for it.
-/

namespace TaskNet.Command

structure Invocation where
  request : Settings.Request
  /-- Whether everything that is recorded is written. -/
  verbose : Bool
  /-- The name of the command. -/
  command : Option String
  /-- The arguments of the command. -/
  args : List String

namespace Invocation

def empty : Invocation := ⟨⟨"", ""⟩, false, none, []⟩

/-- Leaves an argument to the command; the first operand is its name. -/
def leave (i : Invocation) (arg : String) : Invocation :=
  if i.command.isNone && !arg.startsWith "-" then { i with command := some arg }
  else { i with args := i.args ++ [arg] }

def value? (name arg : String) : Option String :=
  let start := (name ++ "=").toList
  if start.isPrefixOf arg.toList then some (.ofList (arg.toList.drop start.length)) else none

def take (i : Invocation) : List String → Invocation
  | [] => i
  | "--" :: rest => { i with args := i.args ++ "--" :: rest }
  | "--config" :: v :: rest => take { i with request := { i.request with file := v } } rest
  | "--color" :: v :: rest => take { i with request := { i.request with color := v } } rest
  | arg :: rest =>
    match value? "--config" arg, value? "--color" arg with
    | some v, _ => take { i with request := { i.request with file := v } } rest
    | none, some v => take { i with request := { i.request with color := v } } rest
    | none, none =>
      if arg == "--debug" || arg == "-d" then take { i with verbose := true } rest
      else take (i.leave arg) rest

def parse (args : List String) : Invocation :=
  take empty args

end Invocation

end TaskNet.Command
