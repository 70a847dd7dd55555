import TaskNet.Command.Invocation
import TaskNet.Command.Run
import TaskNet.Service.Request

/-!
The program: commands on the files of the machine, and the service on standard input and output.
-/

namespace TaskNet.CommandLine

def octets (bs : Text.Bytes) : ByteArray :=
  ByteArray.mk bs.toArray

def causeOf : IO.Error → FileError
  | .noFileOrDirectory .. => .missing
  | .inappropriateType .. => .notDirectory
  | .invalidArgument _ code _ => if code == 36 then .nameTooLong else .invalid
  | e => .other (toString e)

def isDirectory (path : String) : IO (Except FileError Bool) := do
  try
    let place ← IO.FS.realPath path
    if ← place.isDir then pure (.ok true)
    else if ← place.pathExists then pure (.ok false)
    else pure (.error .missing)
  catch e => pure (.error (causeOf e))

def readFile (path : String) : IO (Except FileError Text.Bytes) := do
  match ← isDirectory path with
  | .error e => pure (.error e)
  | .ok true => pure (.error .isDirectory)
  | .ok false =>
    try pure (.ok (← IO.FS.readBinFile path).toList)
    catch e => pure (.error (causeOf e))

def entries (path : String) : IO (Except FileError (List (String × Bool))) := do
  try
    let place ← IO.FS.realPath path
    let found ← place.readDir
    let listed ← found.toList.mapM fun entry => do pure (entry.fileName, ← entry.path.isDir)
    pure (.ok (listed.mergeSort fun a b => decide (a.1 ≤ b.1)))
  catch e => pure (.error (causeOf e))

def files : Files IO where
  isDirectory := isDirectory
  read := readFile
  entries := entries

/-- Writes what was recorded, of all levels or of those above debugging. -/
def writeLog (verbose : Bool) (records : List LogRecord) : IO Unit := do
  let stderr ← IO.getStderr
  for r in records do
    if verbose || r.level != .debug then
      let fields := r.fields.map fun (k, v) => " " ++ k ++ "=" ++ v
      stderr.putStrLn (r.level.name ++ " " ++ r.message ++ String.join fields)

def failWith (message : String) : IO UInt32 := do
  (← IO.getStderr).putStrLn message
  pure 1

def finish (verbose : Bool) : Except Fault Command.Report → IO UInt32
  | .error f => failWith (f.message?.getD "internal fault")
  | .ok r => do
    writeLog verbose r.log
    (← IO.getStdout).write (octets r.stdout)
    (← IO.getStderr).write (octets r.stderr)
    match r.error with
    | none => pure 0
    | some e => failWith e.message

/-- Answers lines of standard input until it ends. -/
partial def serveLines (opts : Options) (taken : Service.Taken) : IO UInt32 := do
  let line ← (← IO.getStdin).getLine
  if line.isEmpty then return 0
  match Service.answer opts taken line with
  | .error f => failWith (f.message?.getD "internal fault")
  | .ok (reply, taken) =>
    let stdout ← IO.getStdout
    if let some v := reply then
      stdout.putStrLn v.text
      stdout.flush
    serveLines opts taken

def run (i : Command.Invocation) : IO UInt32 := do
  let dir := (← IO.currentDir).toString
  let terminal ← (← IO.getStderr).isTty
  let setting : Command.Setting := ⟨dir, i.request, terminal⟩
  match i.command with
  | some "check" => finish i.verbose (← Command.runCheck files setting i.args)
  | some "dump" => finish i.verbose (← Command.runDump files setting i.args)
  | some "serve" =>
    match ← Settings.choose files dir i.request with
    | .error e => failWith e.message
    | .ok s => serveLines s.options []
  | some name => failWith ("unknown command " ++ Text.quoted name)
  | none => failWith "usage: check [path...] | dump [--raw] file | serve"

end TaskNet.CommandLine

def main (args : List String) : IO UInt32 :=
  TaskNet.CommandLine.run (.parse args)
