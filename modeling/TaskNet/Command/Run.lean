import TaskNet.Command.Report
import TaskNet.Diagnostic.Layout
import TaskNet.Settings.Search
import TaskNet.Tree.Outline

/-!
The commands on files: `check` compiles files and reports their problems, `dump` prints the tree of
one file.
-/

namespace TaskNet.Command

/-- The surroundings of a command. -/
structure Setting where
  /-- The working directory. -/
  dir : String
  request : Settings.Request
  /-- Whether problems are written to a terminal. -/
  terminal : Bool

def sourceSuffix : String := ".htn"

def problemsText (s : Settings) (terminal : Bool) (o : Outcome) : Except Fault Text.Bytes :=
  let layout : Layout := ⟨o.source.text, s.useColor terminal, 1⟩
  layout.formatAll o.diagnostics

variable {m : Type → Type} [Monad m]

/-- The files that a path stands for: itself, or the sources in a directory in order. -/
def filesAt (files : Files m) (path : String) : m (Except CommandError (List String)) := do
  match ← files.isDirectory path with
  | .error e => pure (.error (.accessing path e))
  | .ok false => pure (.ok [path])
  | .ok true =>
    match ← files.entries path with
    | .error e => pure (.error (.listing path e))
    | .ok entries =>
      let sources := entries.filter fun (name, dir) => !dir && name.endsWith sourceSuffix
      pure (.ok (sources.map fun (name, _) => Path.join path name))

/-- The files that paths stand for, in order. -/
def collect (files : Files m) : List String → m (Except CommandError (List String))
  | [] => pure (.ok [])
  | path :: rest => do
    match ← filesAt files path with
    | .error e => pure (.error e)
    | .ok here =>
      match ← collect files rest with
      | .error e => pure (.error e)
      | .ok more => pure (.ok (here ++ more))

def readAll (files : Files m) : List String → m (Except CommandError (List Source))
  | [] => pure (.ok [])
  | path :: rest => do
    match ← files.read path with
    | .error e => pure (.error (.reading path e))
    | .ok text =>
      match ← readAll files rest with
      | .error e => pure (.error e)
      | .ok more => pure (.ok (⟨path, text⟩ :: more))

def Report.addChecked (s : Settings) (terminal : Bool) (r : Report) (o : Outcome) :
    Except Fault Report :=
  let r := { r with tally := r.tally.count o, log := r.log ++ o.session.log }
  if o.ok then .ok { r with stdout := r.stdout ++ Text.bytesOf (o.source.file ++ ": ok\n") }
  else (problemsText s terminal o).map fun text => { r with stderr := r.stderr ++ text }

def checkedReport (s : Settings) (terminal : Bool) (outcomes : List Outcome) :
    Except Fault Report := do
  let r ← outcomes.foldlM (Report.addChecked s terminal) .empty
  let bad := outcomes.countP fun o => !o.ok
  .ok (if bad == 0 then r else { r with error := some (.filesFailed bad outcomes.length) })

def check (files : Files m) (setting : Setting) (paths : List String) :
    m (Except Fault Report) := do
  match ← Settings.choose files setting.dir setting.request with
  | .error e => pure (.ok (.failed (.settings e)))
  | .ok s =>
    match ← collect files paths with
    | .error e => pure (.ok (.failed e))
    | .ok names =>
      match ← readAll files names with
      | .error e => pure (.ok (.failed e))
      | .ok sources =>
        pure ((sources.mapM (compile s.options)).bind (checkedReport s setting.terminal))

def dumpedReport (s : Settings) (terminal raw : Bool) (o : Outcome) : Except Fault Report :=
  let tree := if raw then o.tree.record.outline else o.tree.print
  let r : Report := { Report.empty with stdout := Text.bytesOf tree, log := o.session.log }
  if o.ok then .ok r
  else (problemsText s terminal o).map fun text =>
    { r with stderr := text, error := some (.stopped o.source.file o.reached) }

def dump (files : Files m) (setting : Setting) (raw : Bool) (path : String) :
    m (Except Fault Report) := do
  match ← Settings.choose files setting.dir setting.request with
  | .error e => pure (.ok (.failed (.settings e)))
  | .ok s =>
    match ← files.read path with
    | .error e => pure (.ok (.failed (.reading path e)))
    | .ok text =>
      pure ((compile s.options ⟨path, text⟩).bind (dumpedReport s setting.terminal raw))

def runCheck (files : Files m) (setting : Setting) (args : List String) :
    m (Except Fault Report) :=
  match Arguments.parse [helpSwitch] args with
  | .error e => pure (.ok (.failed (.arguments e)))
  | .ok a =>
    if a.isOn helpSwitch.name then pure (.ok .empty)
    else if a.operands.isEmpty then pure (.ok (.failed (.arguments (.tooFew 1 0))))
    else check files setting a.operands

def runDump (files : Files m) (setting : Setting) (args : List String) :
    m (Except Fault Report) :=
  match Arguments.parse [helpSwitch, rawSwitch] args with
  | .error e => pure (.ok (.failed (.arguments e)))
  | .ok a =>
    if a.isOn helpSwitch.name then pure (.ok .empty)
    else match a.operands with
      | [path] => dump files setting (a.isOn rawSwitch.name) path
      | operands => pure (.ok (.failed (.arguments (.wrongNumber 1 operands.length))))

end TaskNet.Command
