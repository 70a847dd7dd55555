import TaskNet.Files.Basic
import TaskNet.Settings.Basic

/-!
Where the settings of a project are found: in the file that is asked for, or in the nearest file of
the usual name in a directory or above it. The search does not leave a version-controlled tree.
-/

namespace TaskNet.Settings

variable {m : Type → Type} [Monad m]

def load (files : Files m) (path : String) : m (Except SettingsError Settings) := do
  match ← files.read path with
  | .ok text => pure (ofDocument path text)
  | .error _ => pure (.error (.malformed path))

/-- The settings in the first of some directories that has them, with their path. A directory with
an entry `.git` is the last that is searched. -/
def findAmong (files : Files m) :
    List String → m (Except SettingsError (Option (String × Settings)))
  | [] => pure (.ok none)
  | dir :: above => do
    let path := Path.join dir fileName
    if ← files.exists path then
      match ← load files path with
      | .ok s => pure (.ok (some (path, s)))
      | .error e => pure (.error e)
    else if ← files.exists (Path.join dir ".git") then pure (.ok none)
    else findAmong files above

/-- The nearest settings from a directory upwards. -/
def find (files : Files m) (dir : String) :
    m (Except SettingsError (Option (String × Settings))) :=
  findAmong files (Path.ancestors dir)

/-- What a user asks for in place of what a document says. Empty texts ask for nothing. -/
structure Request where
  /-- The file with the settings. -/
  file : String
  /-- When diagnostics are colored. -/
  color : String

/-- The settings that a command runs with from a directory. -/
def choose (files : Files m) (dir : String) (r : Request) :
    m (Except SettingsError Settings) := do
  let base ← if r.file.isEmpty then do
      match ← find files dir with
      | .ok found => pure (.ok ((found.map Prod.snd).getD standard))
      | .error e => pure (.error e)
    else load files r.file
  match base with
  | .error e => pure (.error e)
  | .ok s =>
    if r.color.isEmpty then pure (.ok s)
    else pure ({ s with color := r.color }.validated "--color")

end TaskNet.Settings
