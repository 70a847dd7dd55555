import TaskNet.Files.Path
import TaskNet.Text.Bytes

/-!
Access to files. What a program needs of a file system is a record of three operations in any
monad, so that the same commands work on the files of the machine and on a tree of files in memory.
-/

namespace TaskNet

/-- Why a file or directory could not be used. -/
inductive FileError where
  | missing
  | notDirectory
  | isDirectory
  /-- A path cannot hold the character zero. -/
  | invalid
  | nameTooLong
  | other (reason : String)
  deriving DecidableEq, Repr

def FileError.text : FileError → String
  | missing => "no such file or directory"
  | notDirectory => "not a directory"
  | isDirectory => "is a directory"
  | invalid => "invalid argument"
  | nameTooLong => "file name too long"
  | other reason => reason

/-- The operations on files that commands use. -/
structure Files (m : Type → Type) where
  /-- Whether a path leads to a directory. -/
  isDirectory : String → m (Except FileError Bool)
  /-- The bytes of a file. -/
  read : String → m (Except FileError Text.Bytes)
  /-- The names in a directory, in order, each with whether it is a directory. -/
  entries : String → m (Except FileError (List (String × Bool)))

def Files.exists {m : Type → Type} [Monad m] (files : Files m) (path : String) : m Bool := do
  match ← files.isDirectory path with
  | .ok _ => pure true
  | .error _ => pure false

/-- A directory with all that is in it: files by path, and directories that may be empty. The
directories on the way to a file are there without being listed. -/
structure FileTree where
  files : List (String × Text.Bytes)
  dirs : List String

namespace FileTree

inductive Entry where
  | file (content : Text.Bytes)
  | directory

def entry? (t : FileTree) (ps : List String) : Option Entry :=
  match t.files.find? fun (path, _) => Path.cleanParts path == ps with
  | some (_, content) => some (.file content)
  | none =>
    if ps.isEmpty || (t.files.any fun (path, _) => ps.isPrefixOf (Path.cleanParts path)) ||
        (t.dirs.any fun path => ps.isPrefixOf (Path.cleanParts path)) then some .directory
    else none

/-- The greatest size in bytes of the name of an entry. -/
def maxName : Nat := 255

def isTooLong (name : String) : Bool :=
  decide (maxName < name.utf8ByteSize)

/-- The greatest size in bytes of a path. -/
def maxPath : Nat := 4095

/-- Follows a path from a directory, which is given by its parts, innermost first. -/
def follow (t : FileTree) (trail : List String) :
    List String → Except FileError (List String × Entry)
  | [] =>
    match t.entry? trail.reverse with
    | some e => .ok (trail.reverse, e)
    | none => .error .missing
  | part :: rest =>
    match t.entry? trail.reverse with
    | none => .error .missing
    | some (.file _) => .error .notDirectory
    | some .directory =>
      if isTooLong part then .error .nameTooLong
      else if part == ".." && trail.isEmpty then .error .missing
      else follow t (Path.move false trail part) rest

/-- What a path leads to. Nothing outside the tree can be reached, and a slash at the end asks for a
directory. -/
def locate (t : FileTree) (path : String) : Except FileError (List String × Entry) :=
  if path.contains '\x00' then .error .invalid
  else if maxPath < path.utf8ByteSize then .error .nameTooLong
  else if path.isEmpty then .error .missing
  else if Path.isAbsolute path then
    .error (if (Path.parts path).head?.any isTooLong then .nameTooLong else .missing)
  else
    match t.follow [] (Path.parts path) with
    | .ok (_, .file _) =>
      if path.endsWith "/" || path.endsWith "/." then .error .notDirectory
      else t.follow [] (Path.parts path)
    | found => found

def read (t : FileTree) (path : String) : Except FileError Text.Bytes :=
  match t.locate path with
  | .ok (_, .file content) => .ok content
  | .ok (_, .directory) => .error .isDirectory
  | .error e => .error e

def nameBelow? (ps : List String) (path : String) : Option String :=
  if ps.isPrefixOf (Path.cleanParts path) then (Path.cleanParts path)[ps.length]? else none

def entries (t : FileTree) (path : String) : Except FileError (List (String × Bool)) :=
  match t.locate path with
  | .error e => .error e
  | .ok (_, .file _) => .error .notDirectory
  | .ok (ps, .directory) =>
    let names := (t.files.map Prod.fst ++ t.dirs).filterMap (nameBelow? ps)
    let names := names.eraseDups.mergeSort fun a b => decide (a ≤ b)
    .ok (names.map fun name =>
      (name, match t.entry? (ps ++ [name]) with
        | some .directory => true
        | _ => false))

def access (t : FileTree) : Files Id where
  isDirectory path := pure ((t.locate path).map fun
    | (_, .directory) => true
    | (_, .file _) => false)
  read path := pure (t.read path)
  entries path := pure (t.entries path)

end FileTree

end TaskNet
