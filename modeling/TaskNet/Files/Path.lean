/-!
Paths with slashes. A clean path has no empty parts and no single dots, and leaves a directory by
two dots only where there is none left to leave.
-/

namespace TaskNet.Path

def isAbsolute (path : String) : Bool :=
  path.startsWith "/"

/-- The parts of a path that move: neither empty nor a single dot. -/
def parts (path : String) : List String :=
  (path.splitOn "/").filter fun p => p != "" && p != "."

/-- Moves by one part; what was moved through is held innermost first. -/
def move (absolute : Bool) (trail : List String) (part : String) : List String :=
  if part == ".." then
    match trail with
    | [] => if absolute then [] else [".."]
    | last :: rest => if last == ".." then ".." :: trail else rest
  else part :: trail

def cleanParts (path : String) : List String :=
  ((parts path).foldl (move (isAbsolute path)) []).reverse

def ofParts (absolute : Bool) (ps : List String) : String :=
  if absolute then "/" ++ "/".intercalate ps
  else if ps.isEmpty then "."
  else "/".intercalate ps

/-- The clean path with the same meaning. -/
def clean (path : String) : String :=
  ofParts (isAbsolute path) (cleanParts path)

/-- The clean path of an entry of a directory. -/
def join (dir name : String) : String :=
  clean (dir ++ "/" ++ name)

/-- A directory and the directories above it, innermost first, as far as the path tells them: a path
that starts with two dots ends where it has left what it started from. -/
def ancestors (dir : String) : List String :=
  let ps := cleanParts dir
  let outside := (ps.takeWhile (· == "..")).length
  ((List.range (ps.length + 1)).drop outside).reverse.map fun n =>
    ofParts (isAbsolute dir) (ps.take n)

end TaskNet.Path
