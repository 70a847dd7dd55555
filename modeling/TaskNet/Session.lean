import TaskNet.Diagnostic.Collector
import TaskNet.Log
import TaskNet.Program

/-!
The state that one pass of a compilation hands to the next.
-/

namespace TaskNet

/-- A program with what has been reported, recorded and left on the scratch stacks. -/
structure Session where
  program : Program
  diagnostics : Collector
  scratch : Scratch
  /-- Oldest record first. -/
  log : List LogRecord

namespace Session

def start : Session :=
  ⟨.empty, .empty, .empty, []⟩

def record (s : Session) (r : LogRecord) : Session :=
  { s with log := s.log ++ [r] }

end Session

end TaskNet
