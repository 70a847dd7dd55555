/-!
Records of what the passes of a compilation did. A record is a message with named values, all of
them text by the time they are recorded.
-/

namespace TaskNet

inductive LogLevel where
  | debug
  | warn
  deriving DecidableEq, Repr

def LogLevel.name : LogLevel → String
  | .debug => "DEBUG"
  | .warn => "WARN"

structure LogRecord where
  level : LogLevel
  message : String
  fields : List (String × String)
  deriving DecidableEq, Repr

namespace LogRecord

def debug (message : String) (fields : List (String × String)) : LogRecord :=
  ⟨.debug, message, fields⟩

/-- A record that should be looked at. -/
def warn (message : String) (fields : List (String × String)) : LogRecord :=
  ⟨.warn, message, fields⟩

end LogRecord

end TaskNet
