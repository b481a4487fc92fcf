/-!
# Log lines
-/

namespace GraphQLCheck

/-- How important a log line is. -/
inductive LogLevel where
  /-- What a run came to. -/
  | debug
  /-- A single step of a run. -/
  | trace
  deriving DecidableEq, Repr, Inhabited

namespace LogLevel

/-- The name of a level. -/
def render : LogLevel → String
  | debug => "DEBUG"
  | trace => "TRACE"

end LogLevel

/-- A line of the log. -/
structure LogLine where
  /-- How important it is. -/
  level : LogLevel
  /-- What it says. -/
  message : String
  deriving DecidableEq, Repr, Inhabited

end GraphQLCheck
