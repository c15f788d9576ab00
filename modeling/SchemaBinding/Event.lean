/-!
# Events

What the library reports about its own work. Events are data: they are computed from results and
have no effect on them.
-/

namespace SchemaBinding

inductive Level where
  | trace
  | debug
  | warn
deriving DecidableEq, Repr

def Level.name : Level → String
  | .trace => "trace"
  | .debug => "debug"
  | .warn => "warn"

structure Event where
  level : Level
  message : String
  /-- Named details, all as text. -/
  details : List (String × String)
deriving DecidableEq, Repr

end SchemaBinding
