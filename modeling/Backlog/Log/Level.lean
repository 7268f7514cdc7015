/-!
# Log levels
-/

namespace Backlog

inductive Level where
  | debug
  | info
  | warn
  | error
  deriving DecidableEq, Repr

namespace Level

/-- Levels are compared by rank. -/
def rank : Level → Int
  | .debug => 0
  | .info => 1
  | .warn => 2
  | .error => 3

def label : Level → String
  | .debug => "DEBUG"
  | .info => "INFO"
  | .warn => "WARN"
  | .error => "ERROR"

/-- The level a name stands for, in upper or lower case. -/
def ofName? (name : String) : Option Level :=
  match name.toLower with
  | "debug" => some .debug
  | "info" => some .info
  | "warn" | "warning" => some .warn
  | "error" => some .error
  | _ => none

end Level

end Backlog
