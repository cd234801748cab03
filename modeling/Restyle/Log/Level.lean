/-!
# Log levels

From errors, which always matter most, down to debugging notes.
-/

namespace Restyle.Log

inductive Level where
  | error
  | warning
  | info
  | debug
  deriving DecidableEq, Repr

namespace Level

/-- How far the level is from an error. -/
def rank : Level → Nat
  | error => 0
  | warning => 1
  | info => 2
  | debug => 3

/-- Does an event of level `l` pass a threshold? -/
def passes (l threshold : Level) : Bool := l.rank ≤ threshold.rank

def all : List Level := [error, warning, info, debug]

/-- The level as log lines show it. -/
def label : Level → String
  | error => "ERROR"
  | warning => "WARN"
  | info => "INFO"
  | debug => "DEBUG"

/-- The level as settings name it. -/
def name : Level → String
  | error => "error"
  | warning => "warning"
  | info => "info"
  | debug => "debug"

def ofName? (s : String) : Option Level := all.find? (·.name == s)

end Level

end Restyle.Log
