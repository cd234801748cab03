import Restyle.Lexer.Metrics
import Restyle.Log.Level

/-!
# Settings

What a user may choose, as opposed to the limits, which are fixed. A setting that is not given
comes from the environment, and one that the environment does not give has a fixed default.
-/

namespace Restyle

structure FixingSettings where
  /-- Run every rule once more over the output of a pass, and fail if one still edits. -/
  recheck : Bool
  /-- Log the edits of every application of a rule. -/
  logRounds : Bool
  /-- Log that a pass is complete also if it changed nothing. -/
  logUnchanged : Bool
  deriving DecidableEq, Repr

structure LogSettings where
  /-- Write events as JSON. -/
  useStructured : Bool
  /-- Write events at all. -/
  enableConsole : Bool
  threshold : Log.Level
  /-- Name the current file in every event. -/
  includeFile : Bool
  deriving DecidableEq, Repr

structure Settings where
  fixing : FixingSettings
  lexical : MetricsOptions
  logging : LogSettings
  deriving DecidableEq, Repr

/-- Names with values. -/
structure Environment where
  entries : List (String × String) := []

namespace Environment

def get? (env : Environment) (name : String) : Option String :=
  (env.entries.find? (·.1 == name)).map (·.2)

/-- `true` or `false` as the environment says, spelled exactly so. -/
def flag (env : Environment) (name : String) (default : Bool) : Bool :=
  match env.get? name with
  | some "true" => true
  | some "false" => false
  | _ => default

/-- A level by its name, in any case of its letters, or by its rank. -/
def readLevel? (value : String) : Option Log.Level :=
  match String.ofList (value.toList.map Char.toLower) with
  | "error" | "0" => some .error
  | "warning" | "warn" | "1" => some .warning
  | "info" | "2" => some .info
  | "debug" | "3" => some .debug
  | _ => none

def fixing (env : Environment) : FixingSettings where
  recheck := env.flag "FIXER_VERIFY_IDEMPOTENCE" true
  logRounds := env.flag "FIXER_LOG_EDIT_DETAILS" false
  logUnchanged := env.flag "FIXER_LOG_UNCHANGED_FILES" false

def lexical (env : Environment) : MetricsOptions where
  detailed := env.flag "FIXER_LEXICAL_DETAILED_METRICS" true
  countWhitespace := env.flag "FIXER_LEXICAL_INCLUDE_WHITESPACE" false

def logging (env : Environment) : LogSettings where
  useStructured := env.flag "FIXER_LOGGING_USE_STRUCTURED" false
  enableConsole := env.flag "FIXER_LOGGING_ENABLE_CONSOLE" false
  threshold := ((env.get? "FIXER_LOGGING_MIN_LEVEL").bind readLevel?).getD .info
  includeFile := env.flag "FIXER_LOGGING_INCLUDE_FILE_CONTEXT" true

/-- The settings where nothing else is said. -/
def settings (env : Environment) : Settings where
  fixing := env.fixing
  lexical := env.lexical
  logging := env.logging

end Environment

end Restyle
