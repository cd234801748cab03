import Restyle.Limits
import Restyle.Log.Structured
import Restyle.Settings.Basic

/-!
# Log sessions

A session carries everything logging depends on: the settings, the service that events go to, the
file at work and what has been written so far. While a file is at work only so many of its events
are let through, errors apart.
-/

namespace Restyle.Log

/-- Where events end up. -/
inductive Sink where
  /-- Kept in the session. -/
  | memory
  /-- Written as text, up to a level. -/
  | console (level : Level)
  /-- Written as JSON, up to a level. -/
  | structured (level : Level)
  | silent
  deriving DecidableEq, Repr

/-- A sink behind a threshold. -/
structure Service where
  sink : Sink
  threshold : Level
  deriving DecidableEq, Repr

def Service.ofSettings (settings : LogSettings) : Service where
  sink :=
    if !settings.enableConsole then .silent
    else if settings.useStructured then .structured settings.threshold
    else .console settings.threshold
  threshold := settings.threshold

def Service.accepts (s : Service) (level : Level) : Bool := level.passes s.threshold

/-- The file at work and how many events it has logged. -/
structure WorkFile where
  label : String
  logged : Nat := 0
  deriving DecidableEq, Repr

structure Session where
  limits : Limits
  settings : LogSettings
  service : Service
  file : Option WorkFile := none
  /-- The time that structured lines are stamped with. -/
  timestamp : String := ""
  /-- Events in memory. -/
  kept : Array Event := #[]
  /-- Lines written to the standard output. -/
  out : Array String := #[]
  /-- Lines written to the standard error output. -/
  err : Array String := #[]

namespace Session

def writeLine (s : Session) (level : Level) (line : String) : Session :=
  if level = .error then { s with err := s.err.push line } else { s with out := s.out.push line }

def record (s : Session) (e : Event) : Session :=
  match s.service.sink with
  | .memory => { s with kept := s.kept.push e }
  | .console level => if e.level.passes level then s.writeLine e.level e.format else s
  | .structured level =>
    if e.level.passes level then s.writeLine e.level (e.toJson s.timestamp) else s
  | .silent => s

/-- Gives an event to the service, which drops it below its threshold. -/
def handOver (s : Session) (e : Event) : Session :=
  if s.service.accepts e.level then s.record e else s

/-- May the file at work log this event? Errors are always let through. -/
def admits (s : Session) (e : Event) : Bool :=
  match s.file with
  | some file => e.isError || file.logged < s.limits.fileEvents
  | none => true

/-- The event as the file at work logs it. -/
def tag (s : Session) (e : Event) : Event :=
  match s.file with
  | some file => if s.settings.includeFile then e.tagged "file" file.label else e
  | none => e

def countEvent (s : Session) : Session :=
  { s with file := s.file.map fun file => { file with logged := file.logged + 1 } }

/-- Logs an event, unless the file at work has used up its share. -/
def dispatch (s : Session) (e : Event) : Session :=
  if s.admits e then s.countEvent.handOver (s.tag e) else s

/-- Logs a notice. Debugging notes are made only if the settings ask for them. -/
def emit (s : Session) (n : Notice) : Session :=
  if n.level = .debug ∧ s.settings.threshold ≠ .debug then s
  else s.dispatch (Event.ofNotice s.limits.messageBytes n)

def emitAll (s : Session) (notices : Array Notice) : Session := notices.foldl emit s

def openFile (s : Session) (label : String) : Session := { s with file := some { label } }

def closeFile (s : Session) : Session := { s with file := none }

/-! ### Reports -/

/-- The settings as a text of several lines. -/
def summary (settings : LogSettings) (limits : Limits) : String :=
  "=== Logging Configuration ===\n" ++
  s!"Min level: {settings.threshold.label}\n" ++
  s!"Console: {flag settings.enableConsole}\n" ++
  s!"Structured: {flag settings.useStructured}\n" ++
  s!"File context: {flag settings.includeFile}\n" ++
  s!"Max events per file: {limits.fileEvents}\n"

/-- The state of a session as a text of several lines. -/
def diagnostics (s : Session) : String :=
  let file := match s.file with
    | some file => s!"Current file: {file.label} ({file.logged} events)\n"
    | none => ""
  "=== Logging System Diagnostics ===\nInitialized: true\n" ++ file ++ "\n" ++
    summary s.settings s.limits

end Session

end Restyle.Log
