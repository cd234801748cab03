import Restyle.Log.Code
import Restyle.Log.Level
import Restyle.Text

/-!
# Log events

A notice is what a part of the program wants to say. An event is the notice as it is logged: its
message cut to a bound and its context in the order of the keys.
-/

namespace Restyle.Log

/-- A flag as log lines show it. -/
def flag (b : Bool) : String := if b then "true" else "false"

structure Notice where
  level : Level
  code : Code
  message : String
  /-- Keys with values, in the order they were added. -/
  context : List (String × String) := []
  deriving DecidableEq, Repr

namespace Notice

def error (code : Code) (message : String) (context : List (String × String) := []) : Notice :=
  { level := .error, code, message, context }

def success (code : Code) (message : String) (context : List (String × String) := []) : Notice :=
  { level := .info, code, message, context }

def warning (message : String) (context : List (String × String) := []) : Notice :=
  { level := .warning, code := .plainWarning, message, context }

def info (message : String) (context : List (String × String) := []) : Notice :=
  { level := .info, code := .plainInfo, message, context }

def debug (message : String) (context : List (String × String) := []) : Notice :=
  { level := .debug, code := .plainDebug, message, context }

end Notice

/-- Keys with values in strictly increasing order of the keys. -/
abbrev Context := List (String × String)

namespace Context

def insert (key value : String) : Context → Context
  | [] => [(key, value)]
  | (k, v) :: rest =>
    if key < k then (key, value) :: (k, v) :: rest
    else if key = k then (key, value) :: rest
    else (k, v) :: insert key value rest

/-- The context of pairs added one after another: of two values of a key the later one stays. -/
def ofList (pairs : List (String × String)) : Context :=
  pairs.foldl (fun context (key, value) => insert key value context) []

end Context

structure Event where
  level : Level
  code : Code
  message : String
  context : Context
  deriving DecidableEq, Repr

namespace Event

/-- The first characters of a text, as many as fit into so many bytes. -/
def fitting : Nat → Text → Text
  | _, [] => []
  | size, c :: rest => if c.utf8Size ≤ size then c :: fitting (size - c.utf8Size) rest else []

/-- A message of at most `max` bytes, or as much of it as fits and an ellipsis. -/
def clip (max : Nat) (message : String) : String :=
  if message.utf8ByteSize ≤ max then message
  else String.ofList (fitting max message.toList) ++ "..."

def ofNotice (maxMessage : Nat) (n : Notice) : Event :=
  { level := n.level, code := n.code, message := clip maxMessage n.message
    context := Context.ofList n.context }

def isError (e : Event) : Bool := e.level == .error

def tagged (e : Event) (key value : String) : Event :=
  { e with context := e.context.insert key value }

def untagged (e : Event) (key : String) : Event :=
  { e with context := e.context.filter (·.1 != key) }

def format (e : Event) : String :=
  e.context.foldl (fun line (key, value) => line ++ " " ++ key ++ "=" ++ value)
    ("[" ++ e.level.label ++ "] " ++ e.code.text ++ " - " ++ e.message)

end Event

end Restyle.Log
