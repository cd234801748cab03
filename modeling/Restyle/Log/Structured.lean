import Restyle.Data.Json
import Restyle.Log.Event

/-!
# Structured log lines

An event as one line of JSON, its keys in alphabetical order. The time is the caller's to give.
-/

namespace Restyle.Log.Event

/-- What is registered about the code of an error. -/
def errorData (code : Code) : Data :=
  .table [
    ("description", .string code.description),
    ("recommended_action", .string code.action),
    ("requires_halt", .bool code.halts)]

def toData (e : Event) (timestamp : String) : Data :=
  let context := if e.context.isEmpty then []
    else [("context", Data.table (e.context.map fun (k, v) => (k, .string v)))]
  let metadata := if e.isError then [("error_metadata", errorData e.code)] else []
  .table ([("category", .string e.code.category), ("code", .string e.code.text)] ++ context ++
    metadata ++
    [("level", .string e.level.label), ("message", .string e.message),
      ("severity", .string e.code.severity.label), ("timestamp", .string timestamp)])

def toJson (e : Event) (timestamp : String) : String := (e.toData timestamp).toJson

end Restyle.Log.Event
