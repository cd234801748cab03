import Restyle.Data.Basic

/-!
# Reading records and names out of data

A record is a table with the names of its fields, or an array of their values in order. A date or a
time counts as a record too, with parts of its own that are nobody else's fields. A name stands as a
string, or as a table with that one key and nothing under it. Formats differ in what counts as
nothing and in whether an array may go on after the last field.
-/

namespace Restyle.Data

structure Dialect where
  /-- Values after the last field of a record are ignored. -/
  ignoresExcess : Bool
  isNothing : Data → Bool

namespace Dialect

def json : Dialect where
  ignoresExcess := false
  isNothing
    | .null => true
    | _ => false

def toml : Dialect where
  ignoresExcess := true
  isNothing
    | .array [] | .table [] => true
    | _ => false

/-- The values of the fields of a record, as far as they are given. -/
def record? (dialect : Dialect) (names : List String) : Data → Option (List (Option Data))
  | .table fields => some (names.map (field? · fields))
  | .moment _ => some (names.map fun _ => none)
  | .array items =>
    if names.length < items.length && !dialect.ignoresExcess then none
    else some ((List.range names.length).map (items[·]?))
  | _ => none

def name? (dialect : Dialect) : Data → Option String
  | .string s => some s
  | .table [(key, value)] => if dialect.isNothing value then some key else none
  | _ => none

end Dialect

def bool? : Data → Option Bool
  | .bool b => some b
  | _ => none

def string? : Data → Option String
  | .string s => some s
  | _ => none

def natural? : Data → Option Nat
  | .integer n => n.toNat?
  | _ => none

/-- A field of a record, which has a value of its own if none is given. -/
def withDefault {α : Type} (read : Data → Option α) (default : α) : Option Data → Option α
  | some d => read d
  | none => some default

end Restyle.Data
