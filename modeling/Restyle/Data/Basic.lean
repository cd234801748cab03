/-!
# Self-describing data

What a settings file or a message holds before it is read as something more definite. Fields of a
table stand in the order they were written.
-/

namespace Restyle

inductive Data where
  | null
  | bool (value : Bool)
  | integer (value : Int)
  /-- A number that is not an integer, as it was spelled. -/
  | real (literal : String)
  | string (value : String)
  /-- A date, a time or both, as it was spelled. -/
  | moment (literal : String)
  | array (items : List Data)
  | table (fields : List (String × Data))
  deriving Repr, Inhabited

namespace Data

def field? (key : String) (fields : List (String × Data)) : Option Data :=
  (fields.find? (·.1 == key)).map (·.2)

end Data

end Restyle
