import Restyle.Data.Toml.Scalar

/-!
# TOML documents

A document is a table, built up line by line. How a table came about decides what may be added to
it later: a table with a header of its own is defined once, and one that dotted keys made can be
added to by dotted keys only.
-/

namespace Restyle.Toml
open Reader

/-! ### Tables under construction -/

/-- How a table came about. -/
inductive Origin where
  /-- By a header of its own. -/
  | header
  /-- By the header of a table inside it. -/
  | implied
  /-- By a dotted key. -/
  | dotted
  deriving DecidableEq, Repr

inductive Entry where
  | value (d : Data)
  | table (origin : Origin) (fields : List (String × Entry))
  /-- Tables under one header that may repeat, the latest first. -/
  | tables (items : List (List (String × Entry)))

abbrev Fields := List (String × Entry)

namespace Fields

def get? (fields : Fields) (key : String) : Option Entry := (fields.find? (·.1 == key)).map (·.2)

/-- Sets a field, in its old place if there is one. -/
def set (fields : Fields) (key : String) (e : Entry) : Fields :=
  if fields.any (·.1 == key) then fields.map fun (k, old) => (k, if k == key then e else old)
  else fields ++ [(key, e)]

/-- Adds a value under a dotted key. `isOpen` says whether the table itself may be added to. -/
def addDotted (value : Entry) : List String → Bool → Fields → Option Fields
  | [], _, _ => none
  | [key], isOpen, fields =>
    if isOpen && (get? fields key).isNone then some (fields.set key value) else none
  | key :: rest, _, fields =>
    match get? fields key with
    | none => do return fields.set key (.table .dotted (← addDotted value rest true []))
    | some (.table .dotted inner) => do
      return fields.set key (.table .dotted (← addDotted value rest true inner))
    | some (.table .implied inner) => do
      return fields.set key (.table .implied (← addDotted value rest false inner))
    | some (.tables (inner :: before)) => do
      return fields.set key (.tables ((← addDotted value rest false inner) :: before))
    | _ => none

/-- Changes the table that a path leads to. Tables that are not there yet are implied; of repeated
tables the latest is meant. -/
def within (change : Fields → Option Fields) : List String → Fields → Option Fields
  | [], fields => change fields
  | key :: rest, fields =>
    match get? fields key with
    | none => do return fields.set key (.table .implied (← within change rest []))
    | some (.table origin inner) => do
      return fields.set key (.table origin (← within change rest inner))
    | some (.tables (inner :: before)) => do
      return fields.set key (.tables ((← within change rest inner) :: before))
    | _ => none

def openTable (key : String) (fields : Fields) : Option Fields :=
  match get? fields key with
  | none => some (fields.set key (.table .header []))
  | some (.table .implied inner) => some (fields.set key (.table .header inner))
  | _ => none

/-- Opens another of the tables with this header. -/
def openNext (key : String) (fields : Fields) : Option Fields :=
  match get? fields key with
  | none => some (fields.set key (.tables [[]]))
  | some (.tables items) => some (fields.set key (.tables ([] :: items)))
  | _ => none

end Fields

mutual

def Entry.toData : Entry → Data
  | .value d => d
  | .table _ fields => .table (fieldsToData fields)
  | .tables items => .array (tablesToData items).reverse

def fieldsToData : List (String × Entry) → List (String × Data)
  | [] => []
  | (key, e) :: rest => (key, e.toData) :: fieldsToData rest

def tablesToData : List (List (String × Entry)) → List Data
  | [] => []
  | fields :: rest => .table (fieldsToData fields) :: tablesToData rest

end

/-! ### Keys and values -/

/-- How deep arrays and tables may be nested inside a value, and how many parts a key may have. -/
def maxDepth : Nat := 79

def isBareKey (c : Char) : Bool := c.isAlphanum || c == '-' || c == '_'

def simpleKey : Reader String := do
  let key ← match ← peek? with
    | some '"' => shortString '"'
    | some '\'' => shortString '\''
    | _ => run1 isBareKey
  return String.ofList key

def key : Reader (List String) := do
  let part : Reader String := do
    blanks
    let k ← simpleKey
    blanks
    return k
  let parts ← separated part (char '.')
  if parts.isEmpty || parts.length > maxDepth then failure else return parts

def array (value : Reader Data) : Reader Data := do
  let item : Reader Data := do
    gap
    let d ← value
    gap
    return d
  char '['
  let items ← separated item (char ',')
  if !items.isEmpty then let _ ← optional (char ',')
  gap
  char ']'
  return .array items

def pair (value : Reader Data) : Reader (List String × Data) := do
  let k ← key
  char '='
  blanks
  return (k, ← value)

def inlineTable (value : Reader Data) : Reader Data := do
  let entry : Reader (List String × Data) := do
    let p ← pair value
    blanks
    return p
  char '{'
  let entries ← separated entry (char ',')
  blanks
  char '}'
  let add (fields : Fields) (p : List String × Data) : Option Fields :=
    fields.addDotted (.value p.2) p.1 true
  match entries.foldlM add [] with
  | some fields => return (Entry.table .header fields).toData
  | none => failure

def value : Nat → Reader Data
  | 0 => scalar
  | depth + 1 => scalar <|> array (value depth) <|> inlineTable (value depth)

/-! ### Lines -/

structure Document where
  fields : Fields := []
  /-- The table that keys are added to. -/
  path : List String := []

namespace Document

def addPair (doc : Document) (p : List String × Data) : Option Document := do
  let fields ← Fields.within (·.addDotted (.value p.2) p.1 true) doc.path doc.fields
  return { doc with fields }

/-- Opens the table at a path by `enter`. -/
def openAt (doc : Document) (enter : String → Fields → Option Fields) (path : List String) :
    Option Document := do
  let fields ← Fields.within (enter (path.getLast?.getD "")) path.dropLast doc.fields
  return { fields, path }

end Document

/-- A header between these brackets. -/
def header (left right : String) : Reader (List String) := do
  literal left
  let path ← key
  literal right
  return path

/-- The document after a line that says something, or nothing if the line cannot be added. -/
def line (doc : Document) : Reader (Option Document) := do
  if ← startsWith "[[" then return doc.openAt Fields.openNext (← header "[[" "]]")
  if ← startsWith "[" then return doc.openAt Fields.openTable (← header "[" "]")
  return doc.addPair (← pair (value maxDepth))

/-- Reads the lines that are left, at most `fuel` of them. -/
def lines : Nat → Document → Reader Document
  | 0, _ => failure
  | fuel + 1, doc => do
    blanks
    match ← peek? with
    | none => return doc
    | some '#' =>
      comment
      lineEnd
      lines fuel doc
    | some c =>
      if c == '\n' || c == '\r' then
        newline
        lines fuel doc
      else
        match ← line doc with
        | none => failure
        | some doc =>
          restOfLine
          lines fuel doc

/-- The table of a document. A mark of the byte order before it is skipped. -/
def parse? (source : Text) : Option Data :=
  let t := (Text.strip? [Char.ofNat 0xfeff] source).getD source
  match lines (t.length + 1) {} t with
  | some (doc, _) => some (Entry.table .header doc.fields).toData
  | none => none

end Restyle.Toml
