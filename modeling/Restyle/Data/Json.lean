import Restyle.Data.Basic

/-!
# JSON text

Data as JSON without spaces between its parts. In strings only quotes, backslashes and control
characters are escaped.
-/

namespace Restyle.Data

def hexDigit (n : Nat) : Char := Nat.digitChar (n % 16)

/-- A character inside a JSON string. -/
def escape (c : Char) : String :=
  match c with
  | '"' => "\\\""
  | '\\' => "\\\\"
  | '\x08' => "\\b"
  | '\t' => "\\t"
  | '\n' => "\\n"
  | '\x0c' => "\\f"
  | '\r' => "\\r"
  | c =>
    if c.toNat < 32 then
      String.ofList ['\\', 'u', '0', '0', hexDigit (c.toNat / 16), hexDigit c.toNat]
    else String.singleton c

def jsonString (s : String) : String :=
  s.toList.foldl (fun out c => out ++ escape c) "\"" ++ "\""

mutual

def toJson : Data → String
  | null => "null"
  | bool b => if b then "true" else "false"
  | integer n => toString n
  | real literal => literal
  | string s => jsonString s
  | moment literal => jsonString literal
  | array items => "[" ++ ",".intercalate (itemsToJson items) ++ "]"
  | table fields => "\x7b" ++ ",".intercalate (fieldsToJson fields) ++ "\x7d"

def itemsToJson : List Data → List String
  | [] => []
  | d :: rest => toJson d :: itemsToJson rest

def fieldsToJson : List (String × Data) → List String
  | [] => []
  | (key, d) :: rest => (jsonString key ++ ":" ++ toJson d) :: fieldsToJson rest

end

end Restyle.Data
