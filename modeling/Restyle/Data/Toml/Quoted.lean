import Restyle.Data.Toml.Reader

/-!
# Strings

Four forms: in double quotes with escapes or in single quotes without, each on one line or, with
tripled quotes, over several.
-/

namespace Restyle.Toml
open Reader

def digitValue (c : Char) : Nat :=
  if c.isDigit then c.toNat - '0'.toNat else c.toLower.toNat - 'a'.toNat + 10

def ofDigits (base : Nat) (digits : Text) : Nat :=
  digits.foldl (fun n c => n * base + digitValue c) 0

/-- The character with a number of this many hexadecimal digits. -/
def codePoint (digits : Nat) : Reader Char := fun t =>
  let code := t.take digits
  let n := ofDigits 16 code
  if code.length = digits ∧ code.all Text.isHexDigit ∧ n.isValidChar then
    some (Char.ofNat n, t.drop digits)
  else none

/-- What an escape stands for, after its backslash. -/
def escaped : Reader Char := do
  match ← one (fun _ => true) with
  | 'b' => return '\x08'
  | 't' => return '\t'
  | 'n' => return '\n'
  | 'f' => return '\x0c'
  | 'r' => return '\r'
  | '"' => return '"'
  | '\\' => return '\\'
  | 'u' => codePoint 4
  | 'U' => codePoint 8
  | _ => failure

/-- A character that stands for itself in a string with this quote. -/
def isUnescaped (quote : Char) (c : Char) : Bool :=
  isPlain c && c != quote && (quote != '"' || c != '\\')

/-- A piece of a string: plain characters or, in double quotes, an escape. -/
def piece (quote : Char) : Reader Text :=
  run1 (isUnescaped quote) <|> (do
    if quote != '"' then failure
    char '\\'
    return [← escaped])

def shortString (quote : Char) : Reader Text := do
  char quote
  let pieces ← many (piece quote)
  char quote
  return pieces.flatten

/-- A line end with a backslash before it, and all space after it. -/
def joinedLines : Reader Text := do
  char '\\'
  blanks
  newline
  let _ ← many ((do let _ ← run1 Text.isBlank) <|> newline)
  return []

/-- One or two quotes inside a long string. -/
def innerQuotes (quote : Char) : Reader Text := fun t =>
  let quotes := t.takeWhile (· == quote)
  if quotes.length = 1 ∨ quotes.length = 2 then some (quotes, t.drop quotes.length) else none

/-- The quotes that close a long string. One or two more may belong to the string. -/
def closingQuotes (quote : Char) : Reader Text := fun t =>
  let quotes := (t.take 5).takeWhile (· == quote)
  if quotes.length < 3 then none else some (quotes.drop 3, t.drop quotes.length)

def longPiece (quote : Char) : Reader Text :=
  (if quote == '"' then joinedLines else failure) <|> piece quote <|>
    (do newline; return ['\n']) <|> innerQuotes quote

/-- A string over several lines. A line end right after the opening quotes does not count. -/
def longString (quote : Char) : Reader Text := do
  literal (String.ofList [quote, quote, quote])
  let _ ← optional newline
  let pieces ← many (longPiece quote)
  let rest ← closingQuotes quote
  return pieces.flatten ++ rest

/-- Three quotes always open a long string. -/
def quotedString : Reader Text := fun t =>
  match t with
  | quote :: _ =>
    if quote == '"' || quote == '\'' then
      if [quote, quote, quote].isPrefixOf t then longString quote t else shortString quote t
    else none
  | [] => none

end Restyle.Toml
