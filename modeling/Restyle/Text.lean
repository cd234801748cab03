/-!
# Source text

Source text is a list of characters, so that every cut falls between two characters. Sizes that
face the outside (limits, reports) are counts of UTF-8 bytes, given by `byteSize`.
-/

namespace Restyle

abbrev Text := List Char

namespace Text

/-- The number of bytes of the text in UTF-8. -/
def byteSize (t : Text) : Nat := t.foldl (fun n c => n + c.utf8Size) 0

def lineFeeds (t : Text) : Nat := t.count '\n'

def hasLineFeed (t : Text) : Bool := t.contains '\n'

/-- The characters that can make up a whitespace token. A form feed is not one of them. -/
def isSpace (c : Char) : Bool :=
  c == ' ' || c == '\t' || c == '\n' || c == '\r' || c == '\x00' || c == '\x0b'

/-- The characters that can make up the indent of a line. -/
def isIndent (c : Char) : Bool :=
  c == ' ' || c == '\t' || c == '\r' || c == '\x0b' || c == '\x0c'

def isBlank (c : Char) : Bool := c == ' ' || c == '\t'

def isHexDigit (c : Char) : Bool :=
  c.isDigit || ('a' ≤ c && c ≤ 'f') || ('A' ≤ c && c ≤ 'F')

/-- Equality up to the case of ASCII letters. -/
def sameIgnoringCase (a b : Text) : Bool := a.map Char.toLower == b.map Char.toLower

/-- What follows the last line feed, or the whole text if it has none. -/
def lastLine (t : Text) : Text := (t.reverse.takeWhile (· != '\n')).reverse

/-- The run of characters of a class with which the texts, put together, start. -/
def leading (p : Char → Bool) : List Text → Text
  | [] => []
  | t :: rest => if t.all p then t ++ leading p rest else t.takeWhile p

/-- The pieces between line feeds. There is always at least one. -/
def lines (t : Text) : List Text :=
  t.foldr (fun c acc =>
    match acc with
    | [] => [[c]]
    | line :: rest => if c == '\n' then [] :: line :: rest else (c :: line) :: rest) [[]]

/-- What follows `start`, if the text starts with it. -/
def strip? (start t : Text) : Option Text :=
  if start.isPrefixOf t then some (t.drop start.length) else none

/-- How many characters stand before the first nonempty suffix on which `stop` holds. -/
def seek? (stop : Text → Bool) (t : Text) : Option Nat := go t 0
where
  go : Text → Nat → Option Nat
    | [], _ => none
    | c :: rest, n => if stop (c :: rest) then some n else go rest (n + 1)

/-- `seek?`, or the length of the text if no suffix fits. -/
def seek (stop : Text → Bool) (t : Text) : Nat := (seek? stop t).getD t.length

end Text

end Restyle
