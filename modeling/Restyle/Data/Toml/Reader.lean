import Restyle.Text

/-!
# Reading text

A reader takes something off the front of a text, or fails and takes nothing.
-/

namespace Restyle.Toml

abbrev Reader := StateT Text Option

namespace Reader
variable {α : Type}

/-- The next character, which is left in place. -/
def peek? : Reader (Option Char) := fun t => some (t.head?, t)

/-- Does the text start with these characters? They are left in place. -/
def startsWith (s : String) : Reader Bool := fun t => some (s.toList.isPrefixOf t, t)

def one (p : Char → Bool) : Reader Char
  | [] => none
  | c :: rest => if p c then some (c, rest) else none

def char (c : Char) : Reader Unit := do let _ ← one (· == c)

def literal (s : String) : Reader Unit := fun t => (Text.strip? s.toList t).map ((), ·)

/-- The longest run of characters of a class. -/
def run (p : Char → Bool) : Reader Text := fun t => some (t.takeWhile p, t.dropWhile p)

/-- The longest run of characters of a class, which must not be empty. -/
def run1 (p : Char → Bool) : Reader Text := do
  let t ← run p
  if t.isEmpty then failure else return t

/-- What a reader reads again and again, at most once for each character of `fuel`. -/
def repeated (r : Reader α) : Text → Reader (List α)
  | [] => pure []
  | _ :: fuel => do
    match ← optional r with
    | some a => return a :: (← repeated r fuel)
    | none => return []

/-- What a reader reads again and again. The reader takes at least a character each time, so the
text itself bounds how often. -/
def many (r : Reader α) : Reader (List α) := fun t => repeated r t t

/-- What a reader reads, with separators between. -/
def separated (r : Reader α) (separator : Reader Unit) : Reader (List α) := do
  match ← optional r with
  | none => return []
  | some a => return a :: (← many (do separator; r))

def finish : Reader Unit := fun t => if t.isEmpty then some ((), t) else none

end Reader

/-! ### Space, line ends and comments -/

open Reader

def blanks : Reader Unit := do let _ ← run Text.isBlank

def newline : Reader Unit := char '\n' <|> literal "\r\n"

/-- Characters that may stand in a line: no control characters but the tab. -/
def isPlain (c : Char) : Bool := c == '\t' || (32 ≤ c.toNat && c.toNat != 127)

def comment : Reader Unit := do
  char '#'
  let _ ← run isPlain

def lineEnd : Reader Unit := newline <|> finish

/-- The rest of a line after something was read from it. -/
def restOfLine : Reader Unit := do
  blanks
  let _ ← optional comment
  lineEnd

/-- Space between the items of an array. -/
def gap : Reader Unit := do
  let _ ← many ((do let _ ← run1 Text.isBlank) <|> newline <|> comment)

end Restyle.Toml
