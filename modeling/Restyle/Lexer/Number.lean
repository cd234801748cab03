import Restyle.Text

/-!
# Number literals

Hexadecimal and binary integers, and decimals with an optional fraction and exponent. Underscores
may stand anywhere after the first digit of a run.
-/

namespace Restyle.Lexer.Number

def isBinaryDigit (c : Char) : Bool := c == '0' || c == '1'

/-- The length of the run of digits and underscores that starts the text. -/
def runLength (digit : Char → Bool) (t : Text) : Nat :=
  (t.takeWhile fun c => digit c || c == '_').length

/-- The length of the run if it starts with a digit, and zero otherwise. -/
def digitsLength (digit : Char → Bool) (t : Text) : Nat :=
  if t.head?.any digit then runLength digit t else 0

/-- The length of an integer with a base mark, zero if the text starts with none. -/
def radixLength : Text → Nat
  | '0' :: mark :: digits =>
    let body :=
      if mark == 'x' || mark == 'X' then digitsLength Text.isHexDigit digits
      else if mark == 'b' || mark == 'B' then digitsLength isBinaryDigit digits
      else 0
    if body = 0 then 0 else body + 2
  | _ => 0

/-- The length of a point with digits after it, zero if the text starts with none. -/
def fractionLength : Text → Nat
  | '.' :: digits =>
    let body := digitsLength Char.isDigit digits
    if body = 0 then 0 else body + 1
  | _ => 0

def signLength : Text → Nat
  | c :: _ => if c == '+' || c == '-' then 1 else 0
  | [] => 0

/-- The length of an exponent with its digits, zero if the text starts with none. -/
def exponentLength : Text → Nat
  | mark :: t =>
    let body := digitsLength Char.isDigit (t.drop (signLength t))
    if (mark == 'e' || mark == 'E') && body != 0 then body + signLength t + 1 else 0
  | [] => 0

/-- The length of a decimal. The digits before the point may be missing. -/
def decimalLength (t : Text) : Nat :=
  let whole := runLength Char.isDigit t
  let fraction := fractionLength (t.drop whole)
  whole + fraction + exponentLength (t.drop (whole + fraction))

def length (t : Text) : Nat :=
  let based := radixLength t
  if based = 0 then decimalLength t else based

end Restyle.Lexer.Number
