import Restyle.Data.Basic
import Restyle.Data.Toml.Quoted

/-!
# Numbers, dates and times

Integers have 64 bits with a sign. Underscores may stand between digits. A decimal that is too
large for a floating-point number is refused, unless it is negative.
-/

namespace Restyle.Toml
open Reader

/-- Digits of a class, single underscores between them left out. -/
def digits (p : Char → Bool) : Reader Text := do
  let first ← one p
  let rest ← many (one p <|> (do char '_'; one p))
  return first :: rest

def sign : Reader Text := do
  match ← optional (one fun c => c == '+' || c == '-') with
  | some c => return [c]
  | none => return []

/-- A decimal without a leading zero, with its sign. -/
def decimal : Reader (Text × Text) := do
  let s ← sign
  match ← peek? with
  | some '0' => char '0'; return (s, ['0'])
  | _ => return (s, ← digits Char.isDigit)

/-! ### Integers -/

/-- A number that fits into 64 bits with a sign. -/
def inRange (n : Int) : Reader Data :=
  if -0x8000000000000000 ≤ n ∧ n < 0x8000000000000000 then pure (.integer n) else failure

def radix (start : String) (base : Nat) (p : Char → Bool) : Reader Data := do
  literal start
  inRange (ofDigits base (← digits p))

def integer : Reader Data :=
  radix "0x" 16 Text.isHexDigit <|> radix "0o" 8 (fun c => '0' ≤ c && c ≤ '7') <|>
    radix "0b" 2 (fun c => c == '0' || c == '1') <|> (do
      let (s, ds) ← decimal
      let n : Int := ofDigits 10 ds
      inRange (if s == ['-'] then -n else n))

/-! ### Floating-point numbers -/

def exponent : Reader (Text × Text) := do
  let _ ← one fun c => c == 'e' || c == 'E'
  return (← sign, ← digits Char.isDigit)

/-- The size of an exponent. Digits after it has passed 65536 do not count. -/
def exponentSize (digits : Text) : Nat :=
  digits.foldl (fun n c => if n < 65536 then n * 10 + digitValue c else n) 0

/-- The least number that rounds to infinity instead of a finite floating-point number. -/
def overflow : Nat := 1 <<< 1024 - 1 <<< 970

/-- Is the number of these digits, times ten to the `exponent`, too large for a floating-point
number? How many places it has before the point decides, except at 309 places. -/
def isHuge (digits : Text) (exponent : Int) : Bool :=
  let digits := digits.dropWhile (· == '0')
  let places := digits.length + exponent
  if digits.isEmpty ∨ places < 309 then false
  else if places > 309 then true
  else overflow * Nat.pow 10 (-exponent).toNat ≤ ofDigits 10 digits * Nat.pow 10 exponent.toNat

/-- A fraction, an exponent or both after a decimal. -/
def decimalTail : Reader (Text × Option (Text × Text)) :=
  (do return ([], some (← exponent))) <|> (do
    char '.'
    return (← digits Char.isDigit, ← optional exponent))

def real : Reader Data := do
  let (s, whole) ← decimal
  let (fraction, tail) ← decimalTail
  let (expSign, exp) := tail.getD ([], [])
  let n : Int := exponentSize exp
  let e := (if expSign == ['-'] then -n else n) - fraction.length
  if s != ['-'] && isHuge (whole ++ fraction) e then failure
  let mark := if exp.isEmpty then [] else 'e' :: (expSign ++ exp)
  let point := if fraction.isEmpty then [] else '.' :: fraction
  return .real (String.ofList (s ++ whole ++ point ++ mark))

def specialReal : Reader Data := do
  let s ← sign
  (do literal "inf"; return .real (String.ofList s ++ "inf")) <|>
    (do literal "nan"; return .real (String.ofList s ++ "nan"))

/-! ### Dates and times -/

/-- A number of exactly this many digits within bounds. -/
def field (count low high : Nat) : Reader Nat := fun t =>
  let ds := t.take count
  let n := ofDigits 10 ds
  if ds.length = count ∧ ds.all Char.isDigit ∧ low ≤ n ∧ n ≤ high then some (n, t.drop count)
  else none

def isLeapYear (year : Nat) : Bool := year % 4 == 0 && (year % 100 != 0 || year % 400 == 0)

def daysIn (year month : Nat) : Nat :=
  if month = 2 then if isLeapYear year then 29 else 28
  else if month = 4 ∨ month = 6 ∨ month = 9 ∨ month = 11 then 30
  else 31

def date : Reader Unit := do
  let year ← field 4 0 9999
  char '-'
  let month ← field 2 1 12
  char '-'
  let _ ← field 2 1 (daysIn year month)

def time : Reader Unit := do
  let _ ← field 2 0 23
  char ':'
  let _ ← field 2 0 59
  char ':'
  let _ ← field 2 0 60
  let _ ← optional (do char '.'; let _ ← run1 Char.isDigit)

def offset : Reader Unit :=
  (do let _ ← one fun c => c == 'Z' || c == 'z') <|> (do
    let _ ← one fun c => c == '+' || c == '-'
    let _ ← field 2 0 23
    char ':'
    let _ ← field 2 0 59)

def dateAndTime : Reader Unit := do
  date
  let _ ← optional (do
    let _ ← one fun c => c == 'T' || c == 't' || c == ' '
    time
    optional offset)

/-- A date, a time or both, as it is spelled. -/
def moment : Reader Data := fun t =>
  match (dateAndTime <|> time) t with
  | some ((), rest) => some (.moment (String.ofList (t.take (t.length - rest.length))), rest)
  | none => none

/-! ### Any of these -/

def boolean : Reader Data :=
  (do literal "true"; return .bool true) <|> (do literal "false"; return .bool false)

def scalar : Reader Data :=
  (do return .string (String.ofList (← quotedString))) <|> moment <|> real <|> specialReal <|>
    integer <|> boolean

end Restyle.Toml
