import Restyle.Text

/-!
# Quoted strings

A quoted string runs to the first quote of its own sort that no backslash stands before. A
backslash takes the character after it along, whatever that is.
-/

namespace Restyle.Lexer.Quoted

/-- The length of the body and the closing quote, added to `n`. -/
def closing? (quote : Char) : Text → Nat → Option Nat
  | [], _ => none
  | ['\\'], _ => none
  | '\\' :: _ :: rest, n => closing? quote rest (n + 2)
  | c :: rest, n => if c == quote then some (n + 1) else closing? quote rest (n + 1)

/-- The length of the string that starts the text, both quotes included. -/
def length? (quote : Char) (t : Text) : Option Nat := closing? quote t.tail 1

end Restyle.Lexer.Quoted
