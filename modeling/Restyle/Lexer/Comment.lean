import Restyle.Text

/-!
# Comments

A line comment ends before a line end or a closing tag, a block comment after its first `*/`. A
block comment that opens with two asterisks and a whitespace character documents what follows it.
-/

namespace Restyle.Lexer.Comment

def endsLine : Text → Bool
  | '?' :: '>' :: _ => true
  | c :: _ => c == '\n' || c == '\r'
  | [] => false

def lineLength (t : Text) : Nat := Text.seek endsLine t

def closesBlock (t : Text) : Bool := "*/".toList.isPrefixOf t

def blockLength? (t : Text) : Option Nat := (Text.seek? closesBlock (t.drop 2)).map (· + 4)

def isDoc : Text → Bool
  | '/' :: '*' :: '*' :: c :: _ => Text.isSpace c
  | _ => false

end Restyle.Lexer.Comment
