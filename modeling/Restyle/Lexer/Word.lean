import Restyle.Text

/-!
# Words

Identifiers and the reserved words among them. Every character outside ASCII is a letter.
-/

namespace Restyle.Lexer

def isWordStart (c : Char) : Bool := c.isAlpha || c == '_' || 128 ≤ c.toNat

def isWordChar (c : Char) : Bool := isWordStart c || c.isDigit

/-- The reserved words, in lower case. -/
def keywords : List Text := List.map String.toList [
  "abstract", "and", "array", "as", "break", "callable", "case", "catch", "class", "clone",
  "const", "continue", "declare", "default", "do", "echo", "else", "elseif", "empty",
  "enddeclare", "endfor", "endforeach", "endif", "endswitch", "endwhile", "enum", "extends",
  "final", "finally", "fn", "for", "foreach", "function", "global", "goto", "if",
  "implements", "include", "include_once", "instanceof", "insteadof", "interface", "isset",
  "list", "match", "namespace", "new", "or", "print", "private", "protected", "public",
  "readonly", "require", "require_once", "return", "static", "switch", "throw", "trait",
  "try", "unset", "use", "var", "while", "xor", "yield"]

def isKeyword (word : Text) : Bool := keywords.contains (word.map Char.toLower)

/-- The length of the word that starts the text; zero if none does. -/
def wordLength (t : Text) : Nat := (t.takeWhile isWordChar).length

def startsWord (t : Text) : Bool := t.head?.any isWordStart

end Restyle.Lexer
