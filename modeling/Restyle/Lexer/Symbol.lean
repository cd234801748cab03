import Restyle.Text

/-!
# Operators and tags

Operators of several characters are tried in the order of the list, which has the longer ones
first. A code section opens with `<?php`, in any case of its letters, or with `<?=`.
-/

namespace Restyle.Lexer

def operators : List Text := List.map String.toList [
  "<=>", "===", "!==", "**=", "...", "??=", "<<=", ">>=", "?->", "->", "=>", "::", "==", "!=",
  "<>", "<=", ">=", "&&", "||", "??", "++", "--", "+=", "-=", "*=", "/=", ".=", "%=", "&=",
  "|=", "^=", "<<", ">>", "**"]

def singleOperators : Text := "=+-*/%.<>!?:&|^~@\\$".toList

/-- The length of the operator that starts the text; zero if none does. -/
def operatorLength (t : Text) : Nat :=
  match operators.find? (·.isPrefixOf t) with
  | some op => op.length
  | none => if t.head?.any singleOperators.contains then 1 else 0

def punctuation : Text := "()[]\x7b\x7d;,".toList

/-- The length of the opening tag that starts the text; zero if none does. -/
def openTagLength (t : Text) : Nat :=
  if Text.sameIgnoringCase (t.take 5) "<?php".toList then 5
  else if "<?=".toList.isPrefixOf t then 3
  else 0

/-- The length of the text before the next opening tag. -/
def inlineLength (t : Text) : Nat := Text.seek (openTagLength · != 0) t

end Restyle.Lexer
