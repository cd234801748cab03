import Restyle.Lexer.Word

/-!
# Heredocs

A heredoc opens with `<<<`, a label that may stand in quotes, and a line end. It runs to the first
later line that starts with the label, indented or not, where the label is a whole word.
-/

namespace Restyle.Lexer.Heredoc

structure Header where
  label : Text
  /-- The characters up to and including the line end. -/
  length : Nat
  deriving DecidableEq, Repr

/-- The quote that starts the text, if one does. -/
def openQuote : Text → Text
  | c :: _ => if c == '\'' || c == '"' then [c] else []
  | [] => []

/-- The header that starts a text whose first three characters are `<<<`. -/
def header? (t : Text) : Option Header :=
  let blanks := (t.drop 3).takeWhile Text.isBlank
  let quoted := (t.drop 3).dropWhile Text.isBlank
  let quote := openQuote quoted
  let named := quoted.drop quote.length
  let label := named.takeWhile isWordChar
  let closed := named.dropWhile isWordChar
  let ending := closed.drop quote.length
  let returns := ending.takeWhile (· == '\r')
  let endsLine := (ending.drop returns.length).head? == some '\n'
  if startsWord named && quote.isPrefixOf closed && endsLine then
    let labelLength := 2 * quote.length + label.length
    some { label, length := 3 + blanks.length + labelLength + returns.length + 1 }
  else none

/-- The length of the indent and the label, if the line that starts the text closes the heredoc. -/
def closingLabel? (label : Text) (line : Text) : Option Nat :=
  let indent := (line.takeWhile Text.isBlank).length
  let rest := line.drop indent
  if label.isPrefixOf rest && !(rest.drop label.length).head?.any isWordChar then
    some (indent + label.length)
  else none

/-- The length up to the end of the first closing label, added to `n`; `fresh` says whether the
text starts a line. -/
def closing? (label : Text) : Text → Bool → Nat → Option Nat
  | [], _, _ => none
  | c :: rest, fresh, n =>
    match if fresh then closingLabel? label (c :: rest) else none with
    | some k => some (n + k)
    | none => closing? label rest (c == '\n') (n + 1)

/-- The length of the heredoc with this header, from `<<<` to the end of the closing label. -/
def length? (header : Header) (t : Text) : Option Nat :=
  closing? header.label (t.drop header.length) true header.length

end Restyle.Lexer.Heredoc
