import Restyle.Log.Code

/-!
# Why lexing stops

A bound that was exceeded is part of the error, so an error can be worded on its own.
-/

namespace Restyle

inductive LexError where
  /-- A quote or heredoc opened on this line is never closed. -/
  | openString (line : Nat)
  /-- A block comment opened on this line is never closed. -/
  | openComment (line : Nat)
  | tokenLimit (count max : Nat)
  | commentLimit (length max : Nat)
  | stringLimit (size max : Nat)
  deriving DecidableEq, Repr

def LexError.message : LexError → String
  | openString line => s!"Unterminated string literal starting at line {line}"
  | openComment line => s!"Unterminated comment starting at line {line}"
  | tokenLimit count max => s!"Too many tokens: {count} (max {max})"
  | commentLimit length max => s!"Comment too long: {length} bytes (max {max})"
  | stringLimit size max => s!"String too large: {size} bytes (max {max})"

def LexError.code : LexError → Log.Code
  | openString _ => .openString
  | openComment _ => .openComment
  | tokenLimit .. => .tokenLimit
  | commentLimit .. => .commentLimit
  | stringLimit .. => .stringLimit

end Restyle
