import Restyle.Token

/-!
# Lexing metrics

Counts over the lexemes of one scan.
-/

namespace Restyle

/-- What the metrics count. -/
structure MetricsOptions where
  /-- Count the lexemes of each kind too. -/
  detailed : Bool
  /-- Whitespace counts as a token. -/
  countWhitespace : Bool
  deriving DecidableEq, Repr

structure Metrics where
  counted : Nat := 0
  spaces : Nat := 0
  comments : Nat := 0
  /-- Bytes of the largest string literal. -/
  longestString : Nat := 0
  /-- Bytes of the longest comment. -/
  longestComment : Nat := 0
  /-- Lexemes of each kind seen, in the order of first sight. -/
  byKind : List (TokenKind × Nat) := []
  deriving DecidableEq, Repr

namespace Metrics

def countKind (kind : TokenKind) : List (TokenKind × Nat) → List (TokenKind × Nat)
  | [] => [(kind, 1)]
  | (k, n) :: rest => if k = kind then (k, n + 1) :: rest else (k, n) :: countKind kind rest

def count (options : MetricsOptions) (m : Metrics) (kind : TokenKind) : Metrics :=
  { m with
    counted := m.counted + 1
    byKind := if options.detailed then countKind kind m.byKind else m.byKind }

def record (options : MetricsOptions) (m : Metrics) (l : Lexeme) : Metrics :=
  match l.hint with
  | .whitespace =>
    let m := { m with spaces := m.spaces + 1 }
    if options.countWhitespace then m.count options .whitespace else m
  | .comment | .docComment =>
    { m with
      comments := m.comments + 1
      longestComment := max m.longestComment (Text.byteSize l.text) }.count options l.hint
  | .stringLiteral =>
    { m with longestString := max m.longestString (Text.byteSize l.text) }.count options l.hint
  | kind => m.count options kind

/-- The metrics of a scan that accepted these lexemes. -/
def ofLexemes (options : MetricsOptions) (lexemes : Array Lexeme) : Metrics :=
  lexemes.foldl (record options) {}

end Metrics

end Restyle
