import Restyle.Lexer.Metrics
import Restyle.Lexer.Scan

/-!
# Lexing one source after another

An analyzer keeps its options for good, and its metrics until it lexes the next source.
-/

namespace Restyle

structure Analyzer where
  options : MetricsOptions
  /-- The metrics of the last source, as far as it was lexed. -/
  metrics : Metrics := {}
  deriving DecidableEq, Repr

namespace Analyzer

def record (a : Analyzer) (l : Lexeme) : Analyzer :=
  { a with metrics := a.metrics.record a.options l }

/-- Lexes a source. The metrics start afresh and take in each lexeme that is accepted. -/
def lex (limits : Limits) (a : Analyzer) (source : Text) : Scan × Analyzer :=
  let scan := Scan.ofSource limits source
  (scan, scan.lexemes.foldl record { a with metrics := {} })

/-- The analyzer at the end of a history of sources. -/
def lexAll (limits : Limits) (a : Analyzer) (sources : List Text) : Analyzer :=
  sources.foldl (fun a source => (a.lex limits source).2) a

end Analyzer

end Restyle
