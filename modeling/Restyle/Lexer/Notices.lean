import Restyle.Lexer.Scan
import Restyle.Log.Event

/-!
# What lexing logs

A debugging note at the start, and at the end either the outcome or the reason for stopping.
-/

namespace Restyle.Scan
open Log (Notice Code)

def startNotice (limits : Limits) (source : Text) : Notice :=
  .debug "Starting lexical analysis" [
    ("bytes", toString (Text.byteSize source)),
    ("max_tokens_allowed", toString limits.tokens),
    ("max_string_size_allowed", toString limits.stringBytes)]

def comments (s : Scan) : Nat :=
  s.lexemes.countP fun l => l.hint == .comment || l.hint == .docComment

def endNotice (s : Scan) : Notice :=
  let count := toString s.lexemes.size
  match s.failure with
  | some (.tokenLimit _ max) =>
    .error .tokenLimit "Token limit exceeded" [("token_count", count), ("limit", toString max)]
  | some e =>
    .error e.code "Lexical analysis failed" [("line", toString s.line), ("tokens_processed", count)]
  | none =>
    .success .sourceLexed "Lexical analysis completed" [
      ("tokens", count), ("lines", toString s.line), ("comments", toString s.comments)]

def notices (limits : Limits) (source : Text) (s : Scan) : List Notice :=
  [startNotice limits source, s.endNotice]

end Restyle.Scan
