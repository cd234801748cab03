import Restyle.Chain.Error
import Restyle.Lexer.Error
import Restyle.Lexer.Metrics
import Restyle.Log.Event

/-!
# Outcomes of a pass

A pass over one source either fails, and then nothing is to be changed, or gives the new text with
a report on each rule.
-/

namespace Restyle

inductive PassError where
  | lexical (e : LexError)
  | chain (e : ChainError)
  /-- The rule still edited when it had been applied as often as it may be. -/
  | unsettledRule (rule : String) (max : Nat)
  /-- The rule edits the output of the pass. -/
  | unstableRule (rule : String) (edits : Nat)
  | ruleLimit (count max : Nat)
  deriving DecidableEq, Repr

namespace PassError

def message : PassError → String
  | lexical e => "Lexical analysis failed: " ++ e.message
  | chain e => "Chain operation failed: " ++ e.message
  | unsettledRule rule max =>
    s!"Rule '{rule}' did not reach a fixed point within {max} applications"
  | unstableRule rule edits =>
    s!"Rule '{rule}' made {edits} edits when re-applied to its own output"
  | ruleLimit count max => s!"Too many rules: {count} (max {max})"

def code : PassError → Log.Code
  | lexical e => e.code
  | chain e => e.code
  | unsettledRule .. => .unsettledRule
  | unstableRule .. => .unstableRule
  | ruleLimit .. => .ruleLimit

end PassError

/-- How a rule came to its fixed point. -/
structure RuleRun where
  rule : String
  /-- Applications, with the last one that made no edit. -/
  rounds : Nat := 0
  edits : Nat := 0
  deriving DecidableEq, Repr

structure Outcome where
  output : Text
  changed : Bool
  runs : List RuleRun
  metrics : Metrics
  /-- How many tokens the source has. -/
  tokens : Nat
  deriving DecidableEq, Repr

namespace Outcome

def edits (o : Outcome) : Nat := o.runs.foldr (fun run n => run.edits + n) 0

/-- The notice that a pass is complete; `duration` is how many milliseconds it took. -/
def notice (o : Outcome) (label duration : String) : Log.Notice :=
  .success .passCompleted "Fixing pass completed" [
    ("file", label),
    ("changed", Log.flag o.changed),
    ("edits", toString o.edits),
    ("tokens", toString o.tokens),
    ("duration_ms", duration)]

end Outcome

end Restyle
