import Restyle.Chain.Edit

/-!
# Rules

A rule looks at a chain and edits it. While it works it may leave notices for the log.
-/

namespace Restyle

/-- What a rule works on. -/
structure Workspace where
  chain : Chain
  /-- Notices in the order they were left. -/
  journal : Array Log.Notice := #[]

/-- The work of a rule. When it fails, the workspace at that point is still there. -/
abbrev RuleM := EStateM ChainError Workspace

namespace RuleM
variable {α : Type}

def edit (e : Edit α) : RuleM α := fun ⟨chain, journal⟩ =>
  match e chain with
  | .ok a chain => .ok a ⟨chain, journal⟩
  | .error err chain => .error err ⟨chain, journal⟩

def look (query : Chain → Except ChainError α) : RuleM α := fun w =>
  match query w.chain with
  | .ok a => .ok a w
  | .error err => .error err w

def note (n : Log.Notice) : RuleM Unit := fun ⟨chain, journal⟩ => .ok () ⟨chain, journal.push n⟩

end RuleM

structure Rule where
  /-- What reports call the rule. -/
  name : String
  apply : RuleM Unit

end Restyle
