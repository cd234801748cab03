import Restyle.Chain.Basic

/-!
# Lines

Looking around in a chain: past whitespace, to the start of a line, over line breaks.
-/

namespace Restyle.Chain

def isWhitespace (c : Chain) (id : NodeId) : Bool := c.tokenIs Token.isWhitespace id

def hasLineBreak (c : Chain) (id : NodeId) : Except ChainError Bool :=
  (c.node id).map (·.token.hasLineFeed)

/-- The nearest node after `id` that is not whitespace. -/
def nextVisible (c : Chain) (id : NodeId) : Except ChainError NodeId := do
  let trail := c.ahead (fun n => !c.isWhitespace n) (← c.next id)
  if !c.isWhitespace trail.last then return trail.last
  -- A walk that could go on has come round in a loop of whitespace.
  throw (.noNeighbor (if (c.next? trail.last).isSome then id else trail.last) .next)

/-- The nearest node before `id` that is not whitespace. -/
def previousVisible (c : Chain) (id : NodeId) : Except ChainError NodeId := do
  let trail := c.behind (fun n => !c.isWhitespace n) (← c.previous id)
  if !c.isWhitespace trail.last then return trail.last
  throw (.noNeighbor (if (c.previous? trail.last).isSome then id else trail.last) .previous)

def breaksLine (c : Chain) (id : NodeId) : Bool := c.tokenIs Token.hasLineFeed id

/-- The whitespace that starts the line on which `id` stands. -/
def indentAt (c : Chain) (id : NodeId) : Except ChainError Text := do
  match ← c.previousLink id with
  | none => return []
  | some before =>
    let trail := c.behind c.breaksLine before
    if !c.breaksLine trail.last && (c.previous? trail.last).isSome then
      throw (.noIndent id "previous links form a cycle")
    let start := Text.lastLine (c.textOf trail.last)
    return Text.leading Text.isIndent (start :: trail.passed.map c.textOf)

def spanBreaksLine (c : Chain) (first last : NodeId) : Except ChainError Bool :=
  (c.span first last).map (·.any c.breaksLine)

end Restyle.Chain
