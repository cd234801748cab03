import Restyle.Chain.Edit

/-!
# Commands

The operations on a chain as data, so that a history of a chain is a list. A command that fails
leaves the chain as it was, and what comes after it still counts.
-/

namespace Restyle

inductive Command where
  | create (token : Token)
  | join (a b : NodeId)
  | replace (id fresh : NodeId)
  | insertBefore (id fresh : NodeId)
  | insertAfter (id fresh : NodeId)
  | remove (id : NodeId)
  | removeSpan (first last : NodeId)
  deriving DecidableEq, Repr

/-- Carries out a command, and names the node if it creates one. -/
def Command.run : Command → Edit (Option NodeId)
  | create token => do return some (← Chain.create token)
  | join a b => do Chain.join a b; return none
  | replace id fresh => do Chain.replace id fresh; return none
  | insertBefore id fresh => do Chain.insertBefore id fresh; return none
  | insertAfter id fresh => do Chain.insertAfter id fresh; return none
  | remove id => do Chain.remove id; return none
  | removeSpan first last => do Chain.removeSpan first last; return none

namespace Chain

/-- The chain that a command leaves behind, successful or not. -/
def after (c : Chain) (command : Command) : Chain :=
  match command.run c with
  | .ok _ c => c
  | .error _ c => c

/-- The chain at the end of a history. -/
def afterAll (c : Chain) (history : List Command) : Chain := history.foldl after c

end Chain

end Restyle
