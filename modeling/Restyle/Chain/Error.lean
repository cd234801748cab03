import Restyle.Log.Code
import Restyle.Text

/-!
# Node names and what can go wrong with them

A node is named by its place in the table of its chain. The place is kept in 32 bits.
-/

namespace Restyle

structure NodeId where
  val : UInt32
  deriving DecidableEq, Repr

namespace NodeId

/-- The name of a place. Places beyond 32 bits lose their upper bits. -/
def ofIndex (i : Nat) : NodeId := ⟨i.toUInt32⟩

def index (id : NodeId) : Nat := id.val.toNat

def label (id : NodeId) : String := "#" ++ toString id.index

end NodeId

inductive Direction where
  | next
  | previous
  deriving DecidableEq, Repr

def Direction.name : Direction → String
  | next => "next"
  | previous => "previous"

inductive ChainError where
  /-- The operation needs a node before this one. -/
  | noPrevious (node : NodeId) (operation : String)
  | noNeighbor (node : NodeId) (direction : Direction)
  | noIndent (node : NodeId) (reason : String)
  /-- The node was removed and stays out. -/
  | removedNode (node : NodeId)
  /-- The node already has a place in the chain. -/
  | placedNode (node : NodeId)
  /-- The table of the chain has no such place. -/
  | foreignNode (node : NodeId)
  /-- The group that `node` opens is not closed by the bracket it needs. -/
  | openGroup (node : NodeId) (opener : Text) (expected : Char)
  /-- The link would close a loop. -/
  | linkLoop (source target : NodeId)
  | chainLimit (count max : Nat)
  deriving DecidableEq, Repr

namespace ChainError

def message : ChainError → String
  | noPrevious node operation =>
    s!"Cannot {operation} node {node.label}: it has no previous node (chain anchor)"
  | noNeighbor node direction => s!"No {direction.name} node after {node.label}"
  | noIndent node reason => s!"Cannot compute line indent for node {node.label}: {reason}"
  | removedNode node =>
    s!"Node {node.label} was removed from the chain and cannot be linked again"
  | placedNode node => s!"Node {node.label} is already linked and cannot be inserted again"
  | foreignNode node => s!"Node {node.label} does not belong to this chain"
  | openGroup node opener expected =>
    let shown := String.ofList opener
    s!"Unbalanced group: '{shown}' at node {node.label} has no matching '{expected}'"
  | linkLoop source target =>
    s!"Linking {source.label} -> {target.label} would close the chain into a loop"
  | chainLimit count max => s!"Chain too large: {count} nodes (max {max})"

def code : ChainError → Log.Code
  | noPrevious .. => .noPrevious
  | noNeighbor .. => .noNeighbor
  | noIndent .. => .noIndent
  | removedNode _ => .removedNode
  | placedNode _ => .placedNode
  | foreignNode _ => .foreignNode
  | openGroup .. => .openGroup
  | linkLoop .. => .linkLoop
  | chainLimit .. => .chainLimit

end ChainError

end Restyle
