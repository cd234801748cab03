import Restyle.Chain.Error
import Restyle.Chain.Trail
import Restyle.Log.Event
import Restyle.Token

/-!
# Chains

A chain is a table of nodes, each with a token and links to its neighbors. Nodes are never taken
out of the table: a removed node stays behind as an orphan. The nodes that can be reached from the
head are the chain proper, and `order` lists them.
-/

namespace Restyle

inductive NodeState where
  /-- Created, and never linked so far. -/
  | unlinked
  | linked
  /-- Taken out of the chain for good. -/
  | orphaned
  deriving DecidableEq, Repr

def NodeState.name : NodeState → String
  | unlinked => "unlinked"
  | linked => "linked"
  | orphaned => "orphaned"

structure Node where
  token : Token
  previous : Option NodeId := none
  next : Option NodeId := none
  state : NodeState := .unlinked
  deriving DecidableEq, Repr

structure Chain where
  /-- How many nodes the table may hold. -/
  capacity : Nat
  nodes : Array Node := #[]
  /-- A node of the chain proper, from which its first node can be found. -/
  head : Option NodeId := none
  /-- Edits that succeeded. -/
  edits : Nat := 0
  deriving DecidableEq, Repr

namespace Chain

def size (c : Chain) : Nat := c.nodes.size

/-! ### Nodes -/

def get? (c : Chain) (id : NodeId) : Option Node := c.nodes[id.index]?

def node (c : Chain) (id : NodeId) : Except ChainError Node :=
  match c.get? id with
  | some node => .ok node
  | none => .error (.foreignNode id)

def token (c : Chain) (id : NodeId) : Except ChainError Token := (c.node id).map (·.token)

def text (c : Chain) (id : NodeId) : Except ChainError Text := (c.node id).map (·.token.text)

def state (c : Chain) (id : NodeId) : Except ChainError NodeState := (c.node id).map (·.state)

/-- Does the token of a node have this property? No token of an unknown node has. -/
def tokenIs (c : Chain) (p : Token → Bool) (id : NodeId) : Bool := (c.get? id).any (p ·.token)

/-- The text of a node, empty for an unknown one. -/
def textOf (c : Chain) (id : NodeId) : Text :=
  match c.get? id with
  | some node => node.token.text
  | none => []

def sameToken (c : Chain) (a b : NodeId) : Except ChainError Bool := do
  let left ← c.token a
  let right ← c.token b
  return left == right

/-! ### Neighbors -/

def next? (c : Chain) (id : NodeId) : Option NodeId := (c.get? id).bind (·.next)

def previous? (c : Chain) (id : NodeId) : Option NodeId := (c.get? id).bind (·.previous)

def nextLink (c : Chain) (id : NodeId) : Except ChainError (Option NodeId) :=
  (c.node id).map (·.next)

def previousLink (c : Chain) (id : NodeId) : Except ChainError (Option NodeId) :=
  (c.node id).map (·.previous)

def next (c : Chain) (id : NodeId) : Except ChainError NodeId := do
  match ← c.nextLink id with
  | some neighbor => return neighbor
  | none => throw (.noNeighbor id .next)

def previous (c : Chain) (id : NodeId) : Except ChainError NodeId := do
  match ← c.previousLink id with
  | some neighbor => return neighbor
  | none => throw (.noNeighbor id .previous)

/-! ### Walks -/

/-- The walk along `next` links from `id` to the first node where `stop` holds. It visits at most
as many nodes as the table has. -/
def ahead (c : Chain) (stop : NodeId → Bool) (id : NodeId) : Trail NodeId :=
  Trail.walk c.next? stop (c.size - 1) id

/-- The walk along `previous` links from `id` to the first node where `stop` holds. It visits at
most as many nodes as the table has. -/
def behind (c : Chain) (stop : NodeId → Bool) (id : NodeId) : Trail NodeId :=
  Trail.walk c.previous? stop (c.size - 1) id

/-- The node that all others of the chain proper come after. -/
def first? (c : Chain) : Option NodeId :=
  c.head.map fun head => (Trail.walk c.previous? (fun _ => false) c.size head).last

/-- The nodes of the chain proper, in the order of their links. -/
def order (c : Chain) : List NodeId :=
  match c.first? with
  | some first => (c.ahead (fun _ => false) first).toList
  | none => []

def last? (c : Chain) : Option NodeId := c.order.getLast?

/-- Does walking along `next` links from `start` come to `target`? -/
def reaches (c : Chain) (start target : NodeId) : Bool :=
  (c.ahead (· == target) start).last == target

/-- The nodes from `first` to `last`, if `last` can be reached. -/
def span (c : Chain) (first last : NodeId) : Except ChainError (List NodeId) := do
  let _ ← c.node first
  let _ ← c.node last
  let trail := Trail.walk c.next? (· == last) c.size first
  if trail.last = last then return trail.toList else throw (.noNeighbor trail.last .next)

/-! ### Text -/

def textOfAll (c : Chain) (ids : List NodeId) : Text := ids.flatMap c.textOf

def render (c : Chain) : Text := c.textOfAll c.order

def spanText (c : Chain) (first last : NodeId) : Except ChainError Text :=
  (c.span first last).map c.textOfAll

end Chain

end Restyle
