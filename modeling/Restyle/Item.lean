import Restyle.Chain.Line
import Restyle.Group

/-!
# Items

An item is a single node or a whole bracket group. A span of a chain whose groups close inside it
is a sequence of items.
-/

namespace Restyle

inductive Item where
  | atom (id : NodeId)
  | group (g : Group)
  deriving Repr

namespace Item

def first : Item → NodeId
  | atom id => id
  | group g => g.opener

def last : Item → NodeId
  | atom id => id
  | group g => g.closer

def isGroup : Item → Bool
  | atom _ => false
  | group _ => true

def id? : Item → Option NodeId
  | atom id => some id
  | group _ => none

def group? : Item → Option Group
  | atom _ => none
  | group g => some g

/-- The item that starts at a node: the group it opens, or the node alone. -/
def startingAt (c : Chain) (id : NodeId) : Except ChainError Item := do
  match ← Group.parse c id with
  | some g => return group g
  | none => return atom id

/-- Splits nodes into items. While `awaited` is a node, the nodes up to it belong to an item that
has been read already; `finish` is where the nodes end. -/
def split (c : Chain) (finish : NodeId) :
    List NodeId → Option NodeId → Array Item → Except ChainError (Array Item)
  | [], none, items => .ok items
  | [], some _, _ => .error (.noNeighbor finish .next)
  | id :: rest, some awaited, items =>
    split c finish rest (if id = awaited then none else some awaited) items
  | id :: rest, none, items =>
    match startingAt c id with
    | .error e => .error e
    | .ok item =>
      let awaited := if item.last = id then none else some item.last
      split c finish rest awaited (items.push item)

/-- The items from `first` to `last`. -/
def sequence (c : Chain) (first last : NodeId) : Except ChainError (List Item) := do
  return (← split c last (← c.span first last) none #[]).toList

def render (c : Chain) (i : Item) : Except ChainError Text := c.spanText i.first i.last

def hasLineBreak (c : Chain) : Item → Except ChainError Bool
  | atom id => c.hasLineBreak id
  | group g => c.spanBreaksLine g.opener g.closer

/-- The groups of an item that bear on its layout: the group itself and those directly inside. -/
def subgroups : Item → List Group
  | atom _ => []
  | group g => g.subgroups

/-- Do two items hold the same tokens? A node alone is never the same as a group. -/
def same (c : Chain) : Item → Item → Except ChainError Bool
  | atom a, atom b => c.sameToken a b
  | group g, group h => g.same c h
  | _, _ => .ok false

end Item

end Restyle
