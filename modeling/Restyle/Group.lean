import Restyle.Chain.Basic

/-!
# Bracket groups

A group is an opening bracket, the bracket that closes it and the groups directly inside. It is
read with a stack of the groups that are still open.
-/

namespace Restyle

inductive Group where
  | mk (opener closer : NodeId) (children : List Group)
  deriving Repr

namespace Group

def opener : Group → NodeId
  | mk opener _ _ => opener

def closer : Group → NodeId
  | mk _ closer _ => closer

def children : Group → List Group
  | mk _ _ children => children

/-- A group that is not closed yet. -/
structure Frame where
  opener : NodeId
  /-- The bracket that would close it. -/
  expected : Char
  /-- The groups read inside it, the latest first. -/
  children : List Group := []

namespace Frame

def close (f : Frame) (closer : NodeId) : Group := .mk f.opener closer f.children.reverse

def add (f : Frame) (g : Group) : Frame := { f with children := g :: f.children }

def unbalanced (c : Chain) (f : Frame) : ChainError :=
  .openGroup f.opener (c.textOf f.opener) f.expected

end Frame

/-- Reads on after `current`, inside `frame` and the frames around it, for at most `fuel` nodes. -/
def read (c : Chain) : Nat → NodeId → Frame → List Frame → Except ChainError Group
  | 0, _, frame, _ => .error (frame.unbalanced c)
  | fuel + 1, current, frame, outer =>
    match c.next? current with
    | none => .error (frame.unbalanced c)
    | some id =>
      match c.token id with
      | .error e => .error e
      | .ok token =>
        match token.closer? with
        | some expected => read c fuel id { opener := id, expected } (frame :: outer)
        | none =>
          if !token.closesGroup then read c fuel id frame outer
          else if !token.isPunctuation frame.expected then .error (frame.unbalanced c)
          else
            match outer with
            | parent :: outer => read c fuel id (parent.add (frame.close id)) outer
            | [] => .ok (frame.close id)

/-- The group that a node opens; none if it opens none. -/
def parse (c : Chain) (opener : NodeId) : Except ChainError (Option Group) := do
  match (← c.token opener).closer? with
  | none => return none
  | some expected => return some (← read c c.size opener { opener, expected } [])

/-- The nodes of a group, brackets included. -/
def span (c : Chain) (g : Group) : Except ChainError (List NodeId) := c.span g.opener g.closer

/-- Do two lists of nodes hold the same tokens, as far as both go? -/
def sameTokens (c : Chain) : List NodeId → List NodeId → Except ChainError Bool
  | a :: as, b :: bs =>
    match c.sameToken a b with
    | .ok true => sameTokens c as bs
    | other => other
  | _, _ => .ok true

mutual

/-- Do two groups hold the same tokens in the same nesting? -/
def same (c : Chain) : Group → Group → Except ChainError Bool
  | .mk opener closer children, other => do
    let ours ← c.span opener closer
    let theirs ← other.span c
    if ours.length != theirs.length || children.length != other.children.length then return false
    if ← sameTokens c ours theirs then sameAll c children other.children else return false

def sameAll (c : Chain) : List Group → List Group → Except ChainError Bool
  | g :: gs, h :: hs => do if ← same c g h then sameAll c gs hs else return false
  | _, _ => .ok true

end

/-- The group and the groups directly inside it. -/
def subgroups (g : Group) : List Group := g :: g.children

mutual

/-- `flatten` in front of a list. -/
def flattenOnto (depth : Nat) (rest : List (NodeId × NodeId × Nat)) :
    Group → List (NodeId × NodeId × Nat)
  | .mk opener closer children =>
    (opener, closer, depth) :: flattenAllOnto (depth + 1) rest children

def flattenAllOnto (depth : Nat) (rest : List (NodeId × NodeId × Nat)) :
    List Group → List (NodeId × NodeId × Nat)
  | [] => rest
  | g :: gs => flattenOnto depth (flattenAllOnto depth rest gs) g

end

/-- The group and all groups inside it, each with its depth, in the order of their openers. -/
def flatten (depth : Nat) (g : Group) : List (NodeId × NodeId × Nat) := flattenOnto depth [] g

end Group

end Restyle
