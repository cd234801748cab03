import Restyle.Chain.Basic

/-!
# Editing a chain

Every edit first checks all that it needs and only then touches the table. So an edit that fails
leaves the chain as it was, and an edit that succeeds counts as one.
-/

namespace Restyle

/-- A computation on a chain. When it fails, the chain at that point is still there. -/
abbrev Edit := EStateM ChainError Chain

namespace Node

/-- The node without links, out of the chain for good. -/
def orphan (n : Node) : Node := { n with previous := none, next := none, state := .orphaned }

end Node

namespace Chain

/-! ### Changes to the table -/

def update (c : Chain) (id : NodeId) (f : Node → Node) : Chain :=
  { c with nodes := c.nodes.modify id.index f }

/-- Takes away the `previous` link of what comes after `a`, unless that is `b`. -/
def releaseNext (c : Chain) (a b : NodeId) : Chain :=
  match c.next? a with
  | some old => if old = b then c else c.update old fun n => { n with previous := none }
  | none => c

/-- Takes away the `next` link of what comes before `b`, unless that is `a`. -/
def releasePrevious (c : Chain) (a b : NodeId) : Chain :=
  match c.previous? b with
  | some old => if old = a then c else c.update old fun n => { n with next := none }
  | none => c

/-- Links `b` after `a`. Neighbors that lose their link by this are left without one. -/
def link (c : Chain) (a b : NodeId) : Chain :=
  let c := (c.releaseNext a b).releasePrevious a b
  let c := c.update a fun n => { n with next := some b, state := .linked }
  c.update b fun n => { n with previous := some a, state := .linked }

/-- `link`, where there may be nothing to link to. -/
def linkTo (c : Chain) (a : NodeId) : Option NodeId → Chain
  | some b => c.link a b
  | none => c

/-- Takes a node out of the chain. If it is the head, `survivor` becomes the head. -/
def orphan (c : Chain) (survivor id : NodeId) : Chain :=
  let c := c.update id Node.orphan
  if c.head = some id then { c with head := some survivor } else c

/-- Which places of the table the chain proper uses. -/
def marks (c : Chain) : Array Bool :=
  c.order.foldl (fun marks id => marks.setIfInBounds id.index true) (Array.replicate c.size false)

/-- Takes all linked nodes out that are not in the chain proper. -/
def orphanStray (c : Chain) : Chain :=
  let marks := c.marks
  { c with nodes := c.nodes.mapIdx fun i n =>
      if n.state = .linked ∧ marks[i]? ≠ some true then n.orphan else n }

def countEdit (c : Chain) : Chain := { c with edits := c.edits + 1 }

/-! ### Checks -/

/-- The node may be linked to: it is known and no orphan. -/
def checkUsable (c : Chain) (id : NodeId) : Except ChainError Unit := do
  if (← c.node id).state = .orphaned then throw (.removedNode id)

/-- The node may be put somewhere: it is known and was never linked. -/
def checkFresh (c : Chain) (id : NodeId) : Except ChainError Unit := do
  match (← c.node id).state with
  | .unlinked => return ()
  | .linked => throw (.placedNode id)
  | .orphaned => throw (.removedNode id)

def neighborBefore (c : Chain) (id : NodeId) (operation : String) : Except ChainError NodeId :=
  match c.previous? id with
  | some previous => .ok previous
  | none => .error (.noPrevious id operation)

/-! ### Edits -/

/-- An edit made of a check and of a change that uses what was checked. -/
def commit {α : Type} (check : Chain → Except ChainError α) (change : α → Chain → Chain) :
    Edit Unit := fun c =>
  match check c with
  | .error e => .error e c
  | .ok a => .ok () (change a c).countEdit

/-- A new node outside the chain proper. -/
def create (token : Token) : Edit NodeId := fun c =>
  if c.size < c.capacity then .ok (.ofIndex c.size) { c with nodes := c.nodes.push { token } }
  else .error (.chainLimit (c.size + 1) c.capacity) c

def checkJoin (a b : NodeId) (c : Chain) : Except ChainError Unit := do
  c.checkUsable a
  c.checkUsable b
  if a = b then throw (.placedNode b)
  if c.reaches b a then throw (.linkLoop a b)

/-- Links `b` after `a`. The chain proper becomes the run through both, and what is left out of it
is orphaned. -/
def join (a b : NodeId) : Edit Unit :=
  commit (checkJoin a b) fun _ c => { c.link a b with head := some a }.orphanStray

def checkBefore (operation : String) (id fresh : NodeId) (c : Chain) :
    Except ChainError NodeId := do
  c.checkUsable id
  c.checkFresh fresh
  c.neighborBefore id operation

/-- Puts `fresh` in the place of `id`. -/
def replace (id fresh : NodeId) : Edit Unit :=
  commit (checkBefore "replace" id fresh) fun previous c =>
    let next := c.next? id
    ((c.link previous fresh).linkTo fresh next).orphan previous id

def insertBefore (id fresh : NodeId) : Edit Unit :=
  commit (checkBefore "insert before" id fresh) fun previous c =>
    (c.link previous fresh).link fresh id

def checkAfter (id fresh : NodeId) (c : Chain) : Except ChainError Unit := do
  c.checkUsable id
  c.checkFresh fresh

def insertAfter (id fresh : NodeId) : Edit Unit :=
  commit (checkAfter id fresh) fun _ c =>
    let next := c.next? id
    let c := (c.link id fresh).linkTo fresh next
    { c with head := c.head <|> some id }

/-- The node before `first` and the nodes from `first` to `last`. -/
def checkRemove (first last : NodeId) (c : Chain) : Except ChainError (NodeId × List NodeId) := do
  c.checkUsable first
  c.checkUsable last
  let previous ← c.neighborBefore first "remove"
  return (previous, ← c.span first last)

def removeSpan (first last : NodeId) : Edit Unit :=
  commit (checkRemove first last) fun (previous, removed) c =>
    let c := match c.next? last with
      | some after => c.link previous after
      | none => c.update previous fun n => { n with next := none }
    removed.foldl (fun c id => c.orphan previous id) c

def remove (id : NodeId) : Edit Unit := removeSpan id id

/-! ### Chains of tokens -/

/-- The chain with a token put after `last`, or as the first node if there is none. -/
def append (c : Chain) (last : Option NodeId) (token : Token) :
    Except ChainError (NodeId × Chain) :=
  match create token c with
  | .error e _ => .error e
  | .ok id c =>
    match last with
    | some last => .ok (id, c.link last id)
    | none =>
      .ok (id, { c.update id fun n => { n with state := .linked } with head := some id })

def appendAll (c : Chain) (last : Option NodeId) : List Token → Except ChainError Chain
  | [] => .ok c
  | token :: rest =>
    match c.append last token with
    | .error e => .error e
    | .ok (id, c) => c.appendAll (some id) rest

def ofTokens (capacity : Nat) (tokens : List Token) : Except ChainError Chain :=
  appendAll { capacity } none tokens

def ofLexemes (capacity : Nat) (lexemes : List Lexeme) : Except ChainError Chain :=
  ofTokens capacity (lexemes.map Lexeme.toToken)

def builtNotice (c : Chain) : Log.Notice := .debug "Chain constructed" [("nodes", toString c.size)]

end Chain

end Restyle
