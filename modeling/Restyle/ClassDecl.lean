import Restyle.Item

/-!
# Class declarations

The classes of a source with their members, as far as they can be told from the items between the
braces. Anonymous classes and `::class` are no declarations.
-/

namespace Restyle

/-- The value after the equals sign of a property. -/
structure Initializer where
  first : NodeId
  last : NodeId
  isNull : Bool
  deriving DecidableEq, Repr

/-- A property declared on its own: modifiers, perhaps a type, a variable, perhaps a value. -/
structure Property where
  start : NodeId
  variableId : NodeId
  name : Text
  isStatic : Bool
  value : Option Initializer
  /-- The semicolon. -/
  terminator : NodeId
  deriving DecidableEq, Repr

structure Method where
  start : NodeId
  name : Text
  /-- The braces of the method, if it has any. -/
  body : Option Group
  deriving Repr

def Method.isConstructor (m : Method) : Bool := m.name.sameIgnoringCase "__construct".toList

inductive Member where
  | property (p : Property)
  | method (m : Method)
  | other
  deriving Repr

namespace Member

def property? : Member → Option Property
  | property p => some p
  | _ => none

def method? : Member → Option Method
  | method m => some m
  | _ => none

/-- Items that belong to no member: whitespace, comments and attributes. -/
def isFiller (c : Chain) : Item → Bool
  | .atom id => !c.tokenIs Token.isSignificant id
  | .group g => c.tokenIs Token.opensAttribute g.opener

def isBraces (c : Chain) (g : Group) : Bool := c.tokenIs (·.isPunctuation '{') g.opener

/-- A member ends with a semicolon or with braces. -/
def isEnd (c : Chain) : Item → Bool
  | .atom id => c.tokenIs (·.isPunctuation ';') id
  | .group g => isBraces c g

/-- Cuts items into runs, each of which ends with an item that `isEnd` accepts. What comes after
the last such item is dropped. -/
def runs (isEnd : Item → Bool) (items : List Item) : List (List Item) :=
  let step := fun (current, runs) item =>
    if isEnd item then ([], (item :: current).reverse :: runs) else (item :: current, runs)
  (items.foldl step ([], [])).2.reverse

def isAtom (c : Chain) (p : Token → Bool) : Item → Bool
  | .atom id => c.tokenIs p id
  | .group _ => false

/-- A word that can be the name of a method. -/
def isName (t : Token) : Bool := t.kind == .identifier || t.kind == .keyword

/-- The method of these items. Its name is the first word after `function`. -/
def methodOf (c : Chain) (start : NodeId) (items : List Item) : Method :=
  let after := (items.dropWhile fun i => !isAtom c (·.isKeyword "function") i).tail
  let name := (after.find? (isAtom c isName)).map fun i => c.textOf i.first
  let groups := items.filterMap Item.group?
  { start, name := name.getD [], body := (groups.filter (isBraces c)).getLast? }

/-- The value in the items between a property's variable and its semicolon. -/
def valueOf (c : Chain) : List Item → Option Initializer
  | .atom sign :: value =>
    if c.tokenIs (·.isOperator "=") sign then
      match value.head?, value.getLast? with
      | some first, some last =>
        let isNull (t : Token) := t.isConstant && t.text.sameIgnoringCase "null".toList
        some { first := first.first, last := last.last
               isNull := value.length == 1 && c.tokenIs isNull first.first }
      | _, _ => none
    else none
  | _ => none

def isVariable (t : Token) : Bool := t.kind == .variableName

/-- Words and marks with which a member is not a property, whatever variables it holds. -/
def rulesOutProperty (t : Token) : Bool :=
  t.isKeyword "const" || t.isKeyword "use" || t.isKeyword "case" || t.isPunctuation ','

/-- The property of these items, the last of which is `final`. -/
def propertyOf? (c : Chain) (start : NodeId) (items : List Item) (final : Item) : Option Property :=
  let modifiers := items.takeWhile fun i => !isAtom c isVariable i
  match items.drop modifiers.length with
  | [] => none
  | named :: rest =>
    if items.any (isAtom c rulesOutProperty) then none
    else if !c.tokenIs (·.isPunctuation ';') final.last then none
    else some {
      start
      variableId := named.first
      name := (c.textOf named.first).dropWhile (· == '$')
      isStatic := modifiers.any (isAtom c (·.isKeyword "static"))
      value := valueOf c rest.dropLast
      terminator := final.last }

/-- The member that a run of items declares. -/
def ofItems (c : Chain) (items : List Item) : Member :=
  match items.head?, items.getLast? with
  | some start, some final =>
    if items.any (isAtom c (·.isKeyword "function")) then method (methodOf c start.first items)
    else
      match propertyOf? c start.first items final with
      | some p => property p
      | none => other
  | _, _ => other

def ofBody (c : Chain) (body : Group) : Except ChainError (List Member) := do
  let first ← c.next body.opener
  if first = body.closer then return []
  let items ← Item.sequence c first (← c.previous body.closer)
  return (runs (isEnd c) (items.filter fun i => !isFiller c i)).map (ofItems c)

end Member

structure ClassDecl where
  keyword : NodeId
  hasParent : Bool
  body : Group
  members : List Member
  deriving Repr

namespace ClassDecl

def properties (d : ClassDecl) : List Property := d.members.filterMap Member.property?

/-- The first method with the name of a constructor. -/
def constructor? (d : ClassDecl) : Option Method :=
  (d.members.filterMap Member.method?).find? Method.isConstructor

/-- After `new` or `::`, with only whitespace between, the word `class` declares nothing. -/
def isDeclared (c : Chain) (keyword : NodeId) : Except ChainError Bool :=
  match c.previousVisible keyword with
  | .ok before => .ok !c.tokenIs (fun t => t.isOperator "::" || t.isKeyword "new") before
  | .error (.noNeighbor ..) => .ok true
  | .error e => .error e

/-- What can come right after the header of a class, or instead of it. -/
def endsHeader (t : Token) : Bool :=
  t.isPunctuation '{' || t.isPunctuation ';' || t.isPunctuation '('

def header (c : Chain) (keyword : NodeId) : Trail NodeId :=
  Trail.walk (fun id => (c.nextVisible id).toOption) (c.tokenIs endsHeader) c.size keyword

/-- The declaration that the word `class` at this node starts, if it starts one. -/
def startingAt? (c : Chain) (keyword : NodeId) : Except ChainError (Option ClassDecl) := do
  if !(← isDeclared c keyword) then return none
  let header := header c keyword
  if !c.tokenIs (·.isPunctuation '{') header.last then return none
  match ← Group.parse c header.last with
  | none => return none
  | some body =>
    return some {
      keyword
      hasParent := header.passed.any (c.tokenIs (·.isKeyword "extends"))
      body
      members := ← Member.ofBody c body }

/-- The class declarations of a chain, in the order of their keywords. -/
def all (c : Chain) : Except ChainError (List ClassDecl) := do
  let keywords := c.order.filter (c.tokenIs (·.isKeyword "class"))
  return (← keywords.mapM (startingAt? c)).filterMap id

end ClassDecl

end Restyle
