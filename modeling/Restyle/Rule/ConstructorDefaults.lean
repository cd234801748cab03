import Restyle.ClassDecl
import Restyle.Rule.Basic

/-!
# Property defaults belong in the constructor

A property with a default value is declared without it, and the constructor assigns the value
instead. A class without a constructor gets one after its last property; if the class has a parent,
the new constructor calls the parent's first. Static properties and `null` defaults stay as they
are, and so does a class whose constructor has no body.
-/

namespace Restyle.ConstructorDefaults
open RuleM

/-- The defaults that have to move. -/
def movable (d : ClassDecl) : List (Property × Initializer) :=
  d.properties.filterMap fun p =>
    match p.value with
    | some value => if p.isStatic || value.isNull then none else some (p, value)
    | none => none

/-! ### Layout -/

def defaultUnit : Text := "    ".toList

/-- By how much members are indented further than their class. -/
def indentStep (propertyIndent braceIndent : Text) : Text :=
  match Text.strip? braceIndent propertyIndent with
  | some unit => if unit.isEmpty then defaultUnit else unit
  | none => defaultUnit

/-- Moves the lines that a whitespace token starts from one indent to another. -/
def reindent (source target : Text) (t : Token) : Token :=
  if !t.isWhitespace || !t.hasLineFeed || source == target then t
  else
    match Text.lines t.text with
    | [] => t
    | line :: rest =>
      let shift (line : Text) : Text :=
        match Text.strip? source line with
        | some rest => target ++ rest
        | none => line
      .classify .whitespace (line ++ rest.flatMap fun line => '\n' :: shift line)

/-- The indent of statements in a constructor: that of its first statement, or one unit more than
the constructor if its body is empty or starts on the line of the brace. -/
def statementIndent (c : Chain) (start : NodeId) (body : Group) (unit : Text) :
    Except ChainError Text := do
  let first ← c.nextVisible body.opener
  if first ≠ body.closer then
    if ← c.spanBreaksLine body.opener first then return ← c.indentAt first
  return (← c.indentAt start) ++ unit

/-! ### New tokens -/

def space : Token := .classify .whitespace " ".toList

def newLine (indent : Text) : Token := .classify .whitespace ('\n' :: indent)

def mark (c : Char) : Token := .classify .punctuation [c]

def operator (s : String) : Token := .classify .operator s.toList

def keyword (s : String) : Token := .classify .keyword s.toList

def identifier (name : Text) : Token := .classify .identifier name

/-- The statement that assigns the value of a property. -/
def assignment (c : Chain) (statementIndent : Text) (p : Property) (value : Initializer) :
    Except ChainError (List Token) := do
  let declared ← c.indentAt p.start
  let tokens ← (← c.span value.first value.last).mapM c.token
  return [.classify .variableName "$this".toList, operator "->", identifier p.name, space,
      operator "=", space] ++ tokens.map (reindent declared statementIndent) ++ [mark ';']

/-- The statement that calls the constructor of the parent. -/
def parentCall : List Token :=
  [identifier "parent".toList, operator "::", identifier "__construct".toList, mark '(', mark ')',
    mark ';']

/-- Statements, each on a line of its own. -/
def block (statementIndent : Text) (statements : List (List Token)) : List Token :=
  statements.flatMap fun statement => newLine statementIndent :: statement

/-- A constructor that makes these statements, after a separator. -/
def constructorTokens (separator propertyIndent statementIndent : Text)
    (statements : List (List Token)) : List Token :=
  [.classify .whitespace separator, keyword "public", space, keyword "function", space,
      identifier "__construct".toList, mark '(', mark ')', newLine propertyIndent, mark '{'] ++
    block statementIndent statements ++ [newLine propertyIndent, mark '}']

/-! ### Edits -/

def putBefore (anchor : NodeId) (t : Token) : RuleM Unit := do
  let id ← edit (Chain.create t)
  edit (Chain.insertBefore anchor id)

def putAllBefore (anchor : NodeId) (tokens : List Token) : RuleM Unit :=
  tokens.forM (putBefore anchor)

def putAllAfter : NodeId → List Token → RuleM Unit
  | _, [] => return ()
  | anchor, t :: rest => do
    let id ← edit (Chain.create t)
    edit (Chain.insertAfter anchor id)
    putAllAfter id rest

/-- Takes the default out of a declaration, the equals sign included. -/
def dropDefault (d : ClassDecl) (p : Property) : RuleM Unit := do
  let first ← look (·.next p.variableId)
  let last ← look (·.previous p.terminator)
  edit (Chain.removeSpan first last)
  note (.debug "Moving property default into constructor" [
    ("property", String.ofList p.name), ("class_node", d.keyword.label)])

/-- The node before which statements are added to a body: the line break before its closing brace,
which is made if there is none. -/
def closingLine (body : Group) (headIndent : Text) : RuleM NodeId := do
  let before ← look (·.previous body.closer)
  let token ← look (·.token before)
  if token.isWhitespace && token.hasLineFeed then return before
  let id ← edit (Chain.create (newLine headIndent))
  edit (Chain.insertBefore body.closer id)
  return id

/-- Adds statements at the end of a constructor. -/
def addStatements (start : NodeId) (body : Group) (statementIndent : Text)
    (statements : List (List Token)) : RuleM Unit := do
  let headIndent ← look (·.indentAt start)
  let anchor ← closingLine body headIndent
  putAllBefore anchor (block statementIndent statements)

/-- The last node on the line of `id`, if only whitespace and comments follow there. Whitespace
after the last comment does not count. -/
def lineTail (c : Chain) (id : NodeId) : NodeId :=
  let quiet (t : Token) := !t.hasLineFeed && !t.isSignificant
  let trail := Trail.walk (fun n => (c.next? n).filter (c.tokenIs quiet)) (fun _ => false) c.size id
  ((trail.last :: trail.passed).find? (c.tokenIs Token.isComment)).getD id

/-- What separates a new member from what it is put after: the whitespace that comes next, if it
leads to a line with the indent of members, and otherwise an empty line. -/
def separator (c : Chain) (anchor : NodeId) (propertyIndent : Text) : Text :=
  let isSeparator (t : Token) :=
    t.isWhitespace && t.hasLineFeed && t.text.lastLine == propertyIndent
  match (c.next? anchor).filter (c.tokenIs isSeparator) with
  | some next => c.textOf next
  | none => '\n' :: '\n' :: propertyIndent

/-- Adds a constructor after the last property. -/
def addConstructor (d : ClassDecl) (propertyIndent statementIndent : Text)
    (statements : List (List Token)) : RuleM Unit := do
  match d.properties.getLast? with
  | none => return ()
  | some property =>
    let anchor ← look fun c => .ok (lineTail c property.terminator)
    let separator ← look fun c => .ok (separator c anchor propertyIndent)
    let statements := if d.hasParent then parentCall :: statements else statements
    putAllAfter anchor (constructorTokens separator propertyIndent statementIndent statements)

/-! ### The rule -/

/-- Moves the defaults of a class, of which `first` is the first to move. -/
def moveDefaults (d : ClassDecl) (first : Property) (defaults : List (Property × Initializer))
    (target : Option (NodeId × Group)) : RuleM Unit := do
  let braceIndent ← look (·.indentAt d.body.opener)
  let propertyIndent ← look (·.indentAt first.start)
  let unit := indentStep propertyIndent braceIndent
  let indent ← match target with
    | some (start, body) => look (statementIndent · start body unit)
    | none => pure (propertyIndent ++ unit)
  let statements ← look fun c => defaults.mapM fun (p, value) => assignment c indent p value
  defaults.forM fun (p, _) => dropDefault d p
  match target with
  | some (start, body) => addStatements start body indent statements
  | none => addConstructor d propertyIndent indent statements

def tidy (d : ClassDecl) : RuleM Unit := do
  let defaults := movable d
  match defaults.head? with
  | none => return ()
  | some (first, _) =>
    match d.constructor? with
    | none => moveDefaults d first defaults none
    | some method =>
      match method.body with
      | some body => moveDefaults d first defaults (some (method.start, body))
      | none =>
        note (.warning "Constructor has no body, property defaults left in place" [
          ("class_node", d.keyword.label), ("properties", toString defaults.length)])

def rule : Rule where
  name := "default_values_in_constructor"
  apply := do (← look ClassDecl.all).forM tidy

end Restyle.ConstructorDefaults
