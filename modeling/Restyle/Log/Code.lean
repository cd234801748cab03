/-!
# Log codes

A code says what an event is about. Codes of errors are registered with how bad the error is and
what can be done about it; any other code is told apart by its first letter.
-/

namespace Restyle.Log

structure Code where
  text : String
  deriving DecidableEq, Repr

inductive Severity where
  | critical
  | high
  | medium
  | low
  deriving DecidableEq, Repr

def Severity.label : Severity → String
  | critical => "Critical"
  | high => "High"
  | medium => "Medium"
  | low => "Low"

/-- What is registered about an error code. -/
structure CodeInfo where
  code : Code
  category : String
  severity : Severity
  recoverable : Bool
  halts : Bool
  description : String
  advice : String
  deriving DecidableEq, Repr

namespace Code

/-- An error that cannot be recovered from. -/
def fatal (code category : String) (severity : Severity) (description action : String) : CodeInfo :=
  { code := ⟨code⟩, category, severity, recoverable := false, halts := true, description
    advice := action }

def registry : List CodeInfo := [
  fatal "ERR001" "System" .critical
    "Critical internal system error"
    "File a bug report with the input that triggered it",
  fatal "E020" "Lexical" .medium
    "String literal is not terminated before end of input"
    "Close the string literal",
  fatal "E021" "Lexical" .medium
    "Block comment is not terminated before end of input"
    "Close the block comment with */",
  fatal "E022" "Lexical" .high
    "Source produces more tokens than allowed"
    "Split the file or raise max_token_count",
  fatal "E023" "Lexical" .medium
    "Comment exceeds maximum length"
    "Shorten the comment or raise max_comment_length",
  fatal "E024" "Lexical" .medium
    "String literal exceeds maximum size"
    "Shorten the literal or raise max_string_size",
  fatal "E040" "Chain" .high
    "Attempted to replace, remove or insert before the chain anchor"
    "Edit a node that has a previous neighbor",
  fatal "E041" "Chain" .high
    "Navigation requested past a chain end"
    "Use peek_next or peek_previous for optional lookahead",
  fatal "E042" "Chain" .critical
    "Leading whitespace of a line could not be computed"
    "File a bug report with the input that triggered it",
  fatal "E043" "Chain" .high
    "Orphaned node used in a linking operation"
    "Create a fresh node instead of re-inserting a removed one",
  fatal "E044" "Chain" .high
    "Node is already linked elsewhere in the chain"
    "Insert a freshly created node",
  fatal "E045" "Chain" .critical
    "Node id does not belong to this chain"
    "Only use ids returned by the same chain",
  fatal "E046" "Chain" .medium
    "Bracket group has no matching closer"
    "Check the source for unbalanced brackets",
  fatal "E047" "Chain" .high
    "Chain exceeds the maximum node count"
    "Split the file or raise max_chain_nodes",
  fatal "E048" "Chain" .critical
    "Linking two nodes would close the chain into a loop"
    "Fix the rule so it links nodes in chain order",
  fatal "E060" "Fixing" .high
    "Rule kept editing beyond the fixed-point iteration limit"
    "Check the rule for oscillating edits",
  fatal "E061" "Fixing" .high
    "Rule edited its own output"
    "Check the rule for idempotence",
  fatal "E062" "Fixing" .medium
    "Too many rules registered for one pass"
    "Reduce the rule set or raise max_rules_per_pass",
  fatal "E063" "Fixing" .high
    "Fixing pass aborted on a structural error"
    "Inspect the logged chain error; the file was left unmodified"]

def info? (c : Code) : Option CodeInfo := registry.find? (·.code == c)

def severity (c : Code) : Severity := (c.info?.map (·.severity)).getD .low

def canRecover (c : Code) : Bool := (c.info?.map (·.recoverable)).getD true

def halts (c : Code) : Bool := (c.info?.map (·.halts)).getD false

def description (c : Code) : String := (c.info?.map (·.description)).getD "Unknown error"

def action (c : Code) : String :=
  (c.info?.map (·.advice)).getD "No specific action available"

def category (c : Code) : String :=
  match c.info? with
  | some info => info.category
  | none =>
    match c.text.toList.head? with
    | some 'I' => "Success"
    | some 'W' => "Warning"
    | some 'D' => "Debug"
    | _ => "Unknown"

/-! ### Codes of events without an error -/

def plainWarning : Code := ⟨"W000"⟩
def plainInfo : Code := ⟨"I000"⟩
def plainDebug : Code := ⟨"D000"⟩
def initialized : Code := ⟨"I004"⟩
def sourceLexed : Code := ⟨"I020"⟩
def chainBuilt : Code := ⟨"I040"⟩
def ruleSettled : Code := ⟨"I060"⟩
def passCompleted : Code := ⟨"I061"⟩

/-! ### Codes of errors -/

def internalFault : Code := ⟨"ERR001"⟩
def openString : Code := ⟨"E020"⟩
def openComment : Code := ⟨"E021"⟩
def tokenLimit : Code := ⟨"E022"⟩
def commentLimit : Code := ⟨"E023"⟩
def stringLimit : Code := ⟨"E024"⟩
def noPrevious : Code := ⟨"E040"⟩
def noNeighbor : Code := ⟨"E041"⟩
def noIndent : Code := ⟨"E042"⟩
def removedNode : Code := ⟨"E043"⟩
def placedNode : Code := ⟨"E044"⟩
def foreignNode : Code := ⟨"E045"⟩
def openGroup : Code := ⟨"E046"⟩
def chainLimit : Code := ⟨"E047"⟩
def linkLoop : Code := ⟨"E048"⟩
def unsettledRule : Code := ⟨"E060"⟩
def unstableRule : Code := ⟨"E061"⟩
def ruleLimit : Code := ⟨"E062"⟩
def passFailed : Code := ⟨"E063"⟩

end Code

end Restyle.Log
