import Restyle.Limits
import Restyle.Log.Event
import Restyle.Rule.Shipped

/-!
# Checking the set-up

Every error has to be registered, and the shipped rules have to fit into one pass.
-/

namespace Restyle.Pass
open Log (Code Notice)

def lexCodes : List Code :=
  [.openString, .openComment, .tokenLimit, .commentLimit, .stringLimit]

def passCodes : List Code :=
  [.noPrevious, .noNeighbor, .noIndent, .removedNode, .placedNode, .foreignNode, .openGroup,
    .chainLimit, .linkLoop, .unsettledRule, .unstableRule, .ruleLimit, .passFailed]

/-- The first code that is not registered. -/
def missing? (codes : List Code) : Option Code := codes.find? (·.info?.isNone)

def validateLexCodes : Except String Unit :=
  match missing? lexCodes with
  | some code => .error s!"Lexical error code {code.text} not found in metadata registry"
  | none => .ok ()

def validateSetup (limits : Limits) : Except String Unit := do
  validateLexCodes
  if let some code := missing? passCodes then
    throw s!"Error code {code.text} not found in metadata registry"
  let count := Rule.shipped.length
  if count > limits.rules then
    throw s!"{count} default rules exceed max_rules_per_pass ({limits.rules})"

/-- Checks the set-up, with the notices on it. -/
def validate (limits : Limits) : Except String Unit × List Notice :=
  let start : Notice := .debug "Validating fixing pipeline configuration"
  match validateSetup limits with
  | .error e => (.error e, [start])
  | .ok () =>
    (.ok (), [start, .success .initialized "Fixing pipeline validation succeeded" [
      ("codes_validated", toString passCodes.length),
      ("default_rules", toString Rule.shipped.length)]])

end Restyle.Pass
