import Restyle.Chain.Edit
import Restyle.Lexer.Notices
import Restyle.Log.Session
import Restyle.Pass.Basic
import Restyle.Rule.Basic

/-!
# Running a pass

A pass lexes a source, makes a chain of its tokens, runs each rule until it makes no more edits and
renders the chain. If the settings ask for it, the rules are then run once over the output, which
they must leave alone.
-/

namespace Restyle

/-- A step of a pass. It leaves notices also when it fails. -/
abbrev PassM := EStateM PassError (Array Log.Notice)

namespace Pass
open Log (Notice)

def note (n : Notice) : PassM Unit := fun journal => .ok () (journal.push n)

def lex (limits : Limits) (source : Text) : PassM Scan := do
  let scan := Scan.ofSource limits source
  (scan.notices limits source).forM note
  match scan.failure with
  | some e => throw (.lexical e)
  | none => return scan

def build (limits : Limits) (scan : Scan) : PassM Chain := do
  match Chain.ofLexemes limits.nodes scan.lexemes.toList with
  | .error e => throw (.chain e)
  | .ok c =>
    note c.builtNotice
    return c

def applyRule (rule : Rule) (c : Chain) : PassM Chain := fun journal =>
  match rule.apply ⟨c, journal⟩ with
  | .ok () w => .ok w.chain w.journal
  | .error e w => .error (.chain e) w.journal

/-- Applies a rule up to `fuel` times more, until it makes no edit. -/
def settle (limits : Limits) (settings : FixingSettings) (rule : Rule) :
    Nat → RuleRun → Chain → PassM (RuleRun × Chain)
  | 0, _, _ => throw (.unsettledRule rule.name limits.rounds)
  | fuel + 1, run, c => do
    let before := c.edits
    let c ← applyRule rule c
    let edits := c.edits - before
    let run := { run with rounds := run.rounds + 1 }
    if edits = 0 then
      note (.success .ruleSettled "Rule reached fixed point" [
        ("rule", rule.name),
        ("applications", toString run.rounds),
        ("edits", toString run.edits)])
      return (run, c)
    else
      if settings.logRounds then
        note (.info "Rule applied" [
          ("rule", rule.name),
          ("application", toString run.rounds),
          ("edits", toString edits)])
      settle limits settings rule fuel { run with edits := run.edits + edits } c

/-- Runs the rules one after another, each to its fixed point. -/
def runRules (limits : Limits) (settings : FixingSettings) :
    List Rule → Chain → PassM (List RuleRun × Chain)
  | [], c => return ([], c)
  | rule :: rest, c => do
    let (run, c) ← settle limits settings rule limits.rounds { rule := rule.name } c
    let (runs, c) ← runRules limits settings rest c
    return (run :: runs, c)

/-- Applies each rule once, and fails at the first that edits. -/
def checkSettled : List Rule → Chain → PassM Unit
  | [], _ => return ()
  | rule :: rest, c => do
    let before := c.edits
    let c ← applyRule rule c
    let edits := c.edits - before
    if edits > 0 then throw (.unstableRule rule.name edits)
    checkSettled rest c

/-- Checks that no rule edits the output of a pass. -/
def verify (limits : Limits) (rules : List Rule) (output : Text) : PassM Unit := do
  checkSettled rules (← build limits (← lex limits output))
  note (.debug "Output verified idempotent" [("rules", toString rules.length)])

/-- A pass over a source, without the notice that ends it. -/
def run (limits : Limits) (settings : Settings) (rules : List Rule) (label : String)
    (source : Text) : PassM Outcome := do
  if rules.length > limits.rules then
    throw (.ruleLimit rules.length limits.rules)
  note (.info "Starting fixing pass" [
    ("file", label),
    ("bytes", toString (Text.byteSize source)),
    ("rules", toString rules.length)])
  let scan ← lex limits source
  let c ← build limits scan
  note (.success .chainBuilt "Chain constructed" [("nodes", toString c.size)])
  let (runs, c) ← runRules limits settings.fixing rules c
  let output := c.render
  let changed := output != source
  if changed && settings.fixing.recheck then verify limits rules output
  return {
    output, changed, runs
    metrics := .ofLexemes settings.lexical scan.lexemes
    tokens := scan.lexemes.size }

/-- The notice that ends a pass; a pass that changed nothing may end without one. -/
def endNotice? (settings : FixingSettings) (label duration : String) :
    Except PassError Outcome → Option Notice
  | .ok outcome =>
    if outcome.changed || settings.logUnchanged then some (outcome.notice label duration)
    else none
  | .error e =>
    some (.error .passFailed "Fixing pass aborted, input left unmodified" [
      ("file", label), ("cause_code", e.code.text), ("cause", e.message)])

/-- The result of a pass and the notices it left. -/
def perform (limits : Limits) (settings : Settings) (rules : List Rule) (label : String)
    (source : Text) : Except PassError Outcome × Array Notice :=
  match run limits settings rules label source #[] with
  | .ok outcome journal => (.ok outcome, journal)
  | .error e journal => (.error e, journal)

/-- The label of a source that has none. -/
def anonymous : String := "<source>"

end Pass

/-- Runs a pass inside a log session, with the source as the file at work. `duration` is the time
that the pass took, in milliseconds. -/
def Log.Session.fix (s : Session) (duration : String) (settings : Settings) (rules : List Rule)
    (label : String) (source : Text) : Except PassError Outcome × Session :=
  let (result, journal) := Pass.perform s.limits settings rules label source
  let s := (s.openFile label).emitAll journal
  let s := (Pass.endNotice? settings.fixing label duration result).elim s s.emit
  (result, s.closeFile)

end Restyle
