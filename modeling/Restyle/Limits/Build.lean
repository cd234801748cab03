import Restyle.Data.Record
import Restyle.Data.Toml.Document
import Restyle.Files
import Restyle.Limits
import Restyle.Settings.Basic

/-!
# Building in limits

The limits of a build come from a TOML file named after the build profile. They are checked and
then written out as the source text of constants.
-/

namespace Restyle

/-! ### The limits file -/

namespace Limits
open Data (natural?)

/-- The natural numbers under these names in a part of the file. -/
def numbers? (names : List String) (part : Option Data) : Option (List Nat) := do
  let values ← Data.Dialect.toml.record? names (← part)
  values.mapM fun value => value.bind natural?

/-- Every limit has to be given. -/
def ofData? (d : Data) : Option Limits := do
  match ← Data.Dialect.toml.record? ["chain", "lexical", "fixing", "logging"] d with
  | [chain, lexical, fixing, logging] =>
    match ← numbers? ["max_chain_nodes"] chain,
      ← numbers? ["max_token_count", "max_comment_length", "max_string_size"] lexical,
      ← numbers? ["max_fixed_point_iterations", "max_rules_per_pass"] fixing,
      ← numbers? ["max_log_message_length", "max_log_events_per_file"] logging with
    | [nodes], [tokens, commentBytes, stringBytes], [rounds, rules], [messageBytes, fileEvents] =>
      return { nodes, tokens, commentBytes, stringBytes, rounds, rules, messageBytes, fileEvents }
    | _, _, _, _ => none
  | _ => none

end Limits

/-! ### Checks -/

inductive LimitsError where
  | fileNotFound (path root dir profile : String)
  | unreadable (path : String) (cause : FileError)
  | malformed (path : String)
  | nodesOutOfRange (max : Nat)
  /-- Places in a chain are kept in 32 bits. -/
  | nodesTooWide
  | roundsOutOfRange (max : Nat)
  | moreTokensThanNodes
  | roundsTooHighForProduction
  deriving DecidableEq, Repr

def LimitsError.message : LimitsError → String
  | fileNotFound path root dir profile =>
    s!"Configuration file not found: {path}\nWorkspace root: {root}\n" ++
      s!"Looking for: {root}/{dir}/{profile}.toml"
  | unreadable path cause => s!"Failed to read {path}: {cause.message}"
  | malformed path => s!"Invalid TOML in {path}"
  | nodesOutOfRange max => s!"LIMITS: max_chain_nodes must be in 1..={max}"
  | nodesTooWide => "LIMITS: max_chain_nodes does not fit a u32 node id"
  | roundsOutOfRange max => s!"LIMITS: max_fixed_point_iterations must be in 1..={max}"
  | moreTokensThanNodes => "LIMITS: max_token_count cannot exceed max_chain_nodes"
  | roundsTooHighForProduction =>
    "PRODUCTION: max_fixed_point_iterations too high for production"

namespace Limits

def nodeCeiling : Nat := 50000000

def roundCeiling : Nat := 1000

/-- Do the limits make sense together, and for this profile? -/
def validate (profile : String) (l : Limits) : Except LimitsError Unit := do
  if l.nodes = 0 ∨ l.nodes > nodeCeiling then
    throw (.nodesOutOfRange nodeCeiling)
  if l.nodes ≥ 0x100000000 then throw .nodesTooWide
  if l.rounds = 0 ∨ l.rounds > roundCeiling then
    throw (.roundsOutOfRange roundCeiling)
  if l.tokens > l.nodes then throw .moreTokensThanNodes
  if profile = "production" ∧ l.rounds > 64 then
    throw .roundsTooHighForProduction

/-! ### The constants -/

def constantGroup (name : String) (constants : List (String × Nat)) : String :=
  "    pub mod " ++ name ++ " \x7b\n" ++
    String.join (constants.map fun (name, value) =>
      "        pub const " ++ name ++ ": usize = " ++ toString value ++ ";\n") ++
    "    \x7d\n"

/-- The limits as the source text of constants. -/
def constants (profile : String) (l : Limits) : String :=
  "\n// Generated compile-time constants from TOML configuration\n" ++
    "// Profile: " ++ profile ++ "\n// DO NOT EDIT - Generated by build.rs\n\n" ++
    "pub mod compile_time \x7b\n" ++ "\n".intercalate [
      constantGroup "chain" [("MAX_CHAIN_NODES", l.nodes)],
      constantGroup "lexical" [
        ("MAX_TOKEN_COUNT", l.tokens),
        ("MAX_COMMENT_LENGTH", l.commentBytes),
        ("MAX_STRING_SIZE", l.stringBytes)],
      constantGroup "fixing" [
        ("MAX_FIXED_POINT_ITERATIONS", l.rounds),
        ("MAX_RULES_PER_PASS", l.rules)],
      constantGroup "logging" [
        ("MAX_LOG_MESSAGE_LENGTH", l.messageBytes),
        ("MAX_LOG_EVENTS_PER_FILE", l.fileEvents)]] ++ "\x7d\n"

end Limits

/-! ### The build -/

/-- A path inside a directory. An absolute path stays as it is. -/
def joinPath (dir path : String) : String :=
  if path.toList.head? = some '/' then path
  else if dir.toList.getLast? = some '/' ∨ dir = "" then dir ++ path
  else dir ++ "/" ++ path

/-- Which limits a build takes. -/
structure BuildChoice where
  profile : String := "development"
  dir : String := "config"
  deriving DecidableEq, Repr

namespace BuildChoice

def ofEnvironment (env : Environment) : BuildChoice where
  profile := (env.get? "FIXER_BUILD_PROFILE").getD "development"
  dir := (env.get? "FIXER_CONFIG_DIR").getD "config"

/-- Where a build says its limits are from. -/
def origin (b : BuildChoice) : String := s!"Generated from {b.dir}/{b.profile}.toml"

def path (b : BuildChoice) (root : String) : String :=
  joinPath (joinPath root b.dir) (b.profile ++ ".toml")

/-- The lines that tell the build tool what the constants depend on. -/
def dependencies (b : BuildChoice) (root : String) : List String := [
  "cargo:rerun-if-changed=build.rs",
  "cargo:rerun-if-env-changed=FIXER_BUILD_PROFILE",
  "cargo:rerun-if-env-changed=FIXER_CONFIG_DIR",
  "cargo:rerun-if-changed=" ++ b.path root]

def limits (b : BuildChoice) (root : String) (files : FileTree) : Except LimitsError Limits := do
  let path := b.path root
  if !files.exists? path then throw (.fileNotFound path root b.dir b.profile)
  match files.read path with
  | .error cause => throw (.unreadable path cause)
  | .ok source =>
    match (Toml.parse? source.toList).bind Limits.ofData? with
    | none => throw (.malformed path)
    | some l =>
      l.validate b.profile
      return l

/-- The constants of the build. -/
def constants (b : BuildChoice) (root : String) (files : FileTree) : Except LimitsError String :=
  (b.limits root files).map (·.constants b.profile)

end BuildChoice

end Restyle
