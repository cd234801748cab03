import Restyle.Data.Record
import Restyle.Data.Toml.Document
import Restyle.Files
import Restyle.Settings.Basic

/-!
# Settings as data

Settings are read from data or from a TOML file. What is not given there keeps a default.
-/

namespace Restyle
open Data (Dialect withDefault)

namespace FixingSettings

def toData (s : FixingSettings) : Data :=
  .table [
    ("verify_idempotence", .bool s.recheck),
    ("log_edit_details", .bool s.logRounds),
    ("log_unchanged_files", .bool s.logUnchanged)]

def ofData? (dialect : Dialect) (default : FixingSettings) (d : Data) : Option FixingSettings := do
  match ← dialect.record? ["verify_idempotence", "log_edit_details", "log_unchanged_files"] d with
  | [verify, details, unchanged] =>
    return {
      recheck := ← withDefault Data.bool? default.recheck verify
      logRounds := ← withDefault Data.bool? default.logRounds details
      logUnchanged := ← withDefault Data.bool? default.logUnchanged unchanged }
  | _ => none

end FixingSettings

namespace MetricsOptions

def toData (o : MetricsOptions) : Data :=
  .table [
    ("collect_detailed_metrics", .bool o.detailed),
    ("include_whitespace_in_counts", .bool o.countWhitespace)]

def ofData? (dialect : Dialect) (default : MetricsOptions) (d : Data) : Option MetricsOptions := do
  match ← dialect.record? ["collect_detailed_metrics", "include_whitespace_in_counts"] d with
  | [detailed, whitespace] =>
    return {
      detailed := ← withDefault Data.bool? default.detailed detailed
      countWhitespace := ← withDefault Data.bool? default.countWhitespace whitespace }
  | _ => none

end MetricsOptions

namespace LogSettings

def toData (s : LogSettings) : Data :=
  .table [
    ("use_structured_logging", .bool s.useStructured),
    ("enable_console_logging", .bool s.enableConsole),
    ("min_log_level", .string s.threshold.name),
    ("include_file_context", .bool s.includeFile)]

def ofData? (dialect : Dialect) (default : LogSettings) (d : Data) : Option LogSettings := do
  let level? (d : Data) := (dialect.name? d).bind Log.Level.ofName?
  match ← dialect.record? ["use_structured_logging", "enable_console_logging", "min_log_level",
      "include_file_context"] d with
  | [structured, console, level, file] =>
    return {
      useStructured := ← withDefault Data.bool? default.useStructured structured
      enableConsole := ← withDefault Data.bool? default.enableConsole console
      threshold := ← withDefault level? default.threshold level
      includeFile := ← withDefault Data.bool? default.includeFile file }
  | _ => none

end LogSettings

inductive SettingsError where
  /-- The file cannot be read as text. -/
  | unreadable (path : String) (cause : FileError)
  /-- The text is no TOML, or what it says fits no settings. -/
  | malformed
  deriving DecidableEq, Repr

def SettingsError.message : SettingsError → String
  | unreadable path cause =>
    s!"Failed to read configuration file '{path}': {cause.message}"
  | malformed => "Invalid runtime configuration"

namespace Settings

def toData (s : Settings) : Data :=
  .table [
    ("fixing", s.fixing.toData), ("lexical", s.lexical.toData), ("logging", s.logging.toData)]

def ofData? (dialect : Dialect) (default : Settings) (d : Data) : Option Settings := do
  match ← dialect.record? ["fixing", "lexical", "logging"] d with
  | [fixing, lexical, logging] =>
    let fixing? := FixingSettings.ofData? dialect default.fixing
    let lexical? := MetricsOptions.ofData? dialect default.lexical
    let logging? := LogSettings.ofData? dialect default.logging
    return {
      fixing := ← withDefault fixing? default.fixing fixing
      lexical := ← withDefault lexical? default.lexical lexical
      logging := ← withDefault logging? default.logging logging }
  | _ => none

def ofToml (default : Settings) (source : Text) : Except SettingsError Settings :=
  match (Toml.parse? source).bind (ofData? .toml default) with
  | some s => .ok s
  | none => .error .malformed

def ofFile (default : Settings) (files : FileTree) (path : String) :
    Except SettingsError Settings :=
  match files.read path with
  | .error cause => .error (.unreadable path cause)
  | .ok text => ofToml default text.toList

end Settings

end Restyle
