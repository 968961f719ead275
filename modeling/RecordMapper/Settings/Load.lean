import RecordMapper.Json.Parser
import RecordMapper.Settings.Basic
import RecordMapper.Steps
import RecordMapper.Text.Blank
import RecordMapper.Text.LetterCase
import RecordMapper.Toml.Parser

/-!
Where settings come from: a file laid over the defaults, variables of the environment over that, and a
cell that holds the settings of a process once they are known.
-/

namespace RecordMapper

/-- The formats of settings files. -/
inductive SettingsFormat
  | toml
  | json
  deriving DecidableEq, Repr, Inhabited

def SettingsFormat.name : SettingsFormat → String
  | .toml => "TOML"
  | .json => "JSON"

namespace Failure

def unparsedSettings (f : SettingsFormat) : Failure :=
  .configuration ("Failed to parse " ++ f.name ++ ": the text is no document")

def unfitSettings (f : SettingsFormat) (reason : Failure) : Failure :=
  .configuration ("Failed to deserialize settings from " ++ f.name ++ ": " ++ reason.message)

def unreadSettings (f : SettingsFormat) (path : String) : Failure :=
  .configuration ("Failed to read " ++ f.name ++ " file '" ++ path ++ "': there is no such file")

def unconfiguredMain (name : String) : Failure :=
  .configuration ("Default database '" ++ name ++ "' is not configured")

end Failure

/-- The document of a text in a format. -/
def SettingsFormat.parse? (f : SettingsFormat) (s : String) : Option Json :=
  match f with
  | .toml => (Toml.parse? s).bind Toml.toJson?
  | .json => Json.parse? s

namespace Settings

/-- The settings of a text: its document laid over the defaults. -/
def ofText (f : SettingsFormat) (s : String) : Outcome Settings :=
  match f.parse? s with
  | none => .error (.unparsedSettings f)
  | some j =>
    match Json.decode ((Json.encode (default : Settings)).overlay j) with
    | .ok settings => .ok settings
    | .error e => .error (.unfitSettings f e)

/-- The settings of a file, whose text is absent if it cannot be read. -/
def ofFile (f : SettingsFormat) (path : String) (s : Option String) : Outcome Settings :=
  match s with
  | some s => ofText f s
  | none => .error (.unreadSettings f path)

/-- The words that switch something on, up to letter case. -/
def isOn (word : String) : Bool := ["true", "1", "yes"].contains (lowerText word)

/-- A number of rows: digits, which a plus may precede. -/
def limitOfText? (s : String) : Option Nat :=
  let digits := match s.toList with
    | '+' :: rest => rest
    | cs => cs
  (decimalNat? digits).filter fun n => n < UInt64.size

/-- The settings with one variable of the environment over them. A limit that is no number and an
empty mark change nothing. -/
def withVariable (s : Settings) (setting : String × String) : Settings :=
  let (name, v) := setting
  match name with
  | "SCHEMA_ORM_DEBUG" => { s with debug := isOn v }
  | "SCHEMA_ORM_LOG_LEVEL" => { s with logLevel := v }
  | "SCHEMA_ORM_DEFAULT_DATABASE" => { s with main := v }
  | "SCHEMA_ORM_MAX_LIMIT" =>
    match limitOfText? v with
    | some n => { s with query := { s.query with maxLimit := some n } }
    | none => s
  | "SCHEMA_ORM_ORDER_PREFIX" => if v == "" then s else { s with query := { s.query with mark := v } }
  | _ => s

/-- The settings with variables of the environment over them. -/
def withEnvironment (s : Settings) (env : List (String × String)) : Settings :=
  env.foldl withVariable s

/-- The databases of the settings, each of which `connect` has to accept. -/
def connections (s : Settings) (connect : String → DatabaseSettings → Outcome Unit) : Outcome Connections := do
  if !s.databases.any (·.1 == s.main) then throw (.unconfiguredMain s.main)
  s.databases.forM fun (name, d) => connect name d
  return ⟨s.databases.map Prod.fst, s.main⟩

end Settings

/-- The settings of a process, once they are known. -/
structure SettingsCell where
  settings : Option Settings := none
  deriving Inhabited

namespace SettingsCell

def isConfigured (c : SettingsCell) : Bool := c.settings.isSome

/-- Gives the settings, which is refused once they are known. -/
def configure (c : SettingsCell) (s : Settings) : Bool × SettingsCell :=
  match c.settings with
  | some _ => (false, c)
  | none => (true, ⟨some s⟩)

/-- The settings; the defaults are settled on if none are given before. -/
def get (c : SettingsCell) : Settings × SettingsCell :=
  let s := c.settings.getD default
  (s, ⟨some s⟩)

end SettingsCell

end RecordMapper
