import ScriptLint.Config.Error
import ScriptLint.Config.Suggestion
import ScriptLint.Json.Reader
import ScriptLint.Text.WhiteSpace
import ScriptLint.Toml.Reader
import ScriptLint.Yaml.Reader

/-!
Settings from the contents of a file. The extension of its name tells the format.
-/
namespace ScriptLint.Settings
set_option autoImplicit false

/-- The settings that a value describes. A name that is not a setting is reported before any value is looked at. -/
def ofValue (path : String) (value : Value) : Except ConfigError Settings :=
  match value with
  | .null => .ok {}
  | .object entries =>
    match entries.find? fun entry => (Key.ofName? entry.1).isNone with
    | some entry => .error (.unknownSetting entry.1 ((suggest? entry.1).map Key.name))
    | none => (putAll {} entries).mapError fun fault => .invalid path (.setting fault)
  | other => .error (.invalid path (.notTable other.compact))

/-- The indentation that a JSON text describes, or a complaint. The text is read to the end of its value before the
value is looked at, and what follows it is looked at last. -/
def parseIndent (text : String) : Except String Indent :=
  match Json.firstValue text.toList with
  | .error fault => .error fault.message
  | .ok (value, rest) =>
    match readIndent value with
    | .error fault => .error fault.message
    | .ok indent =>
      if (Json.skipSpace rest).isEmpty then .ok indent else .error Json.Fault.trailingCharacters.message

inductive Format where
  | json
  | toml
  | yaml
  deriving DecidableEq, Repr

def Format.ofPath? (path : String) : Option Format :=
  match (Path.extension? path).map String.ofList with
  | some "json" => some .json
  | some "toml" => some .toml
  | some "yaml" => some .yaml
  | some "yml" => some .yaml
  | _ => none

/-- The value that a text in a format describes. A blank text in YAML describes none. -/
def readValue (format : Format) (contents : String) : Except Defect Value :=
  match format with
  | .json => (Json.parse contents).mapError .json
  | .toml =>
    match Toml.parse? contents with
    | some value => .ok value
    | none => .error .toml
  | .yaml =>
    if (WhiteSpace.trim contents).isEmpty then .ok .null
    else
      match Yaml.parse? contents with
      | some value => .ok value
      | none => .error .yaml

def parse (path contents : String) : Except ConfigError Settings :=
  match Format.ofPath? path with
  | none => .error (.unsupportedFormat path)
  | some format =>
    match readValue format contents with
    | .ok value => ofValue path value
    | .error defect => .error (.invalid path defect)

end ScriptLint.Settings
