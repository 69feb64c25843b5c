import ScriptLint.Config.Settings
import ScriptLint.Json.Fault

/-!
Why no settings can be had from a file.
-/
namespace ScriptLint
set_option autoImplicit false

inductive ReadFailure where
  | missing
  | notDirectory
  | isDirectory
  | notUtf8
  deriving DecidableEq, Repr

def ReadFailure.message : ReadFailure → String
  | missing => "No such file or directory (os error 2)"
  | notDirectory => "Not a directory (os error 20)"
  | isDirectory => "Is a directory (os error 21)"
  | notUtf8 => "stream did not contain valid UTF-8"

inductive Defect where
  | json (fault : Json.Fault)
  | toml
  | yaml
  | notTable (compact : String)
  | setting (fault : Settings.Fault)
  deriving DecidableEq, Repr

def Defect.message : Defect → String
  | json fault => "JSON parse error: " ++ fault.message
  | toml => "TOML parse error"
  | yaml => "YAML parse error"
  | notTable compact => "expected a table of settings, found " ++ compact
  | setting fault => fault.message

inductive ConfigError where
  | unreadable (cause : ReadFailure)
  | invalid (path : String) (defect : Defect)
  | unsupportedFormat (path : String)
  | invalidIndent (text : String)
  | unknownSetting (key : String) (suggestion : Option String)
  deriving DecidableEq, Repr

def ConfigError.message : ConfigError → String
  | unreadable cause => "Failed to read config file: " ++ cause.message
  | invalid path defect => "Invalid config in " ++ path ++ ": " ++ defect.message
  | unsupportedFormat path => "Unsupported config format: " ++ path
  | invalidIndent text => Settings.invalidIndentMessage text
  | unknownSetting key suggestion =>
    "Unknown setting `" ++ key ++ "`" ++
      match suggestion with
      | some known => ", did you mean `" ++ known ++ "`?"
      | none => ""

/-- The indentation that a text describes. The error has the text as it was given. -/
def Indent.parse (s : String) : Except ConfigError Indent :=
  match parse? s with
  | some indent => .ok indent
  | none => .error (.invalidIndent s)

end ScriptLint
