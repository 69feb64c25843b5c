/-!
Tokens of YAML. The ends of blocks, which the text marks by indentation only, are tokens too.
-/
namespace ScriptLint.Yaml
set_option autoImplicit false

inductive Token where
  | streamEnd
  /-- A line before a document that tells the version or declares nothing known. -/
  | directive (isVersion : Bool)
  /-- A line before a document that gives a short handle to the beginning of tags. -/
  | handle (name start : String)
  | documentStart
  | documentEnd
  | blockSequenceStart
  | blockMappingStart
  | blockEnd
  | flowSequenceStart
  | flowSequenceEnd
  | flowMappingStart
  | flowMappingEnd
  | blockEntry
  | flowEntry
  | key
  | value
  | alias (name : String)
  | anchor (name : String)
  /-- A tag without a handle is given in full. -/
  | tag (handle suffix : String)
  | scalar (isPlain : Bool) (text : String)
  deriving DecidableEq, Repr

end ScriptLint.Yaml
