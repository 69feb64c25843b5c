import ScriptLint.Markup.Attribute

/-!
Paths as texts with slashes. Empty parts and dots name nothing; the extension is what follows the last dot of the file
name, unless that dot comes first.
-/
namespace ScriptLint.Path
set_option autoImplicit false

def split : List Char → List (List Char)
  | [] => [[]]
  | c :: rest =>
    if c = '/' then [] :: split rest
    else
      match split rest with
      | [] => [[c]]
      | part :: more => (c :: part) :: more

def components (path : String) : List (List Char) :=
  (split path.toList).filter fun part => !part.isEmpty && part != ['.']

/-- The last part, unless it leads up. -/
def fileName? (path : String) : Option (List Char) :=
  match (components path).getLast? with
  | some part => if part = ['.', '.'] then none else some part
  | none => none

def extension? (path : String) : Option (List Char) :=
  match fileName? path with
  | none => none
  | some name =>
    let after := (name.reverse.takeWhile (· != '.')).reverse
    let before := name.length - after.length
    if before ≤ 1 then none else some after

end ScriptLint.Path

namespace ScriptLint.MarkupMode
set_option autoImplicit false

/-- XML for the extensions given, in any case and with or without leading dots, and HTML for all others. -/
def ofPath (path : String) (xmlExtensions : List String) : MarkupMode :=
  match Path.extension? path with
  | none => .html
  | some found =>
    if xmlExtensions.any fun known =>
        Attribute.lowerAscii (known.toList.dropWhile (· == '.')) == Attribute.lowerAscii found then .xml
    else .html

end ScriptLint.MarkupMode
