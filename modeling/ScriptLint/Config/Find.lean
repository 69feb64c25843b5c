import ScriptLint.Config.Load
import ScriptLint.Text.Utf8

/-!
Finding and reading settings files. The nearest directory above the start that holds one wins, and in it the name that
comes first in the order of preference.
-/
namespace ScriptLint.Settings
set_option autoImplicit false

/-- The names of settings files in order of preference. -/
def fileNames : List String :=
  [".htmlscriptrc.json", ".htmlscriptrc.toml", ".htmlscriptrc.yaml", ".htmlscriptrc.yml", "htmlscript.toml"]

/-- A path and what is left of it when its last part is dropped again and again. -/
def ancestors : List String → List (List String)
  | [] => [[]]
  | part :: more => (ancestors more).map (part :: ·) ++ [[]]

def fileIn? (isFile : List String → Bool) (directory : List String) : Option (List String) :=
  (fileNames.map fun name => directory ++ [name]).find? isFile

def find? (isFile : List String → Bool) (start : List String) : Option (List String) :=
  (ancestors start).findSome? (fileIn? isFile)

end ScriptLint.Settings

namespace ScriptLint
set_option autoImplicit false

structure FileTree where
  directories : List (List String) := []
  files : List (List String × Bytes) := []
  deriving DecidableEq, Repr

namespace FileTree

inductive Entry where
  | directory
  | file (contents : Bytes)
  deriving DecidableEq, Repr

def parts (path : String) : List String := (Path.components path).map String.ofList

def addDirectory (tree : FileTree) (path : List String) : FileTree :=
  { tree with directories := Settings.ancestors path ++ tree.directories }

/-- The tree with a file, in place of an earlier one at that path. -/
def addFile (tree : FileTree) (path : List String) (contents : Bytes) : FileTree :=
  let tree := tree.addDirectory path.dropLast
  { tree with files := (path, contents) :: tree.files }

def lookUp (tree : FileTree) (place : List String) : List String → Except ReadFailure Entry
  | [] => .ok .directory
  | part :: more =>
    if part = ".." then (if place.isEmpty then .error .missing else tree.lookUp place.dropLast more)
    else
      match tree.files.find? fun file => file.1 == place ++ [part] with
      | some file => if more.isEmpty then .ok (.file file.2) else .error .notDirectory
      | none =>
        if tree.directories.contains (place ++ [part]) then tree.lookUp (place ++ [part]) more
        else .error .missing

def isFile (tree : FileTree) (path : List String) : Bool :=
  match tree.lookUp [] path with
  | .ok (.file _) => true
  | _ => false

/-- Whether a path ends in a slash, so that it can lead to a directory only. -/
def namesDirectory (path : String) : Bool :=
  match (Path.split path.toList).getLast? with
  | some part => part.isEmpty || part == ['.']
  | none => true

def read (tree : FileTree) (path : String) : Except ReadFailure String :=
  match tree.lookUp [] (parts path) with
  | .error failure => .error failure
  | .ok .directory => .error .isDirectory
  | .ok (.file contents) =>
    if namesDirectory path then .error .notDirectory
    else if Utf8.isValid contents then .ok (Utf8.decode contents)
    else .error .notUtf8

end FileTree

namespace Settings

def load (tree : FileTree) (path : String) : Except ConfigError Settings :=
  match tree.read path with
  | .error failure => .error (.unreadable failure)
  | .ok contents => parse path contents

end Settings
end ScriptLint
