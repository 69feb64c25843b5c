import ScriptLint.Text.Quoted
import ScriptLint.Data.Value

/-!
How a value can fail to be what a reader asked for.
-/
namespace ScriptLint
set_option autoImplicit false

inductive Found where
  | null
  | bool (b : Bool)
  | int (n : Int)
  | float (x : Binary64)
  | string (s : String)
  | sequence
  | map
  deriving DecidableEq, Repr

def Found.message : Found → String
  | null => "null"
  | bool b => "boolean `" ++ (if b then "true" else "false") ++ "`"
  | int n => "integer `" ++ toString n ++ "`"
  | float x => "floating point `" ++ Shortest.text x ++ "`"
  | string s => "string " ++ Quoted.quote s
  | sequence => "sequence"
  | map => "map"

def Value.found : Value → Found
  | null => .null
  | bool b => .bool b
  | int n => .int n
  | float x => .float x
  | string s => .string s
  | array _ => .sequence
  | object _ => .map

inductive Wanted where
  | boolean
  | sequence
  | string
  /-- A whole number of 32 bits. -/
  | word
  /-- A whole number of 64 bits. -/
  | offset
  | pair
  | unit
  | variant
  | record (name : String)
  deriving DecidableEq, Repr

def Wanted.message : Wanted → String
  | boolean => "a boolean"
  | sequence => "a sequence"
  | string => "a string"
  | word => "u32"
  | offset => "usize"
  | pair => "an array of length 2"
  | unit => "unit"
  | variant => "variant identifier"
  | record name => "struct " ++ name

inductive Mismatch where
  | type (found : Found) (wanted : Wanted)
  | range (n : Int) (wanted : Wanted)
  | missing (field : String)
  | duplicate (field : String)
  | variant (name : String) (known : List String)
  | length (count : Nat) (wanted : Wanted)
  | recordLength (count : Nat) (name : String) (fields : Nat)
  | alternatives (name : String)
  deriving DecidableEq, Repr

namespace Mismatch

def message : Mismatch → String
  | type found wanted => "invalid type: " ++ found.message ++ ", expected " ++ wanted.message
  | range n wanted => "invalid value: integer `" ++ toString n ++ "`, expected " ++ wanted.message
  | missing field => "missing field `" ++ field ++ "`"
  | duplicate field => "duplicate field `" ++ field ++ "`"
  | variant name known =>
    "unknown variant `" ++ name ++ "`, expected one of " ++ ", ".intercalate (known.map fun k => "`" ++ k ++ "`")
  | length count wanted => "invalid length " ++ toString count ++ ", expected " ++ wanted.message
  | recordLength count name fields =>
    "invalid length " ++ toString count ++ ", expected struct " ++ name ++ " with " ++ toString fields ++ " elements"
  | alternatives name => "data did not match any variant of untagged enum " ++ name

end Mismatch
end ScriptLint
