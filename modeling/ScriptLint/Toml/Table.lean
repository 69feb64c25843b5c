import ScriptLint.Data.Value

/-!
Tables of TOML while they are being filled. A table can be named by a header once, after it has come to be as part of a
longer header; dotted keys add only to tables that no header named; values are never added to.
-/
namespace ScriptLint.Toml
set_option autoImplicit false

inductive Origin where
  /-- As part of a longer header. -/
  | implied
  /-- By a header of its own. -/
  | header
  /-- As part of a dotted key. -/
  | dotted
  deriving DecidableEq, Repr

inductive Node where
  | leaf (value : Value)
  | table (origin : Origin) (entries : List (String × Node))
  /-- Tables that share a header, the latest last. -/
  | tables (items : List (List (String × Node)))

abbrev Entries := List (String × Node)

/-- Entries with what stands under a key replaced; nothing stands under a key that is not there. -/
def alter? (key : String) (change : Option Node → Option Node) : Entries → Option Entries
  | [] => (change none).map fun node => [(key, node)]
  | (name, node) :: more =>
    if name = key then (change (some node)).map fun node => (name, node) :: more
    else (alter? key change more).map ((name, node) :: ·)

def alterLast? (change : Entries → Option Entries) (items : List Entries) : Option Node :=
  match items.getLast? with
  | none => none
  | some last => (change last).map fun last => .tables (items.dropLast ++ [last])

def openTable? : List String → Entries → Option Entries
  | [], _ => none
  | [key], entries =>
    alter? key
      (fun
        | none => some (.table .header [])
        | some (.table .implied inner) => some (.table .header inner)
        | _ => none)
      entries
  | key :: next :: path, entries =>
    alter? key
      (fun
        | none => (openTable? (next :: path) []).map (.table .implied)
        | some (.table origin inner) => (openTable? (next :: path) inner).map (.table origin)
        | some (.tables items) => alterLast? (openTable? (next :: path)) items
        | some (.leaf _) => none)
      entries

def openItem? : List String → Entries → Option Entries
  | [], _ => none
  | [key], entries =>
    alter? key
      (fun
        | none => some (.tables [[]])
        | some (.tables items) => some (.tables (items ++ [[]]))
        | _ => none)
      entries
  | key :: next :: path, entries =>
    alter? key
      (fun
        | none => (openItem? (next :: path) []).map (.table .implied)
        | some (.table origin inner) => (openItem? (next :: path) inner).map (.table origin)
        | some (.tables items) => alterLast? (openItem? (next :: path)) items
        | some (.leaf _) => none)
      entries

/-- Puts a value under a dotted key, where `entries` belong to a table that dotted keys may add to iff `mayAdd`. -/
def put? (mayAdd : Bool) (value : Value) : List String → Entries → Option Entries
  | [], _ => none
  | [key], entries =>
    if mayAdd then
      alter? key
        (fun
          | none => some (.leaf value)
          | some _ => none)
        entries
    else none
  | key :: next :: path, entries =>
    alter? key
      (fun
        | none => (put? true value (next :: path) []).map (.table .dotted)
        | some (.table .dotted inner) => (put? true value (next :: path) inner).map (.table .dotted)
        | some (.table .implied inner) => (put? true value (next :: path) inner).map (.table .implied)
        | some (.tables items) => alterLast? (put? false value (next :: path)) items
        | some _ => none)
      entries

/-- Puts a value under a dotted key of the table that a header named last. -/
def putUnder? (value : Value) (key : List String) : List String → Entries → Option Entries
  | [], entries => put? true value key entries
  | part :: path, entries =>
    alter? part
      (fun
        | some (.table origin inner) => (putUnder? value key path inner).map (.table origin)
        | some (.tables items) => alterLast? (putUnder? value key path) items
        | _ => none)
      entries

def sortEntries (entries : List (String × Value)) : List (String × Value) :=
  entries.mergeSort fun a b => !(b.1 < a.1)

mutual

def Node.toValue : Node → Value
  | .leaf value => value
  | .table _ entries => .object (sortEntries (entryValues entries))
  | .tables items => .array (itemValues items)

def itemValues : List (List (String × Node)) → List Value
  | [] => []
  | entries :: more => .object (sortEntries (entryValues entries)) :: itemValues more

def entryValues : List (String × Node) → List (String × Value)
  | [] => []
  | (key, node) :: more => (key, node.toValue) :: entryValues more

end

def tableValue (entries : Entries) : Value := .object (sortEntries (entryValues entries))

end ScriptLint.Toml
