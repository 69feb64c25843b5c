import Mathlib.Data.List.Induction
import Mathlib.Logic.Function.Iterate
import ScriptLint.Config.Find

/-!
# Which settings file is found

The search checks a directory for every name before it goes up, so nearness counts before preference. A path is given by
its parts: without parts it is the root if the path starts there, and the empty path if it does not. The search ends there
in either case.
-/
namespace ScriptLint.Settings
set_option autoImplicit false

variable {isFile : List String → Bool} {directory path : List String}

/-- The directory has a file with one of the names. -/
def Holds (isFile : List String → Bool) (directory : List String) : Prop :=
  ∃ name ∈ fileNames, isFile (directory ++ [name]) = true

/-- The path is that of the file in the directory with the most preferred name. -/
def Prefers (isFile : List String → Bool) (directory path : List String) : Prop :=
  ∃ before name after, fileNames = before ++ name :: after ∧ path = directory ++ [name] ∧ isFile path = true ∧
    ∀ other ∈ before, isFile (directory ++ [other]) = false

theorem fileIn?_eq_some_iff : fileIn? isFile directory = some path ↔ Prefers isFile directory path := by
  rw [fileIn?, List.find?_map, Option.map_eq_some_iff]
  simp only [List.find?_eq_some_iff_append, Function.comp_apply, Bool.not_eq_true']
  constructor
  · rintro ⟨name, ⟨hFile, before, after, hNames, hBefore⟩, rfl⟩
    exact ⟨before, name, after, hNames, rfl, hFile, hBefore⟩
  · rintro ⟨before, name, after, hNames, rfl, hFile, hBefore⟩
    exact ⟨name, ⟨hFile, before, after, hNames, hBefore⟩, rfl⟩

theorem fileIn?_eq_none_iff : fileIn? isFile directory = none ↔ ¬Holds isFile directory := by
  rw [fileIn?, List.find?_eq_none, Holds, List.forall_mem_map]
  simp only [not_exists, not_and]

theorem ancestors_concat (path : List String) (part : String) :
    ancestors (path ++ [part]) = (path ++ [part]) :: ancestors path := by
  induction path with
  | nil => rfl
  | cons first more ih => rw [List.cons_append, ancestors, ih, ancestors, List.map_cons, List.cons_append]

theorem find?_nil (isFile : List String → Bool) : find? isFile [] = fileIn? isFile [] := by
  rw [find?, ancestors, List.findSome?_singleton]

theorem find?_concat (isFile : List String → Bool) (path : List String) (part : String) :
    find? isFile (path ++ [part]) = (fileIn? isFile (path ++ [part])).or (find? isFile path) := by
  rw [find?, ancestors_concat, List.findSome?_cons]
  cases fileIn? isFile (path ++ [part]) <;> rfl

theorem iterate_dropLast_concat (path : List String) (part : String) (up : Nat) :
    List.dropLast^[up + 1] (path ++ [part]) = List.dropLast^[up] path := by
  rw [Function.iterate_succ_apply, List.dropLast_concat]

theorem iterate_dropLast_nil (up : Nat) : List.dropLast^[up] ([] : List String) = [] :=
  Function.iterate_fixed rfl up

theorem find?_eq_some_iff (start : List String) : find? isFile start = some path ↔
    ∃ up ≤ start.length, Prefers isFile (List.dropLast^[up] start) path ∧
      ∀ nearer < up, ¬Holds isFile (List.dropLast^[nearer] start) := by
  induction start using List.reverseRecOn with
  | nil =>
    rw [find?_nil, fileIn?_eq_some_iff]
    constructor
    · intro h
      exact ⟨0, Nat.le_refl 0, h, fun nearer hLt => absurd hLt (Nat.not_lt_zero nearer)⟩
    · rintro ⟨up, -, h, -⟩
      rwa [iterate_dropLast_nil] at h
  | append_singleton init part ih =>
    rw [find?_concat, Option.or_eq_some_iff, fileIn?_eq_some_iff, fileIn?_eq_none_iff, ih]
    constructor
    · rintro (h | ⟨hNone, up, hUp, h, hNearer⟩)
      · exact ⟨0, Nat.zero_le _, h, fun nearer hLt => absurd hLt (Nat.not_lt_zero nearer)⟩
      · refine ⟨up + 1, ?_, ?_, ?_⟩
        · rw [List.length_append]
          exact Nat.add_le_add_right hUp 1
        · rwa [iterate_dropLast_concat]
        · intro nearer hLt
          cases nearer with
          | zero => exact hNone
          | succ nearer =>
            rw [iterate_dropLast_concat]
            exact hNearer nearer (Nat.lt_of_succ_lt_succ hLt)
    · rintro ⟨up, hUp, h, hNearer⟩
      cases up with
      | zero => exact .inl h
      | succ up =>
        rw [iterate_dropLast_concat] at h
        rw [List.length_append] at hUp
        refine .inr ⟨hNearer 0 (Nat.succ_pos up), up, Nat.le_of_succ_le_succ hUp, h, fun nearer hLt => ?_⟩
        rw [← iterate_dropLast_concat init part nearer]
        exact hNearer (nearer + 1) (Nat.succ_lt_succ hLt)

theorem find?_eq_none_iff (start : List String) :
    find? isFile start = none ↔ ∀ up, ¬Holds isFile (List.dropLast^[up] start) := by
  induction start using List.reverseRecOn with
  | nil => simp only [find?_nil, fileIn?_eq_none_iff, iterate_dropLast_nil, forall_const]
  | append_singleton init part ih =>
    rw [find?_concat, Option.or_eq_none_iff, fileIn?_eq_none_iff, ih]
    constructor
    · rintro ⟨hHere, hAbove⟩ up
      cases up with
      | zero => exact hHere
      | succ up =>
        rw [iterate_dropLast_concat]
        exact hAbove up
    · intro h
      refine ⟨h 0, fun up => ?_⟩
      rw [← iterate_dropLast_concat init part up]
      exact h (up + 1)

/-- The file found is the most preferred one in the nearest directory that has any, and none is found only if no
directory on the way up has any. -/
theorem find?_nearest (isFile : List String → Bool) (start : List String) :
    (∀ path, find? isFile start = some path ↔
      ∃ up ≤ start.length, Prefers isFile (List.dropLast^[up] start) path ∧
        ∀ nearer < up, ¬Holds isFile (List.dropLast^[nearer] start)) ∧
    (find? isFile start = none ↔ ∀ up, ¬Holds isFile (List.dropLast^[up] start)) :=
  ⟨fun _ => find?_eq_some_iff start, find?_eq_none_iff start⟩

-- a directory is no file, whatever its name
example :
    let tree := ({} : FileTree).addFile ["htmlscript.toml"] [] |>.addDirectory ["site", ".htmlscriptrc.json"]
    find? tree.isFile ["site", "pages"] = some ["htmlscript.toml"] := by
  decide +kernel

end ScriptLint.Settings
