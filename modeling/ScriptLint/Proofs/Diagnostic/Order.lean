import ScriptLint.Diagnostic.Basic
import ScriptLint.Proofs.Data.StableSort

/-!
# The order of reports

Sorting keeps the reports of one position in their order, so it depends on nothing but the reports at each position.
Lists that are interleaved and never meet at a position are therefore sorted as if one followed the other.
-/
namespace ScriptLint
set_option autoImplicit false

/-- A list made of all elements of some lists, with those of each list in their order. -/
inductive Interleaved {α : Type} : List (List α) → List α → Prop where
  | done {lists : List (List α)} (h : ∀ list ∈ lists, list = []) : Interleaved lists []
  | take {lists : List (List α)} {i : Nat} {a : α} {rest out : List α} (h : lists[i]? = some (a :: rest))
      (hMore : Interleaved (lists.set i rest) out) : Interleaved lists (a :: out)

namespace Interleaved

variable {α β : Type} {lists : List (List α)} {out : List α}

theorem exists_mem (h : Interleaved lists out) {x : α} (hx : x ∈ out) : ∃ list ∈ lists, x ∈ list := by
  induction h with
  | done => cases hx
  | @take lists i a rest out hList hMore ih =>
    rcases List.mem_cons.mp hx with rfl | hx
    · exact ⟨_, List.mem_of_getElem? hList, List.mem_cons_self⟩
    · obtain ⟨list, hMem, hx⟩ := ih hx
      rcases List.mem_or_eq_of_mem_set hMem with hMem | rfl
      · exact ⟨list, hMem, hx⟩
      · exact ⟨_, List.mem_of_getElem? hList, List.mem_cons_of_mem _ hx⟩

theorem filterMap (f : α → Option β) (h : Interleaved lists out) :
    Interleaved (lists.map (List.filterMap f)) (out.filterMap f) := by
  induction h with
  | @done lists hEmpty =>
    apply done
    intro list hList
    obtain ⟨given, hGiven, rfl⟩ := List.mem_map.mp hList
    rw [hEmpty given hGiven, List.filterMap_nil]
  | @take lists i a rest out hList hMore ih =>
    rw [List.map_set] at ih
    have hMapped : (lists.map (List.filterMap f))[i]? = some ((a :: rest).filterMap f) := by
      rw [List.getElem?_map, hList]
      rfl
    cases ha : f a with
    | some b =>
      rw [List.filterMap_cons_some ha] at hMapped ⊢
      exact take hMapped ih
    | none =>
      rw [List.filterMap_cons_none ha] at hMapped ⊢
      obtain ⟨hi, hGet⟩ := List.getElem?_eq_some_iff.mp hMapped
      rw [← hGet, List.set_getElem_self] at ih
      exact ih

theorem filter (p : α → Bool) (h : Interleaved lists out) :
    Interleaved (lists.map (List.filter p)) (out.filter p) := by
  have hFilter := h.filterMap (Option.guard p)
  rwa [List.filterMap_eq_filter] at hFilter

theorem eq_flatten (h : Interleaved lists out) (hOne : lists.Pairwise fun a b => a = [] ∨ b = []) :
    out = lists.flatten := by
  induction h with
  | done hEmpty => exact (List.flatten_eq_nil_iff.mpr hEmpty).symm
  | @take lists i a rest out hList hMore ih =>
    obtain ⟨hi, hGet⟩ := List.getElem?_eq_some_iff.mp hList
    have hSplit : lists = lists.take i ++ (a :: rest) :: lists.drop (i + 1) := by
      rw [← hGet, ← List.drop_eq_getElem_cons hi, List.take_append_drop]
    rw [List.set_eq_take_append_cons_drop, if_pos hi] at ih
    rw [hSplit] at hOne ⊢
    obtain ⟨-, hAfter, hBefore⟩ := List.pairwise_append.mp hOne
    -- the list that has an element left stands between empty ones
    have hBeforeNil : ∀ list ∈ lists.take i, list = [] := by
      intro list hMem
      exact (hBefore list hMem _ List.mem_cons_self).resolve_right (List.cons_ne_nil a rest)
    have hAfterNil : ∀ list ∈ lists.drop (i + 1), list = [] := by
      intro list hMem
      exact ((List.pairwise_cons.mp hAfter).1 list hMem).resolve_left (List.cons_ne_nil a rest)
    have hOut := ih (by
      refine List.pairwise_append.mpr ⟨?_, ?_, ?_⟩
      · exact (List.pairwise_append.mp hOne).1
      · exact List.pairwise_cons.mpr ⟨fun list hMem => .inr (hAfterNil list hMem), (List.pairwise_cons.mp hAfter).2⟩
      · exact fun list hMem _ _ => .inl (hBeforeNil list hMem))
    rw [hOut]
    simp [List.flatten_eq_nil_iff.mpr hBeforeNil]

theorem nil_left (ys : List α) : Interleaved [[], ys] ys := by
  induction ys with
  | nil => exact done (by simp)
  | cons y ys ih => exact take (i := 1) rfl ih

theorem nil_right (xs : List α) : Interleaved [xs, []] xs := by
  induction xs with
  | nil => exact done (by simp)
  | cons x xs ih => exact take (i := 0) rfl ih

theorem merge (le : α → α → Bool) (xs ys : List α) : Interleaved [xs, ys] (xs.merge ys le) := by
  induction xs, ys using List.merge.induct le with
  | case1 ys =>
    rw [List.nil_merge]
    exact nil_left ys
  | case2 xs =>
    rw [List.merge_right]
    exact nil_right xs
  | case3 x xs y ys hLe ih =>
    rw [List.cons_merge_cons, if_pos hLe]
    exact take (i := 0) rfl ih
  | case4 x xs y ys hLe ih =>
    rw [List.cons_merge_cons, if_neg hLe]
    exact take (i := 1) rfl ih

end Interleaved

namespace Diagnostic

def isAt (line column : Nat) (d : Diagnostic) : Bool := d.line == line && d.column == column

theorem isAt_iff {line column : Nat} {d : Diagnostic} : d.isAt line column = true ↔ d.line = line ∧ d.column = column := by
  simp [isAt]

/-- The same reports, in an order that differs at most between reports at different positions. -/
def Reordered (xs ys : List Diagnostic) : Prop :=
  ∀ line column, xs.filter (isAt line column) = ys.filter (isAt line column)

namespace Reordered

variable {xs ys : List Diagnostic}

/-- Moving reports keeps the order at each position, unless it brings reports of different positions together. -/
theorem filterMap (h : Reordered xs ys) (f : Diagnostic → Option Diagnostic)
    (hf : ∀ a b a' b', f a = some a' → f b = some b' → a'.line = b'.line ∧ a'.column = b'.column →
      a.line = b.line ∧ a.column = b.column) : Reordered (xs.filterMap f) (ys.filterMap f) := by
  intro line column
  by_cases hSome : ∃ a a', f a = some a' ∧ a'.isAt line column = true
  · obtain ⟨a, a', ha, hAt⟩ := hSome
    rw [isAt_iff] at hAt
    -- only reports at the position of `a` arrive there
    have hOnly : ∀ zs : List Diagnostic, (zs.filterMap f).filter (isAt line column) =
        ((zs.filter (isAt a.line a.column)).filterMap f).filter (isAt line column) := by
      intro zs
      rw [List.filter_filterMap, List.filter_filterMap, List.filterMap_filter]
      congr 1
      funext b
      split
      · rfl
      · rename_i hElsewhere
        rw [Option.filter_eq_none_iff]
        intro b' hb hThere
        rw [isAt_iff] at hElsewhere hThere
        exact hElsewhere (hf b a b' a' hb ha ⟨hThere.1.trans hAt.1.symm, hThere.2.trans hAt.2.symm⟩)
    rw [hOnly xs, hOnly ys, h]
  · have hNone : ∀ zs : List Diagnostic, (zs.filterMap f).filter (isAt line column) = [] := by
      intro zs
      apply List.filter_eq_nil_iff.mpr
      intro a' ha' hAt
      obtain ⟨a, -, ha⟩ := List.mem_filterMap.mp ha'
      exact hSome ⟨a, a', ha, hAt⟩
    rw [hNone xs, hNone ys]

theorem flatMap {γ : Type} {calls : List γ} {f g : γ → List Diagnostic}
    (h : ∀ call ∈ calls, Reordered (f call) (g call)) : Reordered (calls.flatMap f) (calls.flatMap g) := by
  intro line column
  rw [List.filter_flatMap, List.filter_flatMap, List.flatMap_def, List.flatMap_def, List.map_congr_left]
  intro call hCall
  exact h call hCall line column

theorem append_right (h : Reordered xs ys) (more : List Diagnostic) : Reordered (xs ++ more) (ys ++ more) := by
  intro line column
  rw [List.filter_append, List.filter_append, h]

end Reordered

theorem le_iff {a b : Diagnostic} : a.le b = true ↔ a.line < b.line ∨ a.line = b.line ∧ a.column ≤ b.column := by
  simp [le]

theorem le_trans (a b c : Diagnostic) (hab : a.le b = true) (hbc : b.le c = true) : a.le c = true := by
  rw [le_iff] at *
  omega

theorem le_total (a b : Diagnostic) : (a.le b || b.le a) = true := by
  rw [Bool.or_eq_true, le_iff, le_iff]
  omega

theorem byPosition : ByKey (fun d : Diagnostic => (d.line, d.column)) le where
  trans := le_trans
  total := le_total
  tied_iff a b := by
    rw [le_iff, le_iff, Prod.mk.injEq]
    omega

theorem sort_eq_sort {xs ys : List Diagnostic} (h : Reordered xs ys) : sort xs = sort ys :=
  byPosition.mergeSort_eq_mergeSort fun (line, column) => h line column

theorem filter_isAt_sort (xs : List Diagnostic) (line column : Nat) :
    (sort xs).filter (isAt line column) = xs.filter (isAt line column) :=
  byPosition.filter_mergeSort xs (line, column)

theorem pairwise_sort (xs : List Diagnostic) : (sort xs).Pairwise fun a b => a.le b = true :=
  List.pairwise_mergeSort le_trans le_total xs

theorem interleaved_sort (xs : List Diagnostic) {ys : List Diagnostic} (h : ys.Pairwise fun a b => a.le b = true) :
    Interleaved [sort xs, ys] (sort (xs ++ ys)) := by
  rw [sort, sort, byPosition.mergeSort_append, List.mergeSort_of_pairwise h]
  exact Interleaved.merge le _ _

theorem sort_of_interleaved {lists : List (List Diagnostic)} {out : List Diagnostic} (h : Interleaved lists out)
    (hApart : lists.Pairwise fun xs ys => ∀ x ∈ xs, ∀ y ∈ ys, ¬(x.line = y.line ∧ x.column = y.column))
    (more : List Diagnostic) : sort (out ++ more) = sort (lists.flatten ++ more) := by
  apply sort_eq_sort
  intro line column
  rw [List.filter_append, List.filter_append, List.filter_flatten]
  refine congrArg (· ++ more.filter (isAt line column)) ((h.filter (isAt line column)).eq_flatten ?_)
  refine List.pairwise_map.mpr (hApart.imp ?_)
  intro xs ys hxy
  apply Classical.byContradiction
  intro hBoth
  obtain ⟨hx, hy⟩ := not_or.mp hBoth
  obtain ⟨x, hx⟩ := List.exists_mem_of_ne_nil _ hx
  obtain ⟨y, hy⟩ := List.exists_mem_of_ne_nil _ hy
  obtain ⟨hx, hxAt⟩ := List.mem_filter.mp hx
  obtain ⟨hy, hyAt⟩ := List.mem_filter.mp hy
  rw [isAt_iff] at hxAt hyAt
  exact hxy x hx y hy ⟨hxAt.1.trans hyAt.1.symm, hxAt.2.trans hyAt.2.symm⟩

end Diagnostic
end ScriptLint
