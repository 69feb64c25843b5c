import ScriptLint.Diagnostic.Fix

/-!
# Applying edits

Edits whose ranges are pairwise apart come into sequence when they are sorted. A single edit is applied if its range is in
the text and cuts no character, and then changes nothing outside its range.
-/
namespace ScriptLint.Fix
set_option autoImplicit false

/-- One of the ranges ends no later than the other one starts. -/
def Apart (a b : Fix) : Prop := a.range.stop ≤ b.range.start ∨ b.range.stop ≤ a.range.start

theorem Apart.symm {a b : Fix} (h : Apart a b) : Apart b a := Or.symm h

theorem le_iff {a b : Fix} : a.le b = true ↔
    a.range.start < b.range.start ∨ a.range.start = b.range.start ∧ a.range.stop ≤ b.range.stop := by
  simp [le]

theorem le_trans (a b c : Fix) (hab : a.le b = true) (hbc : b.le c = true) : a.le c = true := by
  rw [le_iff] at *
  omega

theorem le_total (a b : Fix) : (a.le b || b.le a) = true := by
  rw [Bool.or_eq_true, le_iff, le_iff]
  omega

theorem inSequence_of_pairwise {fixes : List Fix} (h : fixes.Pairwise fun a b => a.range.stop ≤ b.range.start) :
    inSequence fixes = true := by
  induction h with
  | nil => rfl
  | @cons first more hFirst _ ih =>
    cases more with
    | nil => rfl
    | cons next more =>
      rw [inSequence, ih, Bool.and_true, decide_eq_true_eq]
      exact hFirst next List.mem_cons_self

theorem inSequence_sort {fixes : List Fix} (hForward : ∀ fix ∈ fixes, fix.range.start ≤ fix.range.stop)
    (hApart : fixes.Pairwise Apart) : inSequence (sort fixes) = true := by
  have hPerm : (sort fixes).Perm fixes := List.mergeSort_perm fixes le
  have hSorted : (sort fixes).Pairwise fun a b => a.le b = true := List.pairwise_mergeSort le_trans le_total fixes
  have hSortedApart : (sort fixes).Pairwise Apart := hPerm.symm.pairwise hApart fun h => h.symm
  apply inSequence_of_pairwise
  refine (hSorted.and hSortedApart).imp_of_mem ?_
  rintro a b - hb ⟨hLe, hApartAB⟩
  have hb := hForward b (hPerm.mem_iff.mp hb)
  rw [le_iff] at hLe
  rcases hApartAB with hOrder | hOrder
  · exact hOrder
  · omega

theorem apply_eq_splice? (fix : Fix) (source : Bytes) : fix.apply source = fix.splice? source := by
  simp [apply, applyAll, sort, inSequence]

theorem splice?_eq_some {fix : Fix} {source fixed : Bytes} (h : fix.splice? source = some fixed) :
    fixed = source.take fix.range.start ++ Utf8.encode fix.text ++ source.drop fix.range.stop := by
  rw [splice?] at h
  split at h
  · exact (Option.some.inj h).symm
  · cases h

theorem exists_middle_of_apply_eq_some {fix : Fix} {source fixed : Bytes} {i j : Nat} (hStart : i ≤ fix.range.start)
    (hStop : fix.range.stop ≤ j) (h : fix.apply source = some fixed) :
    ∃ middle, fixed = source.take i ++ middle ++ source.drop j := by
  rw [apply_eq_splice?] at h
  have hBefore := List.take_append_drop i (source.take fix.range.start)
  rw [List.take_take, Nat.min_eq_left hStart] at hBefore
  have hAfter := List.take_append_drop (j - fix.range.stop) (source.drop fix.range.stop)
  rw [List.drop_drop, Nat.add_sub_cancel' hStop] at hAfter
  refine ⟨(source.take fix.range.start).drop i ++ Utf8.encode fix.text ++
    (source.drop fix.range.stop).take (j - fix.range.stop), ?_⟩
  calc
    fixed = source.take fix.range.start ++ Utf8.encode fix.text ++ source.drop fix.range.stop := splice?_eq_some h
    _ = (source.take i ++ (source.take fix.range.start).drop i) ++ Utf8.encode fix.text ++
        ((source.drop fix.range.stop).take (j - fix.range.stop) ++ source.drop j) := by rw [hBefore, hAfter]
    _ = _ := by simp only [List.append_assoc]

theorem isSome_splice? {fix : Fix} {source : Bytes} (hForward : fix.range.start ≤ fix.range.stop)
    (hInside : fix.range.stop ≤ source.length) (hStart : Utf8.isBoundary source fix.range.start = true)
    (hStop : Utf8.isBoundary source fix.range.stop = true) : (fix.splice? source).isSome = true := by
  rw [splice?, if_pos, Option.isSome_some]
  simp only [hForward, hInside, hStart, hStop, decide_true, Bool.and_self]

end ScriptLint.Fix
