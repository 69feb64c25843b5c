import ScriptLint.Proofs.Data.StableSort
import ScriptLint.Proofs.Diagnostic.Fix
import ScriptLint.Proofs.Text.Utf8

/-!
# Edits as a substitution

Edits are applied one by one, the last one first, and each is checked against the text that the edits after it have left.
The checks accept exactly the edits that fit the text and are pairwise apart, and the result is the text with all ranges
replaced at once.
-/
namespace ScriptLint.Fix
set_option autoImplicit false

structure Fits (source : Bytes) (fix : Fix) : Prop where
  start_le_stop : fix.range.start ≤ fix.range.stop
  stop_le_length : fix.range.stop ≤ source.length
  start_boundary : Utf8.isBoundary source fix.range.start = true
  stop_boundary : Utf8.isBoundary source fix.range.stop = true

/-- The edits in order of start and stop, those with the same range as they are given. -/
structure Arranges (fixes order : List Fix) : Prop where
  perm : order.Perm fixes
  sorted : order.Pairwise fun a b =>
    a.range.start < b.range.start ∨ a.range.start = b.range.start ∧ a.range.stop ≤ b.range.stop
  stable : ∀ range, order.filter (·.range == range) = fixes.filter (·.range == range)

/-- The text from an offset on with ranges replaced: a piece of the text before each replacement and one at the end. -/
def substituteFrom (source : Bytes) (offset : Nat) : List Fix → Bytes
  | [] => source.drop offset
  | fix :: more =>
    (source.take fix.range.start).drop offset ++ Utf8.encode fix.text ++ substituteFrom source fix.range.stop more

theorem byRange : ByKey (fun fix : Fix => fix.range) le where
  trans := le_trans
  total := le_total
  tied_iff a b := by
    obtain ⟨⟨aStart, aStop⟩, aText⟩ := a
    obtain ⟨⟨bStart, bStop⟩, bText⟩ := b
    simp only [le_iff, OffsetRange.mk.injEq]
    omega

theorem arranges_sort (fixes : List Fix) : Arranges fixes (sort fixes) where
  perm := List.mergeSort_perm fixes le
  sorted := (List.pairwise_mergeSort le_trans le_total fixes).imp le_iff.mp
  stable := byRange.filter_mergeSort fixes

theorem Arranges.eq_sort {fixes order : List Fix} (h : Arranges fixes order) : order = sort fixes :=
  byRange.eq_mergeSort (h.sorted.imp le_iff.mpr) h.stable

variable {source : Bytes} {fix : Fix} {more fixes : List Fix} {k : Nat}

theorem pairwise_of_inSequence (hForward : ∀ fix ∈ fixes.tail, fix.range.start ≤ fix.range.stop)
    (h : inSequence fixes = true) : fixes.Pairwise fun a b => a.range.stop ≤ b.range.start := by
  induction fixes with
  | nil => exact .nil
  | cons first rest ih =>
    cases rest with
    | nil => exact List.pairwise_singleton _ _
    | cons next more =>
      rw [inSequence, Bool.and_eq_true, decide_eq_true_eq] at h
      have hRest := ih (fun fix hFix => hForward fix (List.mem_of_mem_tail hFix)) h.2
      refine .cons ?_ hRest
      intro fix hFix
      rcases List.mem_cons.mp hFix with rfl | hFix
      · exact h.1
      · have hNext := hForward next List.mem_cons_self
        have hAfter := (List.pairwise_cons.mp hRest).1 fix hFix
        omega

theorem substituteFrom_eq_append {offset : Nat} (hOffset : offset ≤ k) (hLength : k ≤ source.length)
    (hMore : ∀ fix ∈ more, k ≤ fix.range.start) :
    substituteFrom source offset more = (source.take k).drop offset ++ substituteFrom source k more := by
  have hSplit : ∀ s : Bytes, source.take k <+: s → s.drop offset = (source.take k).drop offset ++ s.drop k := by
    rintro _ ⟨rest, rfl⟩
    have hk : k = (source.take k).length := (List.length_take_of_le hLength).symm
    rw [List.drop_append_of_le_length (by omega), List.drop_left' hk.symm]
  cases more with
  | nil => exact hSplit source (List.take_prefix k source)
  | cons fix more =>
    have hStart := hMore fix List.mem_cons_self
    rw [substituteFrom, substituteFrom, hSplit _ (List.take_prefix_take_left hStart)]
    simp only [List.append_assoc]

theorem length_substituteFrom (hFits : ∀ fix ∈ more, fix.Fits source)
    (hOrder : more.Pairwise fun a b => a.range.stop ≤ b.range.start) (hByte : ∀ fix ∈ more, ∃ a, fix = delete a (a + 1))
    (hMore : ∀ fix ∈ more, k ≤ fix.range.start) (hLength : k ≤ source.length) :
    k + (substituteFrom source k more).length + more.length = source.length := by
  induction more generalizing k with
  | nil => simp [substituteFrom, hLength]
  | cons fix more ih =>
    have hFix := hFits fix List.mem_cons_self
    have hk := hMore fix List.mem_cons_self
    obtain ⟨hFirst, hRest⟩ := List.pairwise_cons.mp hOrder
    have hTail := ih (fun other hOther => hFits other (List.mem_cons_of_mem _ hOther)) hRest
      (fun other hOther => hByte other (List.mem_cons_of_mem _ hOther)) hFirst hFix.stop_le_length
    obtain ⟨a, rfl⟩ := hByte fix List.mem_cons_self
    have hInside : a + 1 ≤ source.length := hFix.stop_le_length
    have hText : (Utf8.encode (delete a (a + 1)).text).length = 0 := rfl
    simp only [substituteFrom, List.length_append, List.length_drop, List.length_take, List.length_cons, hText]
    simp only [delete] at hk hTail ⊢
    omega

theorem isText_substituteFrom (hSource : Utf8.IsText source) (hFits : ∀ fix ∈ more, fix.Fits source)
    (hOrder : more.Pairwise fun a b => a.range.stop ≤ b.range.start) (hMore : ∀ fix ∈ more, k ≤ fix.range.start)
    (hk : Utf8.isBoundary source k = true) : Utf8.IsText (substituteFrom source k more) := by
  induction more generalizing k with
  | nil => exact (hSource.cut hk).2
  | cons fix more ih =>
    have hFix := hFits fix List.mem_cons_self
    obtain ⟨hFirst, hRest⟩ := List.pairwise_cons.mp hOrder
    have hPiece := hSource.slice (hMore fix List.mem_cons_self) hk hFix.start_boundary
    have hTail := ih (fun other hOther => hFits other (List.mem_cons_of_mem _ hOther)) hRest hFirst hFix.stop_boundary
    exact (hPiece.append (Utf8.isText_encode fix.text)).append hTail

theorem isBoundary_substituteFrom (hSource : Utf8.IsText source) (hFits : ∀ fix ∈ more, fix.Fits source)
    (hOrder : more.Pairwise fun a b => a.range.stop ≤ b.range.start) (hMore : ∀ fix ∈ more, k ≤ fix.range.start)
    (hLength : k ≤ source.length) :
    Utf8.isBoundary (substituteFrom source 0 more) k = Utf8.isBoundary source k := by
  cases hBoundary : Utf8.isBoundary source k with
  | true =>
    have hText := isText_substituteFrom hSource hFits hOrder hMore hBoundary
    have hLeft := Utf8.isBoundary_left hText (source.take k)
    rw [List.length_take_of_le hLength] at hLeft
    rw [substituteFrom_eq_append (Nat.zero_le k) hLength hMore, List.drop_zero, hLeft]
  | false =>
    have hPos : 0 < k := Nat.pos_of_ne_zero fun hZero => by simp [hZero, Utf8.isBoundary] at hBoundary
    have hLt : k < source.length := Nat.lt_of_le_of_ne hLength fun hEq => by
      simp [hEq, Utf8.isBoundary_length] at hBoundary
    -- an edit starts between characters, so the byte at `k` comes before all edits
    have hNext : ∀ fix ∈ more, k + 1 ≤ fix.range.start := by
      intro fix hFix
      refine Nat.lt_of_le_of_ne (hMore fix hFix) fun hEq => ?_
      rw [hEq, (hFits fix hFix).start_boundary] at hBoundary
      cases hBoundary
    have hSame : (substituteFrom source 0 more)[k]? = source[k]? := by
      rw [substituteFrom_eq_append (Nat.zero_le (k + 1)) hLt hNext, List.drop_zero,
        List.getElem?_append_left (by rw [List.length_take]; omega), List.getElem?_take_of_lt (Nat.lt_succ_self k)]
    rw [← Bool.not_eq_true, Utf8.isBoundary_iff hPos] at hBoundary ⊢
    rintro ⟨-, hTail⟩
    exact hBoundary ⟨hLength, fun b hb => hTail b (hSame.trans hb)⟩

/-- One more edit before those that are applied already: it is checked as if it came first. -/
theorem splice?_substituteFrom (hSource : Utf8.IsText source) (hFits : ∀ fix ∈ more, fix.Fits source)
    (hOrder : (fix :: more).Pairwise fun a b => a.range.stop ≤ b.range.start) {result : Bytes} :
    fix.splice? (substituteFrom source 0 more) = some result ↔
      fix.Fits source ∧ result = substituteFrom source 0 (fix :: more) := by
  obtain ⟨hFirst, hMore⟩ := List.pairwise_cons.mp hOrder
  by_cases hForward : fix.range.start ≤ fix.range.stop
  · by_cases hLength : fix.range.stop ≤ source.length
    · have hSplit := substituteFrom_eq_append (Nat.zero_le _) hLength hFirst
      have hTake : (source.take fix.range.stop).length = fix.range.stop := List.length_take_of_le hLength
      have hInside : fix.range.stop ≤ (substituteFrom source 0 more).length := by
        rw [hSplit, List.drop_zero, List.length_append, hTake]
        exact Nat.le_add_right _ _
      have hStart := isBoundary_substituteFrom (k := fix.range.start) hSource hFits hMore
        (fun other hOther => Nat.le_trans hForward (hFirst other hOther)) (Nat.le_trans hForward hLength)
      have hStop := isBoundary_substituteFrom hSource hFits hMore hFirst hLength
      have hPieces : (substituteFrom source 0 more).take fix.range.start ++ Utf8.encode fix.text ++
          (substituteFrom source 0 more).drop fix.range.stop = substituteFrom source 0 (fix :: more) := by
        rw [hSplit, List.drop_zero, List.take_append_of_le_length (by omega), List.take_take,
          Nat.min_eq_left hForward, List.drop_left' hTake, substituteFrom, List.drop_zero]
      rw [splice?, hStart, hStop, hPieces]
      simp only [hForward, hInside, decide_true, Bool.true_and, Bool.and_eq_true, Option.ite_none_right_eq_some,
        Option.some.injEq]
      constructor
      · rintro ⟨⟨hStart, hStop⟩, rfl⟩
        exact ⟨⟨hForward, hLength, hStart, hStop⟩, rfl⟩
      · rintro ⟨hFix, rfl⟩
        exact ⟨⟨hFix.start_boundary, hFix.stop_boundary⟩, rfl⟩
    · -- no edit comes after one that ends past the text
      obtain rfl : more = [] := by
        refine List.eq_nil_iff_forall_not_mem.mpr fun other hOther => hLength ?_
        have hOtherFits := hFits other hOther
        exact Nat.le_trans (hFirst other hOther) (Nat.le_trans hOtherFits.start_le_stop hOtherFits.stop_le_length)
      have hNone : fix.splice? (substituteFrom source 0 []) = none := by
        simp [splice?, substituteFrom, hLength]
      exact iff_of_false (by simp [hNone]) fun h => hLength h.1.stop_le_length
  · have hNone : fix.splice? (substituteFrom source 0 more) = none := by simp [splice?, hForward]
    exact iff_of_false (by simp [hNone]) fun h => hForward h.1.start_le_stop

theorem foldr_splice?_eq_some_iff (hSource : Utf8.IsText source) (hSequence : inSequence fixes = true)
    {result : Bytes} :
    fixes.foldr (fun fix text => text.bind fix.splice?) (some source) = some result ↔
      (∀ fix ∈ fixes, fix.Fits source) ∧ result = substituteFrom source 0 fixes := by
  induction fixes generalizing result with
  | nil => simp [substituteFrom, eq_comm]
  | cons fix more ih =>
    have hMore : inSequence more = true := by
      cases more with
      | nil => rfl
      | cons next more => exact (Bool.and_eq_true_iff.mp hSequence).2
    have hOrder : (∀ other ∈ more, other.Fits source) →
        (fix :: more).Pairwise fun a b => a.range.stop ≤ b.range.start := fun hFits =>
      pairwise_of_inSequence (fun other hOther => (hFits other hOther).start_le_stop) hSequence
    rw [List.foldr_cons, Option.bind_eq_some_iff, List.forall_mem_cons]
    constructor
    · rintro ⟨text, hText, hResult⟩
      obtain ⟨hFits, rfl⟩ := (ih hMore).mp hText
      obtain ⟨hFix, hResult⟩ := (splice?_substituteFrom hSource hFits (hOrder hFits)).mp hResult
      exact ⟨⟨hFix, hFits⟩, hResult⟩
    · rintro ⟨⟨hFix, hFits⟩, hResult⟩
      exact ⟨_, (ih hMore).mpr ⟨hFits, rfl⟩,
        (splice?_substituteFrom hSource hFits (hOrder hFits)).mpr ⟨hFix, hResult⟩⟩

theorem applyAll_eq_some_iff (hSource : Utf8.IsText source) {result : Bytes} :
    applyAll fixes source = some result ↔
      (∀ fix ∈ fixes, fix.Fits source) ∧ fixes.Pairwise Apart ∧ result = substituteFrom source 0 (sort fixes) := by
  have hPerm := (arranges_sort fixes).perm
  have hMem : (∀ fix ∈ sort fixes, fix.Fits source) ↔ ∀ fix ∈ fixes, fix.Fits source := by
    simp only [hPerm.mem_iff]
  constructor
  · intro h
    rw [applyAll, Option.ite_none_right_eq_some] at h
    obtain ⟨hSequence, hResult⟩ := h
    obtain ⟨hFits, hResult⟩ := (foldr_splice?_eq_some_iff hSource hSequence).mp hResult
    have hOrder := pairwise_of_inSequence
      (fun fix hFix => (hFits fix (List.mem_of_mem_tail hFix)).start_le_stop) hSequence
    exact ⟨hMem.mp hFits, hPerm.pairwise (hOrder.imp .inl) fun hApart => hApart.symm, hResult⟩
  · rintro ⟨hFits, hApart, hResult⟩
    have hSequence := inSequence_sort (fun fix hFix => (hFits fix hFix).start_le_stop) hApart
    rw [applyAll, if_pos hSequence]
    exact (foldr_splice?_eq_some_iff hSource hSequence).mpr ⟨hMem.mpr hFits, hResult⟩

theorem applyAll_of_deletions (hSource : Utf8.IsText source) (hFits : ∀ fix ∈ fixes, fix.Fits source)
    (hApart : fixes.Pairwise Apart) (hByte : ∀ fix ∈ fixes, ∃ a, fix = delete a (a + 1)) :
    ∃ result, applyAll fixes source = some result ∧ result.length + fixes.length = source.length := by
  have hPerm := (arranges_sort fixes).perm
  have hSorted : ∀ fix ∈ sort fixes, fix.Fits source := fun fix hFix => hFits fix (hPerm.mem_iff.mp hFix)
  have hOrder := pairwise_of_inSequence (fun fix hFix => (hSorted fix (List.mem_of_mem_tail hFix)).start_le_stop)
    (inSequence_sort (fun fix hFix => (hFits fix hFix).start_le_stop) hApart)
  have hLength := length_substituteFrom hSorted hOrder (fun fix hFix => hByte fix (hPerm.mem_iff.mp hFix))
    (fun fix _ => Nat.zero_le _) (Nat.zero_le _)
  refine ⟨_, (applyAll_eq_some_iff hSource).mpr ⟨hFits, hApart, rfl⟩, ?_⟩
  rwa [Nat.zero_add, hPerm.length_eq] at hLength

theorem filter_range_eq {other : List Fix} (hFits : ∀ fix ∈ fixes, fix.Fits source) (hApart : fixes.Pairwise Apart)
    (hPerm : other.Perm fixes) {range : OffsetRange} (hRange : range ≠ .point range.start) :
    other.filter (·.range == range) = fixes.filter (·.range == range) := by
  have hFilter := hPerm.filter (·.range == range)
  have hApart := hApart.sublist (List.filter_sublist (p := (·.range == range)))
  have hSame : ∀ fix ∈ fixes.filter (·.range == range), fix ∈ fixes ∧ fix.range = range := fun fix hFix =>
    ⟨(List.mem_filter.mp hFix).1, eq_of_beq (List.mem_filter.mp hFix).2⟩
  generalize fixes.filter (·.range == range) = same at hFilter hApart hSame
  match same with
  | [] => exact hFilter.eq_nil
  | [fix] => exact List.perm_singleton.mp hFilter
  | a :: b :: rest =>
    obtain ⟨hMem, ha⟩ := hSame a List.mem_cons_self
    obtain ⟨-, hb⟩ := hSame b (List.mem_cons_of_mem _ List.mem_cons_self)
    have hab : Apart a b := (List.pairwise_cons.mp hApart).1 b List.mem_cons_self
    have hForward := (hFits a hMem).start_le_stop
    obtain ⟨start, stop⟩ := range
    refine absurd ?_ hRange
    simp only [Apart, ha, hb] at hab hForward
    simp only [OffsetRange.point, OffsetRange.mk.injEq, true_and]
    omega

theorem applyAll_eq_of_perm (hSource : Utf8.IsText source) {other : List Fix} (hPerm : other.Perm fixes)
    (hInsertions : ∀ offset, other.filter (·.range == .point offset) = fixes.filter (·.range == .point offset)) :
    applyAll other source = applyAll fixes source := by
  apply Option.ext
  intro result
  rw [applyAll_eq_some_iff hSource, applyAll_eq_some_iff hSource, hPerm.pairwise_iff fun hApart => hApart.symm]
  simp only [hPerm.mem_iff]
  refine and_congr_right fun hFits => and_congr_right fun hApart => ?_
  have hSort : sort other = sort fixes := by
    apply byRange.mergeSort_eq_mergeSort
    intro range
    by_cases hRange : range = .point range.start
    · rw [hRange]
      exact hInsertions range.start
    · exact filter_range_eq hFits hApart hPerm hRange
  rw [hSort]

/-- Edits are applied exactly if each fits the text and every two are apart. All ranges are then replaced at once, and the
order of the list decides nothing but the order of insertions at one place. -/
theorem applyAll_substitutes (source : String) (fixes : List Fix) :
    let text := Utf8.encode source
    (∃ order, Arranges fixes order) ∧
      (∀ order, Arranges fixes order → ∀ result, applyAll fixes text = some result ↔
        (∀ fix ∈ fixes, fix.Fits text) ∧ fixes.Pairwise Apart ∧ result = substituteFrom text 0 order) ∧
      ∀ other : List Fix, other.Perm fixes →
        (∀ offset, other.filter (·.range == .point offset) = fixes.filter (·.range == .point offset)) →
          applyAll other text = applyAll fixes text := by
  intro text
  have hText : Utf8.IsText text := Utf8.isText_encode source
  refine ⟨⟨_, arranges_sort fixes⟩, ?_, ?_⟩
  · intro order hOrder result
    rw [hOrder.eq_sort]
    exact applyAll_eq_some_iff hText
  · intro other hPerm hInsertions
    exact applyAll_eq_of_perm hText hPerm hInsertions

theorem applyAll_substitutes_touching :
    let fixes : List Fix := [insert 3 "x", ⟨⟨1, 3⟩, "e"⟩, insert 3 "y"]
    let order : List Fix := [⟨⟨1, 3⟩, "e"⟩, insert 3 "x", insert 3 "y"]
    Arranges fixes order ∧ applyAll fixes (Utf8.encode "aéb") = some (Utf8.encode "aexyb") ∧
      applyAll order (Utf8.encode "aéb") = some (Utf8.encode "aexyb") := by
  intro fixes order
  have hStable : ∀ range, order.filter (·.range == range) = fixes.filter (·.range == range) := by
    intro range
    by_cases hInsertion : OffsetRange.point 3 = range
    · subst hInsertion
      decide
    · simp [fixes, order, insert, List.filter_cons, hInsertion]
  have hOrder : Arranges fixes order := ⟨by decide, by decide, hStable⟩
  obtain ⟨-, hApply, hPerm⟩ := applyAll_substitutes "aéb" fixes
  have hFits : ∀ fix ∈ fixes, fix.Fits (Utf8.encode "aéb") := by
    simp only [fixes, List.forall_mem_cons, List.not_mem_nil]
    exact ⟨⟨by decide, by decide, by decide, by decide⟩, ⟨by decide, by decide, by decide, by decide⟩,
      ⟨by decide, by decide, by decide, by decide⟩, fun _ h => absurd h id⟩
  have hApart : fixes.Pairwise Apart := by simp [fixes, Apart, insert, OffsetRange.point]
  have hResult := (hApply order hOrder (Utf8.encode "aexyb")).mpr ⟨hFits, hApart, by decide⟩
  exact ⟨hOrder, hResult, (hPerm order hOrder.perm fun offset => hStable (.point offset)).trans hResult⟩

end ScriptLint.Fix
