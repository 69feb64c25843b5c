import ScriptLint.Document
import ScriptLint.Proofs.Location.LineIndex
import ScriptLint.Proofs.Text.Utf8

/-!
# The stored text and the scanned text

The scanned text is the stored one without the carriage return of each carriage return and line feed pair. Wherever the
scanned text is cut in two, the stored text can be cut at the same line and column, so that each part of the one is the
other's part without those carriage returns.
-/
namespace ScriptLint
set_option autoImplicit false

namespace Newline

theorem normalize_pair (s : Bytes) :
    normalize (Byte.carriageReturn :: Byte.lineFeed :: s) = Byte.lineFeed :: normalize s := by
  rw [normalize, if_pos ⟨rfl, rfl⟩]

theorem normalize_cons {b : UInt8} {s : Bytes} (h : ¬(b = Byte.carriageReturn ∧ s.head? = some Byte.lineFeed)) :
    normalize (b :: s) = b :: normalize s := by
  cases s with
  | nil => rfl
  | cons c s =>
    rw [normalize, if_neg]
    simpa using h

theorem length_normalize_le (s : Bytes) : (normalize s).length ≤ s.length := by
  fun_induction normalize s with
  | case1 => exact Nat.le_refl _
  | case2 a => exact Nat.le_refl _
  | case3 a b s hPair ih =>
    simp only [List.length_cons]
    omega
  | case4 a b s hPair ih =>
    simp only [List.length_cons] at ih ⊢
    omega

/-- A carriage return before a line feed moves no position beyond the line feed. -/
theorem after_normalize (p : Position) (s : Bytes) : p.after (normalize s) = p.after s := by
  fun_induction normalize s generalizing p with
  | case1 => rfl
  | case2 a => rfl
  | case3 a b s hPair ih =>
    have hStep : (p.step a).step b = p.step b := by
      rw [Position.step, Position.step, Position.step, hPair.1, hPair.2]
      rfl
    rw [Position.after, Position.after, Position.after, hStep, ih]
  | case4 a b s hPair ih => rw [Position.after, Position.after, ih]

theorem normalize_cons_take {a b : UInt8} {s : Bytes} (h : ¬(a = Byte.carriageReturn ∧ b = Byte.lineFeed)) (i : Nat) :
    normalize (a :: (b :: s).take i) = a :: normalize ((b :: s).take i) := by
  apply normalize_cons
  rintro ⟨ha, hHead⟩
  rw [List.head?_take] at hHead
  split at hHead
  · cases hHead
  · exact h ⟨ha, by simpa using hHead⟩

theorem exists_cut (s : Bytes) {o : Nat} (ho : o ≤ (normalize s).length) :
    ∃ i ≤ s.length, normalize (s.take i) = (normalize s).take o ∧ normalize (s.drop i) = (normalize s).drop o := by
  fun_induction normalize s generalizing o with
  | case1 => exact ⟨0, Nat.le_refl _, by simp [normalize], by simp [normalize]⟩
  | case2 a =>
    cases o with
    | zero => exact ⟨0, Nat.zero_le _, rfl, rfl⟩
    | succ o => exact ⟨1, Nat.le_refl _, by simp [normalize], by simp [normalize]⟩
  | case3 a b s hPair ih =>
    obtain ⟨rfl, rfl⟩ := hPair
    cases o with
    | zero => exact ⟨0, Nat.zero_le _, rfl, normalize_pair s⟩
    | succ o =>
      obtain ⟨i, hi, hTake, hDrop⟩ := ih (o := o) (by simpa using ho)
      refine ⟨i + 2, by simpa using hi, ?_, hDrop⟩
      rw [List.take_succ_cons, List.take_succ_cons, normalize_pair, hTake, List.take_succ_cons]
  | case4 a b s hPair ih =>
    cases o with
    | zero =>
      refine ⟨0, Nat.zero_le _, rfl, ?_⟩
      exact normalize_cons (by simpa using hPair)
    | succ o =>
      obtain ⟨i, hi, hTake, hDrop⟩ := ih (o := o) (by simpa using ho)
      refine ⟨i + 1, by simpa using hi, ?_, hDrop⟩
      rw [List.take_succ_cons, List.take_succ_cons, ← hTake]
      exact normalize_cons_take hPair i

/-- A byte of a text is one of the normalized text, or one of a pair that is a line feed there. -/
theorem exists_cut_at (s : Bytes) {o : Nat} (ho : o < s.length) :
    ∃ i t, normalize (s.take i) = (normalize s).take t ∧ normalize (s.drop i) = (normalize s).drop t ∧
      t < (normalize s).length ∧ (i = o ∧ (normalize s)[t]? = s[o]? ∧
          ¬(s[o]? = some Byte.carriageReturn ∧ s[o + 1]? = some Byte.lineFeed) ∨
        (i = o ∨ i + 1 = o) ∧ s[i]? = some Byte.carriageReturn ∧ s[i + 1]? = some Byte.lineFeed ∧
          (normalize s)[t]? = some Byte.lineFeed) := by
  fun_induction normalize s generalizing o with
  | case1 => cases ho
  | case2 a =>
    obtain rfl : o = 0 := by simpa using ho
    exact ⟨0, 0, rfl, rfl, Nat.succ_pos _, .inl ⟨rfl, rfl, by simp⟩⟩
  | case3 a b s hPair ih =>
    obtain ⟨rfl, rfl⟩ := hPair
    match o with
    | 0 => exact ⟨0, 0, rfl, normalize_pair s, Nat.succ_pos _, .inr ⟨.inl rfl, rfl, rfl, rfl⟩⟩
    | 1 => exact ⟨0, 0, rfl, normalize_pair s, Nat.succ_pos _, .inr ⟨.inr rfl, rfl, rfl, rfl⟩⟩
    | o + 2 =>
      obtain ⟨i, t, hTake, hDrop, ht, hByte⟩ := ih (o := o) (by simpa using ho)
      refine ⟨i + 2, t + 1, ?_, hDrop, Nat.succ_lt_succ ht, ?_⟩
      · rw [List.take_succ_cons, List.take_succ_cons, normalize_pair, hTake, List.take_succ_cons]
      · simpa [Nat.add_right_comm] using hByte
  | case4 a b s hPair ih =>
    match o with
    | 0 =>
      refine ⟨0, 0, rfl, normalize_cons (by simpa using hPair), Nat.succ_pos _, .inl ⟨rfl, rfl, ?_⟩⟩
      simpa using hPair
    | o + 1 =>
      obtain ⟨i, t, hTake, hDrop, ht, hByte⟩ := ih (o := o) (by simpa using ho)
      refine ⟨i + 1, t + 1, ?_, hDrop, Nat.succ_lt_succ ht, ?_⟩
      · rw [List.take_succ_cons, List.take_succ_cons, ← hTake]
        exact normalize_cons_take hPair i
      · simpa [Nat.add_right_comm] using hByte

theorem head?_of_head?_normalize {s : Bytes} {b : UInt8} (h : (normalize s).head? = some b)
    (hNe : b ≠ Byte.lineFeed) : s.head? = some b := by
  fun_cases normalize s with
  | case1 => exact h
  | case2 a => exact h
  | case3 a c s hPair =>
    rw [normalize, if_pos hPair, List.head?_cons, hPair.2, Option.some.injEq] at h
    exact absurd h.symm hNe
  | case4 a c s hPair =>
    rw [normalize, if_neg hPair] at h
    exact h

theorem normalize_append_of_notMem {s : Bytes} (h : Byte.carriageReturn ∉ s) (t : Bytes) :
    normalize (s ++ t) = s ++ normalize t := by
  induction s with
  | nil => rfl
  | cons b s ih =>
    have hb : b ≠ Byte.carriageReturn := fun hEq => h (hEq ▸ List.mem_cons_self)
    rw [List.cons_append, normalize_cons (fun hPair => hb hPair.1), ih (fun hMem => h (List.mem_cons_of_mem b hMem)),
      List.cons_append]

theorem isText_normalize {s : Bytes} (hs : Utf8.IsText s) : Utf8.IsText (normalize s) := by
  induction hs with
  | nil => exact .nil
  | @cons c lead tails rest h hRest ih =>
    by_cases hLead : lead = Byte.carriageReturn
    · subst hLead
      rw [h.ascii (by decide), List.nil_append]
      by_cases hHead : rest.head? = some Byte.lineFeed
      · obtain ⟨more, rfl⟩ := List.head?_eq_some_iff.mp hHead
        rwa [normalize_pair, ← normalize_cons (fun hPair => absurd hPair.1 (by decide))]
      · rw [normalize_cons (fun hPair => hHead hPair.2)]
        exact (Utf8.isText_singleton (by decide)).append ih
    · have hTails : Byte.carriageReturn ∉ tails := by
        intro hMem
        exact absurd (h.tails_tail _ hMem) (by decide)
      rw [normalize_cons (fun hPair => hLead hPair.1), normalize_append_of_notMem hTails]
      exact .cons h ih

theorem length_normalize_lt_of_detect_crlf {s : Bytes} (h : detect s = .crlf) : (normalize s).length < s.length := by
  fun_induction detect s with
  | case1 => cases h
  | case2 a => cases h
  | case3 => cases h
  | case4 s =>
    have hLe := length_normalize_le s
    simp only [normalize_pair, List.length_cons]
    omega
  | case5 => cases h
  | case6 a b s ha hb ih =>
    rw [normalize_cons (by simp [hb])]
    exact Nat.succ_lt_succ (ih h)

end Newline

namespace Document

theorem length_text_le (d : Document) : d.text.length ≤ d.raw.length := Newline.length_normalize_le d.raw

/-- A document whose offsets, lines and columns all fit 32 bits. -/
def IsSmall (d : Document) : Prop := d.raw.length < wordLimit

theorem IsSmall.text {d : Document} (h : d.IsSmall) : d.text.length < wordLimit :=
  Nat.lt_of_le_of_lt d.length_text_le h

theorem position_eq_place {d : Document} (hSmall : d.IsSmall) {o : Nat} (ho : o ≤ d.text.length) :
    d.position o = d.text.place o := by
  rw [position, lines, LineIndex.position_ofBytes (Bytes.fits_of_length_lt hSmall.text), Nat.min_eq_left ho]

theorem rawOffset?_eq_some_iff {d : Document} {p : Position} {i : Nat} :
    d.rawOffset? p = some i ↔ i ≤ d.raw.length ∧ d.raw.place i = p :=
  LineIndex.offset?_ofBytes_eq_some_iff

/-- An offset of the stored text at which the scanned text is cut too. -/
structure Cut (d : Document) (o i : Nat) : Prop where
  le_length : i ≤ d.raw.length
  take_eq : Newline.normalize (d.raw.take i) = d.text.take o
  drop_eq : Newline.normalize (d.raw.drop i) = d.text.drop o

theorem Cut.place_eq {d : Document} {o i : Nat} (h : d.Cut o i) : d.raw.place i = d.text.place o := by
  rw [Bytes.place, Bytes.place, ← h.take_eq, Newline.after_normalize]

theorem Cut.toRawOffset_eq {d : Document} (hSmall : d.IsSmall) {o i : Nat} (ho : o ≤ d.text.length) (h : d.Cut o i) :
    d.toRawOffset o = i := by
  obtain ⟨hLe, hStart⟩ := LineIndex.lineStart?_place h.le_length
  rw [h.place_eq] at hLe hStart
  rw [toRawOffset, position_eq_place hSmall ho, rawLines, hStart]
  exact Nat.sub_add_cancel hLe

theorem cut_toRawOffset {d : Document} (hSmall : d.IsSmall) {o : Nat} (ho : o ≤ d.text.length) :
    d.Cut o (d.toRawOffset o) := by
  obtain ⟨i, hi, hTake, hDrop⟩ := Newline.exists_cut d.raw ho
  have hCut : d.Cut o i := ⟨hi, hTake, hDrop⟩
  rw [hCut.toRawOffset_eq hSmall ho]
  exact hCut

theorem rawOffset?_place {d : Document} (hSmall : d.IsSmall) {o : Nat} (ho : o ≤ d.text.length) :
    d.rawOffset? (d.text.place o) = some (d.toRawOffset o) :=
  rawOffset?_eq_some_iff.mpr ⟨(cut_toRawOffset hSmall ho).le_length, (cut_toRawOffset hSmall ho).place_eq⟩

theorem toRawOffset_lt_iff {d : Document} (hSmall : d.IsSmall) {o o' : Nat} (ho : o ≤ d.text.length)
    (ho' : o' ≤ d.text.length) : d.toRawOffset o < d.toRawOffset o' ↔ o < o' := by
  have hCut := cut_toRawOffset hSmall ho
  have hCut' := cut_toRawOffset hSmall ho'
  rw [← Bytes.place_lt_place_iff hCut.le_length hCut'.le_length, hCut.place_eq, hCut'.place_eq,
    Bytes.place_lt_place_iff ho ho']

theorem toRawOffset_le_iff {d : Document} (hSmall : d.IsSmall) {o o' : Nat} (ho : o ≤ d.text.length)
    (ho' : o' ≤ d.text.length) : d.toRawOffset o ≤ d.toRawOffset o' ↔ o ≤ o' := by
  have h := toRawOffset_lt_iff hSmall ho' ho
  omega

theorem toRawOffset_add_column {d : Document} (hSmall : d.IsSmall) {o o' n c k : Nat} (ho : o ≤ d.text.length)
    (ho' : o' ≤ d.text.length) (h : d.text.place o = ⟨n, c⟩) (h' : d.text.place o' = ⟨n, c + k⟩) :
    d.toRawOffset o' = d.toRawOffset o + k := by
  have hCut := cut_toRawOffset hSmall ho
  obtain ⟨start, hStart⟩ : ∃ start, d.rawLines.lineStart? n = some start := by
    obtain ⟨-, hStart⟩ := LineIndex.lineStart?_place hCut.le_length
    rw [hCut.place_eq, h] at hStart
    exact ⟨_, hStart⟩
  simp only [toRawOffset, position_eq_place hSmall ho, position_eq_place hSmall ho', h, h', hStart]
  omega

/-- Between two offsets the stored text normalizes to the scanned text. -/
theorem normalize_raw_slice {d : Document} (hSmall : d.IsSmall) {o o' : Nat} (hLe : o ≤ o')
    (ho' : o' ≤ d.text.length) :
    Newline.normalize ((d.raw.take (d.toRawOffset o')).drop (d.toRawOffset o)) = (d.text.take o').drop o := by
  have hCut := cut_toRawOffset hSmall (Nat.le_trans hLe ho')
  have hCut' := cut_toRawOffset hSmall ho'
  have hInside : o ≤ (Newline.normalize (d.raw.take (d.toRawOffset o'))).length := by
    rw [hCut'.take_eq, List.length_take]
    omega
  obtain ⟨i, hi, hTake, hDrop⟩ := Newline.exists_cut (d.raw.take (d.toRawOffset o')) hInside
  have hLength : i ≤ d.toRawOffset o' := Nat.le_trans hi (List.length_take_le _ _)
  rw [hCut'.take_eq] at hTake hDrop
  rw [List.take_take, List.take_take, Nat.min_eq_left hLe, Nat.min_eq_left hLength] at hTake
  -- both cuts are at the same place of the stored text
  have hPlace : d.raw.place i = d.raw.place (d.toRawOffset o) := by
    rw [hCut.place_eq, Bytes.place, Bytes.place, ← Newline.after_normalize, hTake]
  have hEq := Bytes.place_injective (Nat.le_trans hLength hCut'.le_length) hCut.le_length hPlace
  rw [← hEq, hDrop]

theorem raw_getElem?_toRawOffset {d : Document} (hSmall : d.IsSmall) {o : Nat} {b : UInt8}
    (hb : d.text[o]? = some b) (hNe : b ≠ Byte.lineFeed) : d.raw[d.toRawOffset o]? = some b := by
  obtain ⟨ho, -⟩ := List.getElem?_eq_some_iff.mp hb
  have hDrop := (cut_toRawOffset hSmall (Nat.le_of_lt ho)).drop_eq
  have hHead : (Newline.normalize (d.raw.drop (d.toRawOffset o))).head? = some b := by
    rw [hDrop, List.head?_drop, hb]
  rw [← List.head?_drop]
  exact Newline.head?_of_head?_normalize hHead hNe

def isBreak (d : Document) (o : Nat) : Bool :=
  d.raw[o]? == some Byte.lineFeed || d.raw[o]? == some Byte.carriageReturn && d.raw[o + 1]? == some Byte.lineFeed

/-- A byte of the stored text stands for one of the scanned text, on the same line. -/
theorem exists_scanned {d : Document} (hSmall : d.IsSmall) {o : Nat} (ho : o < d.raw.length) :
    ∃ t < d.text.length, d.toRawOffset t ≤ o ∧ o < d.toRawOffset (t + 1) ∧
      (d.raw.place o).line = (d.text.place t).line ∧ (d.isBreak o = true ↔ d.text[t]? = some Byte.lineFeed) ∧
      (d.isBreak o = false → d.toRawOffset t = o) := by
  obtain ⟨i, t, hTake, hDrop, ht, hByte⟩ := Newline.exists_cut_at d.raw ho
  have hi : i ≤ o := by omega
  have hCut : d.Cut t i := ⟨Nat.le_trans hi (Nat.le_of_lt ho), hTake, hDrop⟩
  have hNext : d.Cut (t + 1) (d.toRawOffset (t + 1)) := cut_toRawOffset hSmall ht
  have hRaw := hCut.toRawOffset_eq hSmall (Nat.le_of_lt ht)
  have hStep : d.text.place (t + 1) = _ := Bytes.place_succ (List.getElem?_eq_getElem ht)
  refine ⟨t, ht, ?_⟩
  rw [hRaw]
  refine ⟨hi, ?_⟩
  rw [← Bytes.place_lt_place_iff (Nat.le_of_lt ho) hNext.le_length, hNext.place_eq]
  rcases hByte with ⟨rfl, hSame, hAlone⟩ | ⟨hPair, hReturn, hFeed, hText⟩
  · have hBreak : d.isBreak i = true ↔ d.text[t]? = some Byte.lineFeed := by
      rw [isBreak, Bool.or_eq_true, Bool.and_eq_true, beq_iff_eq, beq_iff_eq, beq_iff_eq, or_iff_left hAlone, ← hSame]
      rfl
    rw [hCut.place_eq]
    exact ⟨hStep ▸ Position.lt_step _ _, rfl, hBreak, fun _ => rfl⟩
  · -- both bytes of the pair are on the line that its line feed ends
    have hLine : (d.raw.place o).line = (d.text.place t).line := by
      rcases hPair with rfl | rfl
      · rw [hCut.place_eq]
      · rw [Bytes.place_succ hReturn, hCut.place_eq]
        rfl
    have hBreak : d.isBreak o = true := by
      rcases hPair with rfl | rfl <;> simp [isBreak, hReturn, hFeed]
    refine ⟨?_, hLine, iff_of_true hBreak hText, fun hFalse => absurd (hBreak.symm.trans hFalse) (by decide)⟩
    have hAfter : d.text.place (t + 1) = ⟨(d.text.place t).line + 1, 0⟩ := Bytes.place_succ hText
    rw [hAfter, Position.lt_iff]
    exact .inl (Nat.lt_succ_of_le (Nat.le_of_eq hLine))

theorem toRawOffset_le_of_scanned {d : Document} (hSmall : d.IsSmall) {o t u : Nat} (ht : t < d.text.length)
    (hLe : d.toRawOffset t ≤ o) (hLt : o < d.toRawOffset (t + 1)) (hu : u ≤ d.text.length) :
    d.toRawOffset u ≤ o ↔ u ≤ t := by
  constructor
  · intro h
    exact Nat.le_of_lt_succ ((toRawOffset_lt_iff hSmall hu ht).mp (Nat.lt_of_le_of_lt h hLt))
  · intro h
    exact Nat.le_trans ((toRawOffset_le_iff hSmall hu (Nat.le_of_lt ht)).mpr h) hLe

theorem eq_of_scanned {d : Document} (hSmall : d.IsSmall) {o t u : Nat} (ho : o < d.raw.length) (ht : t < d.text.length)
    (hLe : d.toRawOffset t ≤ o) (hLt : o < d.toRawOffset (t + 1)) (hu : u ≤ d.text.length)
    (hPlace : d.text.place u = d.raw.place o) : u = t := by
  have hCut := cut_toRawOffset hSmall hu
  obtain rfl : d.toRawOffset u = o :=
    Bytes.place_injective hCut.le_length (Nat.le_of_lt ho) (hCut.place_eq.trans hPlace)
  exact Nat.le_antisymm ((toRawOffset_le_of_scanned hSmall ht hLe hLt hu).mp (Nat.le_refl _))
    ((toRawOffset_le_iff hSmall (Nat.le_of_lt ht) hu).mp hLe)

theorem isBreak_toRawOffset {d : Document} (hSmall : d.IsSmall) {t : Nat} (ht : t < d.text.length) :
    d.isBreak (d.toRawOffset t) = true ↔ d.text[t]? = some Byte.lineFeed := by
  have hNext := (toRawOffset_lt_iff hSmall (Nat.le_of_lt ht) ht).mpr (Nat.lt_succ_self t)
  have hInside := Nat.lt_of_lt_of_le hNext (cut_toRawOffset hSmall ht).le_length
  obtain ⟨u, hu, huRaw, huNext, -, hBreak, -⟩ := exists_scanned hSmall hInside
  obtain rfl : t = u := eq_of_scanned hSmall hInside hu huRaw huNext (Nat.le_of_lt ht)
    (cut_toRawOffset hSmall (Nat.le_of_lt ht)).place_eq.symm
  exact hBreak

theorem isBoundary_toRawOffset {d : Document} (hSmall : d.IsSmall) {o : Nat}
    (h : Utf8.isBoundary d.text o = true) : Utf8.isBoundary d.raw (d.toRawOffset o) = true := by
  have ho := Utf8.isBoundary_le h
  have hCut := cut_toRawOffset hSmall ho
  rcases Nat.eq_zero_or_pos (d.toRawOffset o) with hZero | hPos
  · rw [hZero]
    rfl
  · rw [Utf8.isBoundary_iff hPos]
    refine ⟨hCut.le_length, ?_⟩
    intro b hb
    -- a byte inside a character is no carriage return, so it is the next byte of the scanned text too
    apply Bool.eq_false_iff.mpr
    intro hTail
    have hReturn : b ≠ Byte.carriageReturn := by
      rintro rfl
      exact absurd hTail (by decide)
    obtain ⟨rest, hRest⟩ := List.head?_eq_some_iff.mp ((List.head?_drop (l := d.raw)).trans hb)
    have hText : d.text[o]? = some b := by
      rw [← List.head?_drop, ← hCut.drop_eq, hRest, Newline.normalize_cons (fun hPair => hReturn hPair.1), List.head?_cons]
    have hStart : 0 < o := by
      apply Nat.pos_of_ne_zero
      rintro rfl
      exact Nat.ne_of_gt hPos (Bytes.place_injective hCut.le_length (Nat.zero_le _) hCut.place_eq)
    exact absurd hTail (by rw [((Utf8.isBoundary_iff hStart).mp h).2 b hText]; decide)

end Document
end ScriptLint
