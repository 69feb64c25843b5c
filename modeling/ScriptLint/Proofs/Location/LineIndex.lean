import ScriptLint.Location.LineIndex
import ScriptLint.Proofs.Text.Lines

/-!
# Line tables and positions

Reading a text byte by byte moves a position: a line feed goes to the start of the next line, every other byte one column
on. The line table of a text turns an offset into the position that reading reaches there, and back.
-/
namespace ScriptLint
set_option autoImplicit false

namespace Position

def step (p : Position) (b : UInt8) : Position :=
  if b = Byte.lineFeed then ⟨p.line + 1, 0⟩ else ⟨p.line, p.character + 1⟩

/-- The position that is reached when a text is read from `p` on. -/
def after (p : Position) : Bytes → Position
  | [] => p
  | b :: s => (p.step b).after s

theorem lt_trans {p q r : Position} (hpq : p.lt q = true) (hqr : q.lt r = true) : p.lt r = true := by
  rw [lt_iff] at *
  omega

theorem lt_step (p : Position) (b : UInt8) : p.lt (p.step b) = true := by
  rw [lt_iff, step]
  split <;> simp

@[simp] theorem after_nil (p : Position) : p.after [] = p := rfl

theorem after_append (p : Position) (s t : Bytes) : p.after (s ++ t) = (p.after s).after t := by
  induction s generalizing p with
  | nil => rfl
  | cons b s ih => exact ih (p.step b)

theorem lt_after (p : Position) {s : Bytes} (h : s ≠ []) : p.lt (p.after s) = true := by
  induction s generalizing p with
  | nil => exact absurd rfl h
  | cons b s ih =>
    by_cases hs : s = []
    · subst hs
      exact lt_step p b
    · exact lt_trans (lt_step p b) (ih (p.step b) hs)

theorem after_of_notMem (p : Position) {s : Bytes} (h : Byte.lineFeed ∉ s) :
    p.after s = ⟨p.line, p.character + s.length⟩ := by
  induction s generalizing p with
  | nil => rfl
  | cons b s ih =>
    have hb : b ≠ Byte.lineFeed := fun hEq => h (hEq ▸ List.mem_cons_self)
    rw [after, ih (p.step b) (fun hMem => h (List.mem_cons_of_mem b hMem)), step, if_neg hb]
    simp only [List.length_cons, Position.mk.injEq, true_and]
    omega

/-- Reading leads into the last line of what was read, where columns count from `p` only if there is no other line. -/
theorem after_eq (p : Position) (s : Bytes) :
    p.after s = ⟨p.line + (s.lines.length - 1),
      (if s.lines.length = 1 then p.character else 0) + s.lastLine.length⟩ := by
  induction s generalizing p with
  | nil => simp
  | cons b s ih =>
    obtain ⟨line, more, hLines⟩ := List.exists_cons_of_ne_nil (Bytes.lines_ne_nil s)
    rw [after, ih, step]
    by_cases hb : b = Byte.lineFeed
    · subst hb
      simp only [Bytes.lastLine, Bytes.lines_lineFeed_cons, hLines, if_true, List.length_cons, Position.mk.injEq]
      refine ⟨by omega, ?_⟩
      cases more <;> simp
    · simp only [Bytes.lastLine, Bytes.lines_cons_of_ne hb, Bytes.firstLine, hLines, if_neg hb]
      cases more with
      | nil => simp [Nat.add_comm, Nat.add_left_comm]
      | cons next more => simp

theorem after_line_le (p : Position) (s : Bytes) : (p.after s).line ≤ p.line + s.length := by
  induction s generalizing p with
  | nil => simp
  | cons b s ih =>
    have h := ih (p.step b)
    have hStep : (p.step b).line ≤ p.line + 1 := by
      rw [step]
      split <;> simp
    rw [after, List.length_cons]
    omega

theorem after_line_add_character_le (p : Position) (s : Bytes) :
    (p.after s).line + (p.after s).character ≤ p.line + p.character + s.length := by
  induction s generalizing p with
  | nil => simp
  | cons b s ih =>
    have h := ih (p.step b)
    have hStep : (p.step b).line + (p.step b).character ≤ p.line + p.character + 1 := by
      rw [step]
      split <;> simp only <;> omega
    rw [after, List.length_cons]
    omega

theorem after_of_sameBreaks {s t : Bytes} (h : Bytes.SameBreaks s t) (p : Position) : p.after s = p.after t := by
  induction s generalizing t p with
  | nil =>
    rw [List.eq_nil_of_length_eq_zero h.length_eq.symm]
  | cons a s ih =>
    cases t with
    | nil => cases h
    | cons b t =>
      obtain ⟨hHead, hTail⟩ := Bytes.SameBreaks.cons_iff.mp h
      rw [after, after, step, step, ih hTail]
      simp only [hHead]

end Position

namespace Bytes

def place (s : Bytes) (offset : Nat) : Position := Position.after ⟨0, 0⟩ (s.take offset)

@[simp] theorem place_zero (s : Bytes) : s.place 0 = ⟨0, 0⟩ := rfl

theorem place_add (s : Bytes) (i j : Nat) : s.place (i + j) = (s.place i).after ((s.drop i).take j) := by
  rw [place, List.take_add, Position.after_append, place]

theorem place_add_of_prefix {s word : Bytes} {o k : Nat} (h : word <+: s.drop o) (hBreak : Byte.lineFeed ∉ word)
    (hk : k ≤ word.length) : s.place (o + k) = ⟨(s.place o).line, (s.place o).character + k⟩ := by
  obtain ⟨rest, hRest⟩ := h
  have hTake : Byte.lineFeed ∉ word.take k := fun hMem => hBreak (List.mem_of_mem_take hMem)
  rw [place_add, ← hRest, List.take_append_of_le_length hk, Position.after_of_notMem _ hTake,
    List.length_take_of_le hk]

theorem place_succ {s : Bytes} {i : Nat} {b : UInt8} (hb : s[i]? = some b) : s.place (i + 1) = (s.place i).step b := by
  obtain ⟨rest, hRest⟩ := List.head?_eq_some_iff.mp ((List.head?_drop (l := s)).trans hb)
  rw [place_add, hRest]
  rfl

theorem place_lt_place {s : Bytes} {i j : Nat} (hij : i < j) (hj : j ≤ s.length) :
    (s.place i).lt (s.place j) = true := by
  obtain ⟨k, rfl⟩ := Nat.exists_eq_add_of_lt hij
  rw [Nat.add_assoc, place_add]
  apply Position.lt_after
  intro hNil
  have hLength := congrArg List.length hNil
  simp only [List.length_take, List.length_drop, List.length_nil] at hLength
  omega

theorem place_lt_place_iff {s : Bytes} {i j : Nat} (hi : i ≤ s.length) (hj : j ≤ s.length) :
    (s.place i).lt (s.place j) = true ↔ i < j := by
  refine ⟨fun h => ?_, fun h => place_lt_place h hj⟩
  rcases Nat.lt_trichotomy i j with hij | rfl | hji
  · exact hij
  · rw [Position.lt_iff] at h
    omega
  · have h' := place_lt_place hji hi
    rw [Position.lt_iff] at h h'
    omega

theorem place_le_place {s : Bytes} {i j : Nat} (hij : i ≤ j) (hj : j ≤ s.length) :
    (s.place i).le (s.place j) = true := by
  rw [Position.le, Bool.not_eq_true', ← Bool.not_eq_true, place_lt_place_iff hj (Nat.le_trans hij hj)]
  exact Nat.not_lt_of_le hij

theorem place_injective {s : Bytes} {i j : Nat} (hi : i ≤ s.length) (hj : j ≤ s.length)
    (h : s.place i = s.place j) : i = j := by
  rcases Nat.lt_trichotomy i j with hij | hij | hji
  · have hLt := place_lt_place hij hj
    rw [h, Position.lt_iff] at hLt
    omega
  · exact hij
  · have hLt := place_lt_place hji hi
    rw [h, Position.lt_iff] at hLt
    omega

theorem exists_lineFeed {s : Bytes} {i j : Nat} (hij : i ≤ j) (hj : j ≤ s.length)
    (hLine : (s.place i).line < (s.place j).line) : ∃ v, i ≤ v ∧ v < j ∧ s[v]? = some Byte.lineFeed := by
  induction hij with
  | refl => exact absurd hLine (Nat.lt_irrefl _)
  | @step k hik ih =>
    have hByte := List.getElem?_eq_getElem hj
    by_cases hFeed : s[k] = Byte.lineFeed
    · exact ⟨k, hik, Nat.lt_succ_self k, hFeed ▸ hByte⟩
    · rw [place_succ hByte, Position.step, if_neg hFeed] at hLine
      obtain ⟨v, hiv, hvk, hv⟩ := ih (Nat.le_of_lt hj) hLine
      exact ⟨v, hiv, Nat.lt_succ_of_lt hvk, hv⟩

theorem place_line_le (s : Bytes) (i : Nat) : (s.place i).line ≤ s.length := by
  have h := Position.after_line_le ⟨0, 0⟩ (s.take i)
  simp only [Nat.zero_add] at h
  exact Nat.le_trans h (List.length_take_le' i s)

/-- Every line before a position takes a byte, and so does every column. -/
theorem place_line_add_character_le (s : Bytes) (i : Nat) : (s.place i).line + (s.place i).character ≤ s.length := by
  have h := Position.after_line_add_character_le ⟨0, 0⟩ (s.take i)
  simp only [Nat.zero_add] at h
  exact Nat.le_trans h (List.length_take_le' i s)

theorem place_character_le (s : Bytes) (i : Nat) : (s.place i).character ≤ s.length :=
  Nat.le_trans (Nat.le_add_left _ _) (place_line_add_character_le s i)

theorem place_eq (s : Bytes) (i : Nat) :
    s.place i = ⟨(lines (s.take i)).length - 1, (lastLine (s.take i)).length⟩ := by
  rw [place, Position.after_eq]
  split <;> simp

theorem after_take (p : Position) (s : Bytes) (i : Nat) :
    p.after (s.take i) = ⟨p.line + (s.place i).line,
      (if (s.place i).line = 0 then p.character else 0) + (s.place i).character⟩ := by
  have hPos : 0 < (lines (s.take i)).length := List.length_pos_iff.mpr (lines_ne_nil _)
  rw [Position.after_eq, place_eq]
  simp only [show (lines (s.take i)).length = 1 ↔ (lines (s.take i)).length - 1 = 0 by omega]

theorem lines_getElem?_place (s : Bytes) (i : Nat) :
    (lines s)[(s.place i).line]? = some (lastLine (s.take i) ++ firstLine (s.drop i)) := by
  have hSplit := lines_append (s.take i) (s.drop i)
  rw [List.take_append_drop] at hSplit
  rw [hSplit, place_eq, List.getElem?_append_right (by simp)]
  simp

/-- Where a line stands in a text: reading goes from any position to the start of the line, and the line goes on to a
line feed or to the end. -/
theorem exists_line_split {s line : Bytes} {k : Nat} (h : (lines s)[k]? = some line) :
    ∃ before rest, s = before ++ (line ++ rest) ∧
      (∀ p : Position, p.after before = ⟨p.line + k, if k = 0 then p.character else 0⟩) ∧
      (rest = [] ∧ k + 1 = (lines s).length ∨ rest.head? = some Byte.lineFeed ∧ k + 1 < (lines s).length) := by
  induction k generalizing s with
  | zero =>
    rw [lines_eq_firstLine_cons, List.getElem?_cons_zero, Option.some.injEq] at h
    subst h
    rcases firstLine_split s with ⟨hFirst, hLines⟩ | ⟨rest, hSplit, hLines⟩
    · exact ⟨[], [], by rw [List.append_nil, hFirst]; rfl, fun p => rfl, .inl ⟨rfl, by rw [hLines]; rfl⟩⟩
    · refine ⟨[], Byte.lineFeed :: rest, hSplit, fun p => rfl, .inr ⟨rfl, ?_⟩⟩
      rw [hLines, List.length_cons]
      exact Nat.succ_lt_succ (List.length_pos_iff.mpr (lines_ne_nil rest))
  | succ k ih =>
    rcases firstLine_split s with ⟨hFirst, hLines⟩ | ⟨rest, hSplit, hLines⟩
    · rw [hLines] at h
      cases h
    · rw [hLines, List.getElem?_cons_succ] at h
      obtain ⟨before, more, hRest, hAfter, hEnd⟩ := ih h
      refine ⟨firstLine s ++ Byte.lineFeed :: before, more, ?_, ?_, ?_⟩
      · rw [List.append_assoc, List.cons_append, ← hRest, ← hSplit]
      · intro p
        have hNotMem : Byte.lineFeed ∉ firstLine s :=
          lineFeed_notMem_of_mem_lines (lines_eq_firstLine_cons s ▸ List.mem_cons_self)
        rw [Position.after_append, Position.after_of_notMem p hNotMem, Position.after, Position.step, if_pos rfl, hAfter]
        simp only [ite_self, if_neg (Nat.succ_ne_zero k), Position.mk.injEq, and_true]
        omega
      · rw [hLines, List.length_cons]
        rcases hEnd with ⟨hNil, hLast⟩ | ⟨hHead, hMore⟩
        · exact .inl ⟨hNil, by omega⟩
        · exact .inr ⟨hHead, by omega⟩

theorem exists_place_eq {s line : Bytes} {k x : Nat} (hLine : (lines s)[k]? = some line) (hx : x ≤ line.length) :
    ∃ i ≤ s.length, s.place i = ⟨k, x⟩ := by
  obtain ⟨before, rest, rfl, hAfter, -⟩ := exists_line_split hLine
  have hBreak : Byte.lineFeed ∉ line.take x := fun hMem =>
    lineFeed_notMem_of_mem_lines (List.mem_of_getElem? hLine) (List.mem_of_mem_take hMem)
  refine ⟨before.length + x, by simp only [List.length_append]; omega, ?_⟩
  rw [place_add, place, List.take_left, hAfter, List.drop_left, List.take_append_of_le_length hx,
    Position.after_of_notMem _ hBreak, List.length_take_of_le hx]
  simp

theorem line_cut_of_place {s line : Bytes} {i k x : Nat} (hLine : (lines s)[k]? = some line)
    (hPlace : s.place i = ⟨k, x⟩) :
    x ≤ line.length ∧ lastLine (s.take i) = line.take x ∧ firstLine (s.drop i) = line.drop x := by
  have hCut := lines_getElem?_place s i
  have hColumn := place_eq s i
  rw [hPlace] at hCut hColumn
  rw [hLine, Option.some.injEq] at hCut
  have hx : x = (lastLine (s.take i)).length := (Position.mk.inj hColumn).2
  rw [hCut, hx, List.take_left, List.drop_left, List.length_append]
  exact ⟨Nat.le_add_right _ _, rfl, rfl⟩

theorem getElem?_eq_some_iff_of_place {s row : Bytes} {i k x : Nat} {b : UInt8} (hLine : (lines s)[k]? = some row)
    (hPlace : s.place i = ⟨k, x⟩) (hb : b ≠ Byte.lineFeed) : s[i]? = some b ↔ row[x]? = some b := by
  obtain ⟨-, -, hRest⟩ := line_cut_of_place hLine hPlace
  rw [← List.head?_drop, ← List.head?_drop, ← hRest]
  cases s.drop i with
  | nil => rfl
  | cons c rest =>
    by_cases hc : c = Byte.lineFeed
    · subst hc
      rw [firstLine_lineFeed_cons, List.head?_cons, Option.some.injEq]
      exact iff_of_false hb.symm nofun
    · rw [firstLine_cons_of_ne hc, List.head?_cons, List.head?_cons]

theorem lines_take {s : Bytes} {j l y : Nat} (hPlace : s.place j = ⟨l, y⟩) :
    lines (s.take j) = (lines s).take l ++ [((lines s)[l]?.getD []).take y] := by
  have hLine := lines_getElem?_place s j
  rw [hPlace] at hLine
  obtain ⟨-, hLast, -⟩ := line_cut_of_place hLine hPlace
  have hSplit := lines_append (s.take j) (s.drop j)
  have hCount := congrArg Position.line (place_eq s j)
  rw [List.take_append_drop] at hSplit
  rw [hPlace] at hCount
  have hTake : (lines s).take l = (lines (s.take j)).dropLast := by
    rw [hSplit]
    exact List.take_left' (by rw [List.length_dropLast]; exact hCount.symm)
  rw [hTake, hLine, Option.getD_some, ← hLast]
  exact lines_eq_append_lastLine (s.take j)

theorem lines_drop {s : Bytes} {i k x : Nat} (hPlace : s.place i = ⟨k, x⟩) :
    lines (s.drop i) = ((lines s)[k]?.getD []).drop x :: (lines s).drop (k + 1) := by
  have hLine := lines_getElem?_place s i
  rw [hPlace] at hLine
  obtain ⟨-, -, hFirst⟩ := line_cut_of_place hLine hPlace
  have hSplit := lines_append (s.take i) (s.drop i)
  have hCount := congrArg Position.line (place_eq s i)
  rw [List.take_append_drop] at hSplit
  rw [hPlace] at hCount
  have hDrop : (lines s).drop (k + 1) = (lines (s.drop i)).tail := by
    rw [hSplit, ← List.drop_drop, List.drop_left' (by rw [List.length_dropLast]; exact hCount.symm)]
    rfl
  rw [hDrop, hLine, Option.getD_some, ← hFirst]
  exact lines_eq_firstLine_cons (s.drop i)

/-- The part of line `n` between two positions. -/
def piece (line : Nat → Bytes) (p q : Position) (n : Nat) : Bytes :=
  (if n = q.line then (line n).take q.character else line n).drop (if n = p.line then p.character else 0)

/-- The lines between two offsets are those of the text, cut at both ends. -/
theorem lines_slice {s : Bytes} {i j : Nat} (hij : i ≤ j) :
    lines ((s.take j).drop i) = (List.range' (s.place i).line ((s.place j).line + 1 - (s.place i).line)).map
      (piece (fun n => (lines s)[n]?.getD []) (s.place i) (s.place j)) := by
  have hStart : place (s.take j) i = s.place i := by rw [place, List.take_take, Nat.min_eq_left hij, place]
  obtain ⟨k, x, hk⟩ : ∃ k x, s.place i = ⟨k, x⟩ := ⟨_, _, rfl⟩
  obtain ⟨l, y, hl⟩ : ∃ l y, s.place j = ⟨l, y⟩ := ⟨_, _, rfl⟩
  have hInside : l < (lines s).length := by
    have hLine := lines_getElem?_place s j
    rw [hl] at hLine
    exact (List.getElem?_eq_some_iff.mp hLine).1
  have hGet : ∀ n ≤ l, (lines (s.take j))[n]? =
      some (if n = l then ((lines s)[n]?.getD []).take y else (lines s)[n]?.getD []) := by
    intro n hn
    rw [lines_take hl]
    split
    · rename_i hEq
      subst hEq
      rw [List.getElem?_append_right (by rw [List.length_take]; omega), List.length_take_of_le (Nat.le_of_lt hInside),
        Nat.sub_self]
      rfl
    · have hLt : n < l := by omega
      rw [List.getElem?_append_left (by rw [List.length_take]; omega), List.getElem?_take_of_lt hLt,
        List.getElem?_eq_getElem (by omega), Option.getD_some]
  have hLength : (lines (s.take j)).length = l + 1 := by
    rw [lines_take hl, List.length_append, List.length_take_of_le (Nat.le_of_lt hInside)]
    rfl
  have hkl : k ≤ l := by
    have hLine := lines_getElem?_place (s.take j) i
    rw [hStart, hk] at hLine
    have hLt : k < (lines (s.take j)).length := (List.getElem?_eq_some_iff.mp hLine).1
    omega
  rw [hk, hl, lines_drop (hStart.trans hk), hGet k hkl, Option.getD_some, Nat.succ_sub hkl, List.range'_succ,
    List.map_cons]
  refine congr (congrArg List.cons ?_) ?_
  · simp [piece]
  · apply List.ext_getElem?
    intro m
    rw [List.getElem?_drop, List.getElem?_map]
    by_cases hm : k + 1 + m ≤ l
    · have hNe : k + 1 + m ≠ k := by omega
      rw [hGet _ hm, List.getElem?_range' (by omega), Option.map_some]
      simp [piece, hNe]
    · rw [List.getElem?_eq_none (by omega), List.getElem?_eq_none (by rw [List.length_range']; omega)]
      rfl

/-- No line or column of the text is cut to 32 bits. -/
def Fits (s : Bytes) : Prop := ∀ o, (s.place o).line < wordLimit ∧ (s.place o).character < wordLimit

theorem fits_of_length_lt {s : Bytes} (h : s.length < wordLimit) : s.Fits := fun o =>
  ⟨Nat.lt_of_le_of_lt (place_line_le s o) h, Nat.lt_of_le_of_lt (place_character_le s o) h⟩

end Bytes

namespace LineIndex

def lineEndAt (starts : List Nat) (length n : Nat) : Nat :=
  match starts[n + 1]? with
  | some next => next - 1
  | none => length

theorem lt_of_mem_startsAfter {k n : Nat} {s : Bytes} (h : n ∈ startsAfter k s) : k < n := by
  induction s generalizing k with
  | nil => cases h
  | cons b s ih =>
    rw [startsAfter] at h
    split at h
    · rcases List.mem_cons.mp h with rfl | h
      · exact Nat.lt_succ_self k
      · exact Nat.lt_of_succ_lt (ih h)
    · exact Nat.lt_of_succ_lt (ih h)

/-- An offset of the text read from `p` on lies in the line at whose place it is, and in no later one. Lines start at
`first` and wherever the table says, and the text at `k`. -/
theorem startsAfter_at {s : Bytes} {o k : Nat} {p : Position} (first : Nat) (ho : o ≤ s.length)
    (hFirst : first + p.character = k) :
    ∃ start n, p.after (s.take o) = ⟨p.line + n, k + o - start⟩ ∧ start ≤ k + o ∧
      (first :: startsAfter k s)[n]? = some start ∧ ((startsAfter k s).takeWhile (· ≤ k + o)).length = n ∧
      k + o ≤ lineEndAt (first :: startsAfter k s) (k + s.length) n := by
  cases o with
  | zero =>
    refine ⟨first, 0, ?_, by omega, rfl, ?_, ?_⟩
    · rw [List.take_zero, Position.after_nil]
      cases p
      simp only [Position.mk.injEq] at hFirst ⊢
      omega
    · cases hStarts : startsAfter k s with
      | nil => rfl
      | cons next more =>
        have hLt : k < next := lt_of_mem_startsAfter (hStarts ▸ List.mem_cons_self)
        rw [List.takeWhile_cons_of_neg (by simp only [decide_eq_true_eq]; omega), List.length_nil]
    · rw [lineEndAt]
      split
      · rename_i next hNext
        have hLt := lt_of_mem_startsAfter (List.mem_of_getElem? hNext)
        omega
      · omega
  | succ o =>
    cases s with
    | nil => simp at ho
    | cons b s =>
      simp only [List.length_cons, Nat.add_le_add_iff_right] at ho
      by_cases hb : b = Byte.lineFeed
      · obtain ⟨start, n, hAfter, hStart, hGet, hLength, hEnd⟩ :=
          startsAfter_at (k := k + 1) (p := ⟨p.line + 1, 0⟩) (k + 1) ho rfl
        have hShift : k + 1 + o = k + (o + 1) := by omega
        have hTotal : k + 1 + s.length = k + (b :: s).length := by simp only [List.length_cons]; omega
        rw [hShift] at hAfter hStart hLength hEnd
        rw [hTotal] at hEnd
        refine ⟨start, n + 1, ?_, hStart, ?_, ?_, ?_⟩
        · rw [List.take_succ_cons, Position.after, Position.step, if_pos hb, hAfter]
          simp only [Position.mk.injEq, and_true]
          omega
        · rw [startsAfter, if_pos hb]
          exact hGet
        · rw [startsAfter, if_pos hb, List.takeWhile_cons_of_pos (by simp), List.length_cons, hLength]
        · rw [startsAfter, if_pos hb]
          exact hEnd
      · obtain ⟨start, n, hAfter, hStart, hGet, hLength, hEnd⟩ :=
          startsAfter_at (k := k + 1) (p := ⟨p.line, p.character + 1⟩) first ho
            (by simp only [← hFirst]; omega)
        have hShift : k + 1 + o = k + (o + 1) := by omega
        have hTotal : k + 1 + s.length = k + (b :: s).length := by simp only [List.length_cons]; omega
        rw [hShift] at hAfter hStart hLength hEnd
        rw [hTotal] at hEnd
        rw [startsAfter, if_neg hb]
        refine ⟨start, n, ?_, hStart, hGet, hLength, hEnd⟩
        rw [List.take_succ_cons, Position.after, Position.step, if_neg hb, hAfter]

theorem exists_after_of_le_lineEndAt {s : Bytes} {k n start x : Nat} {p : Position} {first : Nat}
    (hFirst : first + p.character = k) (hStart : (first :: startsAfter k s)[n]? = some start)
    (hx : n = 0 → p.character ≤ x)
    (hEnd : start + x ≤ lineEndAt (first :: startsAfter k s) (k + s.length) n) :
    ∃ o ≤ s.length, k + o = start + x ∧ p.after (s.take o) = ⟨p.line + n, x⟩ := by
  induction s generalizing k first n p with
  | nil =>
    cases n with
    | zero =>
      simp only [startsAfter, lineEndAt, List.getElem?_cons_zero, Option.some.injEq, List.getElem?_cons_succ,
        List.getElem?_nil, List.length_nil] at hStart hEnd
      have hEq : x = p.character := by have := hx rfl; omega
      exact ⟨0, Nat.le_refl _, by omega, by rw [hEq]; rfl⟩
    | succ n => simp [startsAfter] at hStart
  | cons b s ih =>
    have hTotal : k + (b :: s).length = k + 1 + s.length := by simp only [List.length_cons]; omega
    rw [hTotal] at hEnd
    by_cases hHere : n = 0 ∧ x = p.character
    · obtain ⟨rfl, rfl⟩ := hHere
      simp only [List.getElem?_cons_zero, Option.some.injEq] at hStart
      exact ⟨0, Nat.zero_le _, by omega, rfl⟩
    · by_cases hb : b = Byte.lineFeed
      · rw [startsAfter, if_pos hb] at hStart hEnd
        cases n with
        | zero =>
          -- the line ends before the line feed, where reading stands
          simp only [lineEndAt, List.getElem?_cons_zero, Option.some.injEq, List.getElem?_cons_succ] at hStart hEnd
          have := hx rfl
          exact absurd ⟨rfl, by omega⟩ hHere
        | succ n =>
          obtain ⟨o, ho, hSum, hAfter⟩ := ih (k := k + 1) (p := ⟨p.line + 1, 0⟩) rfl hStart (fun _ => Nat.zero_le x) hEnd
          refine ⟨o + 1, by simp only [List.length_cons]; omega, by omega, ?_⟩
          rw [List.take_succ_cons, Position.after, Position.step, if_pos hb, hAfter]
          simp only [Position.mk.injEq, and_true]
          omega
      · rw [startsAfter, if_neg hb] at hStart hEnd
        have hNext : n = 0 → p.character + 1 ≤ x := fun hn => by have := hx hn; omega
        obtain ⟨o, ho, hSum, hAfter⟩ :=
          ih (p := ⟨p.line, p.character + 1⟩) (by simp only [← hFirst]; omega) hStart hNext hEnd
        refine ⟨o + 1, by simp only [List.length_cons]; omega, by omega, ?_⟩
        rw [List.take_succ_cons, Position.after, Position.step, if_neg hb, hAfter]

theorem lineColumn_ofBytes {s : Bytes} {o : Nat} (ho : o ≤ s.length) :
    (ofBytes s).lineColumn o = ((s.place o).line, (s.place o).character) := by
  obtain ⟨start, n, hAfter, hStart, hGet, hLength, -⟩ :=
    startsAfter_at (k := 0) (p := ⟨0, 0⟩) 0 ho rfl
  simp only [Nat.zero_add] at hAfter hLength
  have hLine : ((ofBytes s).starts.takeWhile (· ≤ o)).length - 1 = n := by
    rw [ofBytes, List.takeWhile_cons_of_pos (by simp), List.length_cons, hLength, Nat.add_sub_cancel]
  rw [Bytes.place, hAfter, lineColumn, length_ofBytes, Nat.min_eq_left ho, hLine]
  simp only [lineStart?, ofBytes, hGet, Option.getD_some]

theorem lineColumn_min (s : Bytes) (o : Nat) :
    (ofBytes s).lineColumn o = (ofBytes s).lineColumn (min o s.length) := by
  rw [lineColumn, lineColumn, length_ofBytes, Nat.min_assoc, Nat.min_self]

theorem position_ofBytes {s : Bytes} (hFits : s.Fits) (o : Nat) :
    (ofBytes s).position o = s.place (min o s.length) := by
  obtain ⟨hLine, hCharacter⟩ := hFits (min o s.length)
  rw [position, lineColumn_min, lineColumn_ofBytes (Nat.min_le_right _ _)]
  simp only [wrapWord_of_lt hLine, wrapWord_of_lt hCharacter]

theorem lineStart?_place {s : Bytes} {o : Nat} (ho : o ≤ s.length) :
    (s.place o).character ≤ o ∧ (ofBytes s).lineStart? (s.place o).line = some (o - (s.place o).character) := by
  obtain ⟨start, n, hAfter, hStart, hGet, -, -⟩ :=
    startsAfter_at (k := 0) (p := ⟨0, 0⟩) 0 ho rfl
  simp only [Nat.zero_add] at hAfter hStart
  rw [Bytes.place, hAfter]
  refine ⟨Nat.sub_le _ _, ?_⟩
  rw [Nat.sub_sub_self hStart]
  exact hGet

theorem lineEnd?_of_lineStart? {ix : LineIndex} {n start : Nat} (h : ix.lineStart? n = some start) :
    ix.lineEnd? n = some (lineEndAt ix.starts ix.length n) := by
  obtain ⟨hLine, -⟩ := List.getElem?_eq_some_iff.mp h
  rw [lineEnd?, lineEndAt, lineStart?, lineCount, if_pos hLine]
  cases ix.starts[n + 1]? <;> rfl

/-- The table turns a position into an offset exactly if the offset has that position. -/
theorem offset?_ofBytes_eq_some_iff {s : Bytes} {p : Position} {o : Nat} :
    (ofBytes s).offset? p = some o ↔ o ≤ s.length ∧ s.place o = p := by
  constructor
  · intro h
    rw [offset?] at h
    split at h
    · rename_i start stop hStart hStop
      rw [lineEnd?_of_lineStart? hStart, Option.some.injEq] at hStop
      split at h
      · rename_i hLe
        cases h
        rw [← hStop] at hLe
        obtain ⟨o, ho, hSum, hAfter⟩ := exists_after_of_le_lineEndAt (s := s) (k := 0) (p := ⟨0, 0⟩) (Nat.zero_add 0)
          hStart (fun _ => Nat.zero_le _) (by rw [Nat.zero_add]; exact hLe)
        rw [Nat.zero_add] at hSum
        rw [← hSum]
        refine ⟨ho, ?_⟩
        rw [Bytes.place, hAfter, Nat.zero_add]
      · cases h
    · cases h
  · rintro ⟨ho, rfl⟩
    obtain ⟨start, n, hAfter, hStart, hGet, -, hEnd⟩ :=
      startsAfter_at (k := 0) (p := ⟨0, 0⟩) 0 ho rfl
    simp only [Nat.zero_add] at hAfter hStart hEnd
    have hLine : (ofBytes s).lineStart? n = some start := hGet
    rw [Bytes.place, hAfter, offset?, lineEnd?_of_lineStart? hLine, hLine]
    simp only [Nat.add_sub_cancel' hStart]
    exact if_pos hEnd

end LineIndex
end ScriptLint
