import ScriptLint.Lint.Analyzers
import ScriptLint.Proofs.Location.LineIndex

/-!
# What the text scans find

A scan goes through a text line by line and through each line from left to right. So what it finds is where it says, and
in the order of the text.
-/
namespace ScriptLint.Analyzers
set_option autoImplicit false

theorem dropReturn_isPrefix (line : Bytes) : dropReturn line <+: line := by
  rw [dropReturn]
  split
  · exact List.dropLast_prefix line
  · exact List.prefix_rfl

theorem dropReturn_append (line : Bytes) : dropReturn (line ++ [Byte.carriageReturn]) = line := by
  rw [dropReturn, List.getLast?_concat, if_pos rfl, List.dropLast_concat]

theorem prefix_of_mem_occurrences {needle s : Bytes} {offset c : Nat} (h : c ∈ occurrences needle offset s) :
    offset ≤ c ∧ needle <+: s.drop (c - offset) := by
  fun_induction occurrences needle offset s with
  | case1 => cases h
  | case2 offset b rest hPrefix ih =>
    rcases List.mem_cons.mp h with rfl | hLater
    · rw [Nat.sub_self, List.drop_zero]
      exact ⟨Nat.le_refl _, List.isPrefixOf_iff_prefix.mp hPrefix⟩
    · obtain ⟨hLe, hNeedle⟩ := ih hLater
      refine ⟨by omega, ?_⟩
      rw [List.drop_drop] at hNeedle
      rw [show c - offset = needle.length - 1 + (c - (offset + 1 + (needle.length - 1))) + 1 by omega,
        List.drop_succ_cons]
      exact hNeedle
  | case3 offset b rest _ ih =>
    obtain ⟨hLe, hNeedle⟩ := ih h
    refine ⟨by omega, ?_⟩
    rw [show c - offset = c - (offset + 1) + 1 by omega, List.drop_succ_cons]
    exact hNeedle

theorem pairwise_occurrences (needle : Bytes) (offset : Nat) (s : Bytes) :
    (occurrences needle offset s).Pairwise (· < ·) := by
  fun_induction occurrences needle offset s with
  | case1 => exact .nil
  | case2 offset b rest _ ih =>
    refine List.pairwise_cons.mpr ⟨?_, ih⟩
    intro c hc
    have hLe := (prefix_of_mem_occurrences hc).1
    omega
  | case3 offset b rest _ ih => exact ih

theorem prefix_of_markupColumn? {s : Bytes} {column c : Nat} (h : markupColumn? column s = some c) :
    column ≤ c ∧ ∃ next, next ≠ Byte.space ∧ [Byte.less, next] <+: s.drop (c - column) := by
  fun_induction markupColumn? column s with
  | case1 => cases h
  | case2 => cases h
  | case3 column b next rest hMarkup =>
    cases h
    obtain ⟨rfl, hNext⟩ := hMarkup
    refine ⟨Nat.le_refl _, next, ?_, by simp⟩
    rintro rfl
    exact absurd hNext (by decide)
  | case4 column b next rest _ ih =>
    obtain ⟨hLe, other, hOther, hPrefix⟩ := ih h
    refine ⟨by omega, other, hOther, ?_⟩
    rw [show c - column = c - (column + 1) + 1 by omega, List.drop_succ_cons]
    exact hPrefix

/-- A line of a text, without the carriage return at its end. -/
structure Line.IsOf (source : Bytes) (line : Line) : Prop where
  start_le : line.start ≤ source.length
  place : source.place line.start = ⟨line.index, 0⟩
  bytes : ∃ whole, (Bytes.lines source)[line.index]? = some whole ∧ line.bytes = dropReturn whole

namespace Line.IsOf

variable {source : Bytes} {line : Line}

theorem lineFeed_notMem (h : line.IsOf source) : Byte.lineFeed ∉ line.bytes := by
  obtain ⟨whole, hWhole, hBytes⟩ := h.bytes
  rw [hBytes]
  exact fun hMem =>
    Bytes.lineFeed_notMem_of_mem_lines (List.mem_of_getElem? hWhole) ((dropReturn_isPrefix whole).subset hMem)

theorem prefix_drop (h : line.IsOf source) : line.bytes <+: source.drop line.start := by
  obtain ⟨whole, hWhole, hBytes⟩ := h.bytes
  have hFirst := (Bytes.line_cut_of_place hWhole h.place).2.2
  rw [List.drop_zero] at hFirst
  rw [hBytes, ← hFirst]
  exact (dropReturn_isPrefix _).trans (Bytes.firstLine_isPrefix _)

theorem place_add (h : line.IsOf source) {k : Nat} (hk : k ≤ line.bytes.length) :
    source.place (line.start + k) = ⟨line.index, k⟩ ∧ line.start + k ≤ source.length := by
  have hStart := h.start_le
  have hLength := h.prefix_drop.length_le
  rw [List.length_drop] at hLength
  rw [Bytes.place_add_of_prefix h.prefix_drop h.lineFeed_notMem hk, h.place, Nat.zero_add]
  exact ⟨rfl, by omega⟩

end Line.IsOf

theorem getElem?_lines_of_place {before : Bytes} {index : Nat} (hBefore : Position.after ⟨0, 0⟩ before = ⟨index, 0⟩)
    (rest : Bytes) :
    Bytes.place (before ++ rest) before.length = ⟨index, 0⟩ ∧
      (Bytes.lines (before ++ rest))[index]? = some (Bytes.firstLine rest) := by
  have hPlace : Bytes.place (before ++ rest) before.length = ⟨index, 0⟩ := by
    rw [Bytes.place, List.take_left, hBefore]
  have hLine := Bytes.lines_getElem?_place (before ++ rest) before.length
  have hColumn := Bytes.place_eq (before ++ rest) before.length
  rw [hPlace, List.take_left] at hLine hColumn
  rw [List.drop_left, List.eq_nil_of_length_eq_zero (Position.mk.inj hColumn).2.symm, List.nil_append] at hLine
  exact ⟨hPlace, hLine⟩

theorem lines_of_mem_number (before : Bytes) {rest : Bytes} {index : Nat} {line : Line}
    (hBefore : Position.after ⟨0, 0⟩ before = ⟨index, 0⟩) (h : line ∈ number index before.length (Bytes.lines rest)) :
    line.start ≤ (before ++ rest).length ∧ Bytes.place (before ++ rest) line.start = ⟨line.index, 0⟩ ∧
      (Bytes.lines (before ++ rest))[line.index]? = some line.bytes := by
  -- by induction on the lines that are left, with all before them read
  induction hLines : Bytes.lines rest generalizing before rest index with
  | nil => exact absurd hLines (Bytes.lines_ne_nil rest)
  | cons first more ih =>
    obtain ⟨hPlace, hLine⟩ := getElem?_lines_of_place hBefore rest
    rcases Bytes.firstLine_split rest with ⟨hFirst, hOnly⟩ | ⟨later, hSplit, hMore⟩
    · rw [hOnly, number, number, List.mem_singleton] at h
      rw [hFirst] at hLine
      subst h
      exact ⟨by simp, hPlace, hLine⟩
    · rw [hMore, number] at h
      rcases List.mem_cons.mp h with rfl | hLater
      · exact ⟨by simp, hPlace, hLine⟩
      · have hNext : Position.after ⟨0, 0⟩ (before ++ Bytes.firstLine rest ++ [Byte.lineFeed]) = ⟨index + 1, 0⟩ := by
          have hBreak : Byte.lineFeed ∉ Bytes.firstLine rest :=
            Bytes.lineFeed_notMem_of_mem_lines (hMore ▸ List.mem_cons_self)
          rw [Position.after_append, Position.after_append, hBefore, Position.after_of_notMem _ hBreak]
          rfl
        have hStart : before.length + (Bytes.firstLine rest).length + 1 =
            (before ++ Bytes.firstLine rest ++ [Byte.lineFeed]).length := by simp [Nat.add_assoc]
        have hSource : before ++ rest = before ++ Bytes.firstLine rest ++ [Byte.lineFeed] ++ later := by
          rw [List.append_assoc _ [Byte.lineFeed], List.append_assoc, List.singleton_append, ← hSplit]
        rw [hStart] at hLater
        rw [hSource]
        exact ih _ hNext hLater (List.cons.inj (hMore.symm.trans hLines)).2

theorem isOf_of_mem_lines {source : Bytes} {line : Line} (h : line ∈ lines source) : line.IsOf source := by
  obtain ⟨whole, hWhole, rfl⟩ := List.mem_map.mp h
  obtain ⟨hStart, hPlace, hLine⟩ := lines_of_mem_number [] rfl hWhole
  exact ⟨hStart, hPlace, whole.bytes, hLine, rfl⟩

theorem le_index_of_mem_number {index start : Nat} {texts : List Bytes} {line : Line}
    (h : line ∈ number index start texts) : index ≤ line.index := by
  induction texts generalizing index start with
  | nil => cases h
  | cons text more ih =>
    rcases List.mem_cons.mp h with rfl | hLater
    · exact Nat.le_refl _
    · exact Nat.le_of_succ_le (ih hLater)

theorem pairwise_number (index start : Nat) (texts : List Bytes) :
    (number index start texts).Pairwise fun a b => a.index < b.index := by
  induction texts generalizing index start with
  | nil => exact .nil
  | cons text more ih =>
    refine List.pairwise_cons.mpr ⟨?_, ih _ _⟩
    intro line hLine
    exact le_index_of_mem_number hLine

theorem pairwise_lines (source : Bytes) : (lines source).Pairwise fun a b => a.index < b.index :=
  List.pairwise_map.mpr (pairwise_number 0 0 _)

/-- The occurrences of a text on all lines of a source. -/
def spots (needle source : Bytes) : List (Line × Nat) :=
  (lines source).flatMap fun line => (occurrences needle 0 line.bytes).map fun column => (line, column)

theorem mem_spots {needle source : Bytes} {line : Line} {column : Nat} (h : (line, column) ∈ spots needle source) :
    line.IsOf source ∧ needle <+: line.bytes.drop column := by
  obtain ⟨other, hOther, hColumn⟩ := List.mem_flatMap.mp h
  obtain ⟨_, hColumn, hEq⟩ := List.mem_map.mp hColumn
  cases hEq
  exact ⟨isOf_of_mem_lines hOther, (prefix_of_mem_occurrences hColumn).2⟩

theorem pairwise_spots (needle source : Bytes) : (spots needle source).Pairwise fun a b =>
    a.1.index < b.1.index ∨ a.1.index = b.1.index ∧ a.2 < b.2 := by
  rw [spots, List.pairwise_flatMap]
  constructor
  · intro line _
    exact List.pairwise_map.mpr ((pairwise_occurrences needle 0 line.bytes).imp fun hLt => .inr ⟨rfl, hLt⟩)
  · refine (pairwise_lines source).imp ?_
    intro line other hLt a ha b hb
    obtain ⟨_, -, rfl⟩ := List.mem_map.mp ha
    obtain ⟨_, -, rfl⟩ := List.mem_map.mp hb
    exact .inl hLt

end ScriptLint.Analyzers
