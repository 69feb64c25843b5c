import ScriptLint.Proofs.Lint.IndentPlan

/-!
# The rule that a plan follows

A plan cuts every line of a block in two: what the line loses, which is nothing or the expected indentation, and what the
analyzer sees. The first line with content after the opening tag must carry the expected indentation and no more; later
ones may be deeper.
-/
namespace ScriptLint
set_option autoImplicit false

def holdsFirst (p : Nat → Bool) (k : Nat) : Bool := p k && (List.range k).all fun j => !p j

theorem holdsFirst_iff {p : Nat → Bool} {k : Nat} : holdsFirst p k = true ↔ p k = true ∧ ∀ j < k, p j = false := by
  simp [holdsFirst]

theorem exists_holdsFirst {p : Nat → Bool} {k : Nat} (h : p k = true) : ∃ j, holdsFirst p j = true := by
  induction k using Nat.strongRecOn with
  | ind k ih =>
    by_cases hEarlier : ∃ j < k, p j = true
    · obtain ⟨j, hj, hHolds⟩ := hEarlier
      exact ih j hj hHolds
    · refine ⟨k, holdsFirst_iff.mpr ⟨h, ?_⟩⟩
      intro j hj
      exact Bool.eq_false_iff.mpr fun hHolds => hEarlier ⟨j, hj, hHolds⟩

theorem Byte.isSpaceOrTab_iff {b : UInt8} : isSpaceOrTab b = true ↔ b = space ∨ b = tab := by
  simp [isSpaceOrTab]

namespace Bytes

theorem isBlank_iff {line : Bytes} : isBlank line = true ↔ ∀ b ∈ line, Byte.isSpaceOrTab b = true := List.all_eq_true

theorem isBlank_append (s t : Bytes) : isBlank (s ++ t) = (isBlank s && isBlank t) := List.all_append

theorem isBlank_leadingBlank (line : Bytes) : isBlank (leadingBlank line) = true := List.all_takeWhile

theorem leadingBlank_of_isBlank {line : Bytes} (h : isBlank line = true) : leadingBlank line = line := by
  have hAppend : leadingBlank (line ++ []) = line ++ leadingBlank [] := List.takeWhile_append_of_pos (isBlank_iff.mp h)
  rw [List.append_nil] at hAppend
  exact hAppend.trans (List.append_nil line)

end Bytes

namespace ScriptBlock

/-- Line `k` stands after the first one and has more than spaces and tabs. -/
def hasContent (block : ScriptBlock) (k : Nat) : Bool :=
  0 < k && block.lines[k]?.any fun line => !Bytes.isBlank line

theorem hasContent_of_getElem? {block : ScriptBlock} {k : Nat} {line : Bytes} (hk : 0 < k)
    (h : block.lines[k]? = some line) : block.hasContent k = !Bytes.isBlank line := by
  simp [hasContent, h, hk]

theorem exists_of_hasContent {block : ScriptBlock} {k : Nat} (h : block.hasContent k = true) :
    0 < k ∧ ∃ line, block.lines[k]? = some line ∧ Bytes.isBlank line = false := by
  simpa [hasContent, Option.any_eq_true] using h

theorem exists_first_of_hasContent {block : ScriptBlock} {k : Nat} (h : block.hasContent k = true) :
    ∃ i line, holdsFirst block.hasContent (i + 1) = true ∧ block.lines[i + 1]? = some line := by
  obtain ⟨j, hFirst⟩ := exists_holdsFirst h
  obtain ⟨hPos, line, hLine, -⟩ := exists_of_hasContent (holdsFirst_iff.mp hFirst).1
  obtain ⟨i, rfl⟩ := Nat.exists_eq_succ_of_ne_zero (Nat.ne_of_gt hPos)
  exact ⟨i, line, hFirst, hLine⟩

end ScriptBlock

namespace IndentPlan

/-- The indentation of a line with content is not what it must be: the expected one on the first such line, and at least
the expected one on later lines. -/
def Deviates (expected : Bytes) (first : Bool) (carried : Bytes) : Prop :=
  if first then carried ≠ expected else ¬expected <+: carried

theorem not_deviates_iff {expected carried : Bytes} {first : Bool} :
    ¬Deviates expected first carried ↔ if first then carried = expected else expected <+: carried := by
  cases first <;> simp [Deviates]

theorem prefix_of_not_deviates {expected carried : Bytes} {first : Bool} (h : ¬Deviates expected first carried) :
    expected <+: carried := by
  rw [not_deviates_iff] at h
  cases first with
  | true => exact h ▸ List.prefix_rfl
  | false => exact h

theorem planLine_cases (expected : Bytes) (seen : Bool) (line : Bytes) :
    (Bytes.isBlank line = true ∧
      planLine expected seen line = ⟨.blank, if expected <+: line then expected.length else 0⟩) ∨
    (Bytes.isBlank line = false ∧ ¬Deviates expected (!seen) (Bytes.leadingBlank line) ∧
      planLine expected seen line = ⟨.dedented, expected.length⟩) ∨
    (Bytes.isBlank line = false ∧ Deviates expected (!seen) (Bytes.leadingBlank line) ∧
      planLine expected seen line = ⟨.badIndent, 0⟩) := by
  cases hBlank : Bytes.isBlank line with
  | true =>
    refine .inl ⟨rfl, ?_⟩
    rw [planLine, if_pos hBlank, Bytes.leadingBlank_of_isBlank hBlank]
    simp only [List.isPrefixOf_iff_prefix]
    split <;> rfl
  | false =>
    right
    have hCarries : (if seen then expected.isPrefixOf (Bytes.leadingBlank line)
        else Bytes.leadingBlank line == expected) = true ↔ ¬Deviates expected (!seen) (Bytes.leadingBlank line) := by
      rw [not_deviates_iff]
      cases seen <;> simp
    rw [planLine, if_neg (by simp [hBlank])]
    by_cases hDeviates : Deviates expected (!seen) (Bytes.leadingBlank line)
    · exact .inr ⟨rfl, hDeviates, if_neg fun h => hCarries.mp h hDeviates⟩
    · exact .inl ⟨rfl, hDeviates, if_pos (hCarries.mpr hDeviates)⟩

/-- A line is planned by itself but for the flag, which tells whether a line before it has content. -/
theorem getElem?_planLines_eq (expected : Bytes) (seen : Bool) (lines : List Bytes) (k : Nat) :
    (planLines expected seen lines)[k]? =
      lines[k]?.map (planLine expected (seen || (lines.take k).any fun line => !Bytes.isBlank line)) := by
  induction lines generalizing seen k with
  | nil => rfl
  | cons line more ih =>
    cases k with
    | zero => simp [planLines]
    | succ k => simp [planLines, ih, Bool.or_assoc]

theorem any_take_eq (block : ScriptBlock) (k : Nat) :
    (((block.lines.drop 1).take k).any fun line => !Bytes.isBlank line) = (List.range (k + 1)).any block.hasContent := by
  rw [Bool.eq_iff_iff, List.any_eq_true, List.any_eq_true]
  constructor
  · rintro ⟨line, hMem, hContent⟩
    obtain ⟨j, hj⟩ := List.mem_iff_getElem?.mp hMem
    rw [List.getElem?_take] at hj
    split at hj
    · rename_i hLt
      rw [List.getElem?_drop, Nat.add_comm] at hj
      refine ⟨j + 1, List.mem_range.mpr (Nat.succ_lt_succ hLt), ?_⟩
      rw [ScriptBlock.hasContent_of_getElem? (Nat.succ_pos j) hj]
      exact hContent
    · cases hj
  · rintro ⟨j, hRange, hContent⟩
    obtain ⟨hPos, line, hLine, hBlank⟩ := ScriptBlock.exists_of_hasContent hContent
    obtain ⟨i, rfl⟩ := Nat.exists_eq_succ_of_ne_zero (Nat.ne_of_gt hPos)
    have hLt : i < k := Nat.lt_of_succ_lt_succ (List.mem_range.mp hRange)
    refine ⟨line, List.mem_of_getElem? (i := i) ?_, by rw [hBlank]; rfl⟩
    rw [List.getElem?_take_of_lt hLt, List.getElem?_drop, Nat.add_comm]
    exact hLine

theorem holdsFirst_hasContent {block : ScriptBlock} {k : Nat} (h : block.hasContent k = true) :
    holdsFirst block.hasContent k = !(List.range k).any block.hasContent := by
  rw [holdsFirst, h, Bool.true_and, List.not_any_eq_all_not]

theorem getElem?_lines_succ (block : ScriptBlock) (indent : Indent) (k : Nat) :
    (ofBlock block indent).lines[k + 1]? = block.lines[k + 1]?.map
      (planLine (expectedIndent block indent) ((List.range (k + 1)).any block.hasContent)) := by
  simp only [ofBlock, List.getElem?_cons_succ, getElem?_planLines_eq, Bool.false_or, any_take_eq, List.getElem?_drop,
    Nat.add_comm 1]

/-- What a plan says of line `k` of its block. -/
structure Follows (plan : IndentPlan) (block : ScriptBlock) (k : Nat) (line : Bytes) (entry : LinePlan) : Prop where
  /-- Neither does the cut fail, nor does it lose anything but indentation. -/
  cut : ∃ lost kept, line = lost ++ kept ∧ lost.length = entry.strip ∧ (lost = [] ∨ lost = plan.expected) ∧
    (∀ b ∈ lost, b = Byte.space ∨ b = Byte.tab) ∧ Utf8.dropTo? line entry.strip = some kept ∧
    (plan.transformed block)[k]? = some kept
  first : k = 0 → entry = ⟨.first, 0⟩
  blank_iff : 0 < k → (entry.kind = .blank ↔ ∀ b ∈ line, b = Byte.space ∨ b = Byte.tab)
  badIndent_iff : 0 < k → (entry.kind = .badIndent ↔ block.hasContent k = true ∧
    Deviates plan.expected (holdsFirst block.hasContent k) (Bytes.leadingBlank line))
  dedented_iff : 0 < k → (entry.kind = .dedented ↔ block.hasContent k = true ∧
    ¬Deviates plan.expected (holdsFirst block.hasContent k) (Bytes.leadingBlank line))
  strip_eq : entry.strip =
    if entry.kind = .dedented ∨ entry.kind = .blank ∧ plan.expected <+: line then plan.expected.length else 0

theorem length_transformed (block : ScriptBlock) (indent : Indent) :
    ((ofBlock block indent).transformed block).length = block.lines.length := by
  rw [transformed, List.length_map, List.length_zip, length_lines_ofBlock, Nat.min_self]

theorem getElem?_transformed {block : ScriptBlock} (hText : Utf8.IsText block.text) {indent : Indent} {k : Nat}
    {line : Bytes} {entry : LinePlan} (hLine : block.lines[k]? = some line)
    (hEntry : (ofBlock block indent).lines[k]? = some entry) :
    Utf8.dropTo? line entry.strip = some (line.drop entry.strip) ∧
      ((ofBlock block indent).transformed block)[k]? = some (line.drop entry.strip) := by
  have hZip : (block.lines.zip (ofBlock block indent).lines)[k]? = some (line, entry) :=
    List.getElem?_zip_eq_some.mpr ⟨hLine, hEntry⟩
  have hCut := dropTo?_of_strips hText hLine (strips_of_getElem?_zip hZip).1
  refine ⟨hCut, ?_⟩
  rw [transformed, List.getElem?_map, hZip, Option.map_some, hCut, Option.getD_some]

section Follows

variable {block : ScriptBlock} {indent : Indent} {k : Nat} {line : Bytes} {entry : LinePlan}

theorem exists_cut (hText : Utf8.IsText block.text) (hLine : block.lines[k]? = some line)
    (hEntry : (ofBlock block indent).lines[k]? = some entry)
    (hStrip : entry.strip = 0 ∨
      entry.strip = (ofBlock block indent).expected.length ∧ (ofBlock block indent).expected <+: line) :
    ∃ lost kept, line = lost ++ kept ∧ lost.length = entry.strip ∧
      (lost = [] ∨ lost = (ofBlock block indent).expected) ∧ (∀ b ∈ lost, b = Byte.space ∨ b = Byte.tab) ∧
      Utf8.dropTo? line entry.strip = some kept ∧ ((ofBlock block indent).transformed block)[k]? = some kept := by
  obtain ⟨hStrips, -⟩ := strips_of_getElem?_zip (List.getElem?_zip_eq_some.mpr ⟨hLine, hEntry⟩)
  refine ⟨line.take entry.strip, line.drop entry.strip, (List.take_append_drop _ _).symm,
    List.length_take_of_le hStrips.le_length, ?_, ?_, getElem?_transformed hText hLine hEntry⟩
  · rcases hStrip with hZero | ⟨hLength, hPrefix⟩
    · exact .inl (by rw [hZero, List.take_zero])
    · exact .inr (by rw [hLength, ← List.prefix_iff_eq_take.mp hPrefix])
  · intro b hb
    exact Byte.isSpaceOrTab_iff.mp (hStrips.blank b hb)

theorem follows_zero (hText : Utf8.IsText block.text) (hLine : block.lines[0]? = some line) :
    (ofBlock block indent).Follows block 0 line ⟨.first, 0⟩ where
  cut := exists_cut hText hLine rfl (.inl rfl)
  first _ := rfl
  blank_iff h := absurd h (Nat.lt_irrefl 0)
  badIndent_iff h := absurd h (Nat.lt_irrefl 0)
  dedented_iff h := absurd h (Nat.lt_irrefl 0)
  strip_eq := by simp

theorem follows_succ (hText : Utf8.IsText block.text) (hLine : block.lines[k + 1]? = some line)
    (hEntry : (ofBlock block indent).lines[k + 1]? = some entry) :
    (ofBlock block indent).Follows block (k + 1) line entry := by
  have hContent := ScriptBlock.hasContent_of_getElem? (Nat.succ_pos k) hLine
  have hBlank : (∀ b ∈ line, b = Byte.space ∨ b = Byte.tab) ↔ Bytes.isBlank line = true := by
    simp only [Bytes.isBlank_iff, Byte.isSpaceOrTab_iff]
  have hPlanned := getElem?_lines_succ block indent k
  rw [hLine, Option.map_some, hEntry, Option.some.injEq] at hPlanned
  have hCut := exists_cut hText hLine hEntry
  have hLater : k + 1 = 0 → entry = ⟨.first, 0⟩ := fun h => absurd h (Nat.succ_ne_zero k)
  rcases planLine_cases (expectedIndent block indent) ((List.range (k + 1)).any block.hasContent) line with
    ⟨hLineBlank, hEq⟩ | ⟨hLineContent, hCarries, hEq⟩ | ⟨hLineContent, hDeviates, hEq⟩
  · obtain rfl := hPlanned.trans hEq
    rw [hLineBlank, Bool.not_true] at hContent
    refine ⟨hCut ?_, hLater, ?_, ?_, ?_, ?_⟩
    · simp only
      split
      · rename_i hPrefix
        exact .inr ⟨rfl, hPrefix⟩
      · exact .inl rfl
    · simp [hBlank, hLineBlank]
    · simp [hContent]
    · simp [hContent]
    · simp only [true_and, reduceCtorEq, false_or]
      rfl
  · obtain rfl := hPlanned.trans hEq
    rw [hLineContent, Bool.not_false] at hContent
    rw [← holdsFirst_hasContent hContent] at hCarries
    refine ⟨hCut ?_, hLater, ?_, ?_, ?_, ?_⟩
    · exact .inr ⟨rfl, (prefix_of_not_deviates hCarries).trans (List.takeWhile_prefix _)⟩
    · simp [hBlank, hLineContent]
    · simp [hContent, ofBlock, hCarries]
    · simp [hContent, ofBlock, hCarries]
    · simp [ofBlock]
  · obtain rfl := hPlanned.trans hEq
    rw [hLineContent, Bool.not_false] at hContent
    rw [← holdsFirst_hasContent hContent] at hDeviates
    refine ⟨hCut (.inl rfl), hLater, ?_, ?_, ?_, ?_⟩
    · simp [hBlank, hLineContent]
    · simp [hContent, ofBlock, hDeviates]
    · simp [hContent, ofBlock, hDeviates]
    · simp

end Follows

/-- The plan of a block follows the rule on every line, and it is a plan of these lines and no others. -/
theorem ofBlock_follows (block : ScriptBlock) (indent : Indent) {script : String}
    (hText : block.text = Utf8.encode script) :
    let plan := ofBlock block indent
    plan.lines.length = block.lines.length ∧ (plan.transformed block).length = block.lines.length ∧
      ∀ k line, block.lines[k]? = some line →
        ∃ entry, plan.lines[k]? = some entry ∧ plan.Follows block k line entry := by
  intro plan
  have hIsText : Utf8.IsText block.text := hText ▸ Utf8.isText_encode script
  refine ⟨length_lines_ofBlock block indent, length_transformed block indent, ?_⟩
  intro k line hLine
  obtain ⟨entry, hEntry, -⟩ := getElem?_lines_ofBlock indent hLine
  refine ⟨entry, hEntry, ?_⟩
  cases k with
  | zero =>
    cases hEntry
    exact follows_zero hIsText hLine
  | succ k => exact follows_succ hIsText hLine hEntry

theorem ofBlock_follows_everyKind :
    let block : ScriptBlock :=
      { index := 0, mode := .html, content := ⟨8, 32⟩, offset := 8, length := 24, span := ⟨⟨0, 8⟩, ⟨5, 3⟩⟩,
        rawText := [], text := Utf8.encode "x\n \n  é\n    b\n\tc\n   ", tagLineIndent := [], attributes := [] }
    let plan := ofBlock block (.absolute 2)
    plan.lines = [⟨.first, 0⟩, ⟨.blank, 0⟩, ⟨.dedented, 2⟩, ⟨.dedented, 2⟩, ⟨.badIndent, 0⟩, ⟨.blank, 2⟩] ∧
      block.lines[3]? = some (Utf8.encode "    b") ∧
      ∃ entry, plan.lines[3]? = some entry ∧ plan.Follows block 3 (Utf8.encode "    b") entry := by
  intro block plan
  obtain ⟨-, -, hFollows⟩ := ofBlock_follows block (.absolute 2) rfl
  exact ⟨by decide +kernel, by decide +kernel, hFollows 3 _ (by decide +kernel)⟩

end IndentPlan
end ScriptLint
