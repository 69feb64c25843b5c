import ScriptLint.Proofs.Lint.IndentRule
import ScriptLint.Proofs.Lint.VirtualSource

/-!
# Automatic indentation

Where a block gives its own indentation, it does not matter how deep the block stands: indenting all lines after the first
indents what is expected of them as well. The lines that the analyzer sees have nothing left to lose.
-/
namespace ScriptLint
set_option autoImplicit false

namespace Bytes

/-- The text with `w` put before every line but the first. -/
def indentLines (w s : Bytes) : Bytes := s.flatMap fun b => if b = Byte.lineFeed then Byte.lineFeed :: w else [b]

variable {w : Bytes}

theorem indentLines_lineFeed_cons (w s : Bytes) :
    indentLines w (Byte.lineFeed :: s) = Byte.lineFeed :: (w ++ indentLines w s) := by
  simp [indentLines]

theorem indentLines_cons_of_ne {b : UInt8} (hb : b ≠ Byte.lineFeed) (w s : Bytes) :
    indentLines w (b :: s) = b :: indentLines w s := by
  simp [indentLines, hb]

theorem indentLines_of_notMem {s : Bytes} (h : Byte.lineFeed ∉ s) (w : Bytes) : indentLines w s = s := by
  induction s with
  | nil => rfl
  | cons b s ih =>
    have hb : b ≠ Byte.lineFeed := fun hEq => h (hEq ▸ List.mem_cons_self)
    rw [indentLines_cons_of_ne hb, ih fun hMem => h (List.mem_cons_of_mem b hMem)]

theorem indentLines_append (w s t : Bytes) : indentLines w (s ++ t) = indentLines w s ++ indentLines w t :=
  List.flatMap_append

theorem lineFeed_notMem_of_isBlank (hw : isBlank w = true) : Byte.lineFeed ∉ w := fun hMem =>
  absurd (isBlank_iff.mp hw _ hMem) (by decide)

theorem leadingBlank_append (hw : isBlank w = true) (s : Bytes) : leadingBlank (w ++ s) = w ++ leadingBlank s :=
  List.takeWhile_append_of_pos (isBlank_iff.mp hw)

theorem leadingBlank_drop (line : Bytes) : leadingBlank (line.drop (leadingBlank line).length) = [] := by
  have hSplit : line = leadingBlank line ++ line.drop (leadingBlank line).length :=
    (List.prefix_iff_eq_append.mp (List.takeWhile_prefix _)).symm
  have hLeading := leadingBlank_append (isBlank_leadingBlank line) (line.drop (leadingBlank line).length)
  rw [← hSplit] at hLeading
  exact List.self_eq_append_right.mp hLeading

theorem lines_indentLines (hw : isBlank w = true) (s : Bytes) :
    lines (indentLines w s) = firstLine s :: (lines s).tail.map (w ++ ·) := by
  induction s with
  | nil => rfl
  | cons b s ih =>
    have hFirst : firstLine (indentLines w s) = firstLine s := by rw [firstLine, ih, List.headD_cons]
    by_cases hb : b = Byte.lineFeed
    · subst hb
      have hIndented : lines (w ++ indentLines w s) = (w ++ firstLine s) :: (lines s).tail.map (w ++ ·) := by
        rw [lines_append, lastLine, lines_of_notMem (lineFeed_notMem_of_isBlank hw), hFirst, ih]
        rfl
      rw [indentLines_lineFeed_cons, lines_lineFeed_cons, hIndented, firstLine_lineFeed_cons, lines_lineFeed_cons,
        List.tail_cons, lines_eq_firstLine_cons s, List.map_cons, List.tail_cons]
    · rw [indentLines_cons_of_ne hb, lines_cons_of_ne hb, hFirst, ih, firstLine_cons_of_ne hb, lines_cons_of_ne hb,
        List.tail_cons, List.tail_cons]

theorem isText_of_isBlank (hw : isBlank w = true) : Utf8.IsText w := by
  apply Utf8.IsText.of_ascii
  intro b hb
  rcases Byte.isSpaceOrTab_iff.mp (isBlank_iff.mp hw b hb) with rfl | rfl <;> decide

theorem isText_indentLines (hw : isBlank w = true) {s : Bytes} (hs : Utf8.IsText s) :
    Utf8.IsText (indentLines w s) := by
  induction hs with
  | nil => exact .nil
  | @cons c lead tails rest h hRest ih =>
    by_cases hLead : lead = Byte.lineFeed
    · subst hLead
      rw [h.ascii (by decide), List.nil_append, indentLines_lineFeed_cons]
      exact (Utf8.isText_singleton (by decide)).append ((isText_of_isBlank hw).append ih)
    · have hTails : Byte.lineFeed ∉ tails := fun hMem => absurd (h.tails_tail _ hMem) (by decide)
      rw [indentLines_cons_of_ne hLead, indentLines_append, indentLines_of_notMem hTails]
      exact .cons h ih

end Bytes

theorem VirtualSource.lines_join_lf {lines : List Bytes} (hNe : lines ≠ [])
    (hBreak : ∀ line ∈ lines, Byte.lineFeed ∉ line) : Bytes.lines (join Newline.lf.bytes lines) = lines := by
  induction lines with
  | nil => exact absurd rfl hNe
  | cons first rest ih =>
    have hFirst := hBreak first List.mem_cons_self
    cases rest with
    | nil => exact Bytes.lines_of_notMem hFirst
    | cons next more =>
      rw [lines_join_cons .lf hFirst, mark, List.append_nil,
        ih (List.cons_ne_nil next more) fun line hLine => hBreak line (List.mem_cons_of_mem first hLine)]

namespace IndentPlan

variable {block other : ScriptBlock} {w line : Bytes} {k : Nat}

theorem expectedIndent_auto_of_first (hFirst : holdsFirst block.hasContent k = true)
    (hLine : block.lines[k]? = some line) : expectedIndent block .auto = Bytes.leadingBlank line := by
  obtain ⟨hContent, hEarlier⟩ := holdsFirst_iff.mp hFirst
  obtain ⟨hPos, row, hRow, hBlank⟩ := ScriptBlock.exists_of_hasContent hContent
  obtain rfl : row = line := Option.some.inj (hRow.symm.trans hLine)
  obtain ⟨i, rfl⟩ := Nat.exists_eq_succ_of_ne_zero (Nat.ne_of_gt hPos)
  have hFind : (block.lines.drop 1).find? (fun line => !Bytes.isBlank line) = some row := by
    have hAt : ∀ j, (block.lines.drop 1)[j]? = block.lines[j + 1]? := by
      intro j
      rw [List.getElem?_drop, Nat.add_comm]
    obtain ⟨hi, hGet⟩ := List.getElem?_eq_some_iff.mp ((hAt i).trans hLine)
    refine List.find?_eq_some_iff_getElem.mpr ⟨by rw [hBlank]; rfl, i, hi, hGet, ?_⟩
    intro j hj
    have hRow := (hAt j).symm.trans (List.getElem?_eq_getElem (Nat.lt_trans hj hi))
    rw [← ScriptBlock.hasContent_of_getElem? (Nat.succ_pos j) hRow, hEarlier (j + 1) (Nat.succ_lt_succ hj)]
    rfl
  rw [expectedIndent, hFind]

theorem expectedIndent_auto_of_none (h : ∀ k, block.hasContent k = false) : expectedIndent block .auto = [] := by
  have hFind : (block.lines.drop 1).find? (fun line => !Bytes.isBlank line) = none := by
    rw [List.find?_eq_none]
    intro line hMem
    obtain ⟨i, hi⟩ := List.mem_iff_getElem?.mp hMem
    rw [List.getElem?_drop, Nat.add_comm] at hi
    have hContent := ScriptBlock.hasContent_of_getElem? (Nat.succ_pos i) hi
    rw [h (i + 1)] at hContent
    rw [← hContent]
    decide
  rw [expectedIndent, hFind]

theorem planLine_append (hw : Bytes.isBlank w = true) (expected : Bytes) (seen : Bool) (line : Bytes) :
    (planLine (w ++ expected) seen (w ++ line)).kind = (planLine expected seen line).kind ∧
      ((planLine expected seen line).kind = .dedented →
        (planLine (w ++ expected) seen (w ++ line)).strip = w.length + (planLine expected seen line).strip) := by
  have hPrefix : (w ++ expected).isPrefixOf (w ++ Bytes.leadingBlank line) =
      expected.isPrefixOf (Bytes.leadingBlank line) := by
    rw [Bool.eq_iff_iff, List.isPrefixOf_iff_prefix, List.isPrefixOf_iff_prefix, List.prefix_append_right_inj]
  have hEqual : (w ++ Bytes.leadingBlank line == w ++ expected) = (Bytes.leadingBlank line == expected) := by
    rw [Bool.eq_iff_iff, beq_iff_eq, beq_iff_eq, List.append_cancel_left_eq]
  simp only [planLine, Bytes.isBlank_append, hw, Bool.true_and, Bytes.leadingBlank_append hw, hPrefix, hEqual]
  generalize (if seen then expected.isPrefixOf (Bytes.leadingBlank line) else Bytes.leadingBlank line == expected) =
    carries
  split
  · split <;> simp
  · split
    · exact ⟨rfl, fun _ => List.length_append⟩
    · simp

theorem kind_planLine_of_isBlank (h : Bytes.isBlank line = true) (expected : Bytes) (seen : Bool) :
    (planLine expected seen line).kind = .blank := by
  rcases planLine_cases expected seen line with ⟨-, hEq⟩ | ⟨hContent, -⟩ | ⟨hContent, -⟩
  · rw [hEq]
  · exact absurd (h.symm.trans hContent) (by decide)
  · exact absurd (h.symm.trans hContent) (by decide)

section Deeper

variable (hw : Bytes.isBlank w = true) (hDeeper : other.text = Bytes.indentLines w block.text)
include hw hDeeper

theorem lines_deeper : other.lines = block.lines.take 1 ++ (block.lines.drop 1).map (w ++ ·) := by
  rw [ScriptBlock.lines, hDeeper, Bytes.lines_indentLines hw, ScriptBlock.lines, Bytes.lines_eq_firstLine_cons block.text]
  rfl

theorem getElem?_lines_deeper (k : Nat) : other.lines[k + 1]? = block.lines[k + 1]?.map (w ++ ·) := by
  rw [ScriptBlock.lines, hDeeper, Bytes.lines_indentLines hw, List.getElem?_cons_succ, List.getElem?_map,
    List.getElem?_tail]
  rfl

theorem hasContent_deeper : other.hasContent = block.hasContent := by
  funext k
  cases k with
  | zero => rfl
  | succ k =>
    simp only [ScriptBlock.hasContent, getElem?_lines_deeper hw hDeeper]
    cases block.lines[k + 1]? with
    | none => rfl
    | some line => simp [Bytes.isBlank_append, hw]

theorem expectedIndent_deeper (hContent : block.hasContent k = true) :
    expectedIndent other .auto = w ++ expectedIndent block .auto := by
  obtain ⟨i, line, hFirst, hLine⟩ := ScriptBlock.exists_first_of_hasContent hContent
  have hDeep : other.lines[i + 1]? = some (w ++ line) := by
    rw [getElem?_lines_deeper hw hDeeper, hLine, Option.map_some]
  rw [expectedIndent_auto_of_first hFirst hLine, ← Bytes.leadingBlank_append hw]
  rw [← hasContent_deeper hw hDeeper] at hFirst
  exact expectedIndent_auto_of_first hFirst hDeep

theorem kind_deeper (k : Nat) :
    (ofBlock other .auto).lines[k]?.map (·.kind) = (ofBlock block .auto).lines[k]?.map (·.kind) := by
  cases k with
  | zero => rfl
  | succ k =>
    rw [getElem?_lines_succ, getElem?_lines_succ, hasContent_deeper hw hDeeper, getElem?_lines_deeper hw hDeeper]
    cases hLine : block.lines[k + 1]? with
    | none => rfl
    | some line =>
      simp only [Option.map_some, Option.some.injEq]
      cases hBlank : Bytes.isBlank line with
      | true =>
        have hDeep : Bytes.isBlank (w ++ line) = true := by rw [Bytes.isBlank_append, hw, hBlank]; rfl
        rw [kind_planLine_of_isBlank hBlank, kind_planLine_of_isBlank hDeep]
      | false =>
        have hContent := ScriptBlock.hasContent_of_getElem? (Nat.succ_pos k) hLine
        rw [hBlank] at hContent
        rw [expectedIndent_deeper hw hDeeper hContent]
        exact (planLine_append hw _ _ line).1

theorem transformed_deeper (hText : Utf8.IsText block.text) {entry : LinePlan}
    (hEntry : (ofBlock block .auto).lines[k]? = some entry) (hKind : entry.kind = .dedented) :
    ∃ kept, ((ofBlock block .auto).transformed block)[k]? = some kept ∧
      ((ofBlock other .auto).transformed other)[k]? = some kept := by
  cases k with
  | zero =>
    cases hEntry
    cases hKind
  | succ k =>
    have hOther : Utf8.IsText other.text := hDeeper ▸ Bytes.isText_indentLines hw hText
    have hPlanned := getElem?_lines_succ block .auto k
    rw [hEntry] at hPlanned
    obtain ⟨line, hLine, rfl⟩ := Option.map_eq_some_iff.mp hPlanned.symm
    have hBlank : Bytes.isBlank line = false := by
      apply Bool.eq_false_iff.mpr
      intro hBlank
      rw [kind_planLine_of_isBlank hBlank] at hKind
      cases hKind
    have hContent := ScriptBlock.hasContent_of_getElem? (Nat.succ_pos k) hLine
    rw [hBlank] at hContent
    have hDeep : other.lines[k + 1]? = some (w ++ line) := by
      rw [getElem?_lines_deeper hw hDeeper, hLine, Option.map_some]
    have hDeepEntry := getElem?_lines_succ other .auto k
    rw [hDeep, Option.map_some, hasContent_deeper hw hDeeper, expectedIndent_deeper hw hDeeper hContent] at hDeepEntry
    refine ⟨_, (getElem?_transformed hText hLine hEntry).2, ?_⟩
    rw [(getElem?_transformed hOther hDeep hDeepEntry).2, (planLine_append hw _ _ line).2 hKind,
      List.drop_length_add_append]

end Deeper

theorem isBlank_drop_of_strips {strip : Nat} (h : Strips line strip) :
    Bytes.isBlank (line.drop strip) = Bytes.isBlank line := by
  have hSplit := Bytes.isBlank_append (line.take strip) (line.drop strip)
  rw [List.take_append_drop, Bytes.isBlank_iff.mpr h.blank, Bool.true_and] at hSplit
  exact hSplit.symm

theorem strip_eq_zero_of_mem {indent : Indent} (hExpected : expectedIndent block indent = []) {entry : LinePlan}
    (h : entry ∈ (ofBlock block indent).lines) : entry.strip = 0 := by
  obtain ⟨k, hEntry⟩ := List.mem_iff_getElem?.mp h
  cases k with
  | zero =>
    cases hEntry
    rfl
  | succ k =>
    rw [getElem?_lines_succ, hExpected] at hEntry
    obtain ⟨line, -, rfl⟩ := Option.map_eq_some_iff.mp hEntry
    rcases planLine_cases [] ((List.range (k + 1)).any block.hasContent) line with
      ⟨-, hEq⟩ | ⟨-, -, hEq⟩ | ⟨-, -, hEq⟩ <;> simp [hEq]

section Again

variable (hText : Utf8.IsText block.text)
  (hAgain : other.text = VirtualSource.join Newline.lf.bytes ((ofBlock block .auto).transformed block))
include hText

theorem strip_of_first {entry : LinePlan} (hFirst : holdsFirst block.hasContent (k + 1) = true)
    (hLine : block.lines[k + 1]? = some line) (hEntry : (ofBlock block .auto).lines[k + 1]? = some entry) :
    entry.strip = (Bytes.leadingBlank line).length := by
  have hFollows := follows_succ hText hLine hEntry
  have hExpected : (ofBlock block .auto).expected = Bytes.leadingBlank line := expectedIndent_auto_of_first hFirst hLine
  have hCarries : ¬Deviates (ofBlock block .auto).expected (holdsFirst block.hasContent (k + 1))
      (Bytes.leadingBlank line) := by
    rw [not_deviates_iff, hFirst, hExpected]
    rfl
  have hKind := (hFollows.dedented_iff (Nat.succ_pos k)).mpr ⟨(holdsFirst_iff.mp hFirst).1, hCarries⟩
  rw [hFollows.strip_eq, if_pos (.inl hKind), hExpected]

include hAgain

theorem lines_again : other.lines = (ofBlock block .auto).transformed block := by
  rw [ScriptBlock.lines, hAgain]
  apply VirtualSource.lines_join_lf
  · apply List.ne_nil_of_length_pos
    rw [length_transformed]
    exact List.length_pos_iff.mpr (Bytes.lines_ne_nil block.text)
  · intro kept hKept
    obtain ⟨k, hk⟩ := List.mem_iff_getElem?.mp hKept
    have hInside := (List.getElem?_eq_some_iff.mp hk).1
    rw [length_transformed] at hInside
    have hLine := List.getElem?_eq_getElem hInside
    obtain ⟨entry, hEntry, -⟩ := getElem?_lines_ofBlock .auto hLine
    rw [(getElem?_transformed hText hLine hEntry).2] at hk
    cases hk
    exact fun hMem => Bytes.lineFeed_notMem_of_mem_lines (List.getElem_mem hInside) (List.mem_of_mem_drop hMem)

theorem getElem?_lines_again {entry : LinePlan} (hLine : block.lines[k]? = some line)
    (hEntry : (ofBlock block .auto).lines[k]? = some entry) : other.lines[k]? = some (line.drop entry.strip) := by
  rw [lines_again hText hAgain]
  exact (getElem?_transformed hText hLine hEntry).2

theorem hasContent_again : other.hasContent = block.hasContent := by
  funext k
  cases hLine : block.lines[k]? with
  | none =>
    have hNone : other.lines[k]? = none := by
      rw [lines_again hText hAgain, List.getElem?_eq_none_iff, length_transformed]
      exact List.getElem?_eq_none_iff.mp hLine
    simp [ScriptBlock.hasContent, hLine, hNone]
  | some line =>
    obtain ⟨entry, hEntry, hStrips, -⟩ := getElem?_lines_ofBlock .auto hLine
    simp [ScriptBlock.hasContent, hLine, getElem?_lines_again hText hAgain hLine hEntry, isBlank_drop_of_strips hStrips]

theorem expectedIndent_again : expectedIndent other .auto = [] := by
  have hContent := hasContent_again hText hAgain
  by_cases hNone : ∃ k, block.hasContent k = true
  · obtain ⟨k, hk⟩ := hNone
    obtain ⟨i, line, hFirst, hLine⟩ := ScriptBlock.exists_first_of_hasContent hk
    obtain ⟨entry, hEntry, -⟩ := getElem?_lines_ofBlock .auto hLine
    have hAgainLine := getElem?_lines_again hText hAgain hLine hEntry
    rw [strip_of_first hText hFirst hLine hEntry] at hAgainLine
    rw [← hContent] at hFirst
    rw [expectedIndent_auto_of_first hFirst hAgainLine]
    exact Bytes.leadingBlank_drop line
  · apply expectedIndent_auto_of_none
    intro k
    rw [hContent]
    exact Bool.eq_false_iff.mpr fun hk => hNone ⟨k, hk⟩

end Again

/-- Under automatic indentation the analyzer sees the same code however deep a block stands, and of what it sees nothing
more would be taken away. -/
theorem auto_normalizes (block deeper again : ScriptBlock) {script : String} {w : Bytes}
    (hText : block.text = Utf8.encode script) (hw : ∀ b ∈ w, b = Byte.space ∨ b = Byte.tab)
    (hDeeper : deeper.text = Bytes.indentLines w block.text)
    (hAgain : again.text = VirtualSource.join Newline.lf.bytes ((ofBlock block .auto).transformed block)) :
    let plan := ofBlock block .auto
    let deepPlan := ofBlock deeper .auto
    (deeper.lines = block.lines.take 1 ++ (block.lines.drop 1).map (w ++ ·) ∧
      deepPlan.lines.map (·.kind) = plan.lines.map (·.kind) ∧
      ∀ (k : Nat) (entry : LinePlan), plan.lines[k]? = some entry → entry.kind = .dedented →
        ∃ kept, (plan.transformed block)[k]? = some kept ∧ (deepPlan.transformed deeper)[k]? = some kept) ∧
    again.lines = plan.transformed block ∧ (ofBlock again .auto).expected = [] ∧
      ∀ entry ∈ (ofBlock again .auto).lines, entry.strip = 0 := by
  intro plan deepPlan
  have hIsText : Utf8.IsText block.text := hText ▸ Utf8.isText_encode script
  have hBlank : Bytes.isBlank w = true := Bytes.isBlank_iff.mpr fun b hb => Byte.isSpaceOrTab_iff.mpr (hw b hb)
  refine ⟨⟨lines_deeper hBlank hDeeper, ?_, ?_⟩, lines_again hIsText hAgain, expectedIndent_again hIsText hAgain, ?_⟩
  · apply List.ext_getElem?
    intro k
    rw [List.getElem?_map, List.getElem?_map]
    exact kind_deeper hBlank hDeeper k
  · intro k entry hEntry hKind
    exact transformed_deeper hBlank hDeeper hIsText hEntry hKind
  · intro entry hMem
    exact strip_eq_zero_of_mem (expectedIndent_again hIsText hAgain) hMem

theorem auto_normalizes_underIndented :
    let block : ScriptBlock :=
      { index := 0, mode := .html, content := ⟨8, 25⟩, offset := 8, length := 17, span := ⟨⟨0, 8⟩, ⟨5, 0⟩⟩,
        rawText := [], text := Utf8.encode "x\n  é\n \n   b\n c\n", tagLineIndent := [], attributes := [] }
    let deeper : ScriptBlock := { block with text := Bytes.indentLines [Byte.tab, Byte.space] block.text }
    let plan := ofBlock block .auto
    let again : ScriptBlock :=
      { block with text := VirtualSource.join Newline.lf.bytes (plan.transformed block) }
    deeper.text = Utf8.encode "x\n\t   é\n\t  \n\t    b\n\t  c\n\t " ∧
      plan.lines.map (·.kind) = [.first, .dedented, .blank, .dedented, .badIndent, .blank] ∧
      (ofBlock deeper .auto).lines.map (·.kind) = plan.lines.map (·.kind) ∧
      again.text = Utf8.encode "x\né\n \n b\n c\n" ∧ (ofBlock again .auto).expected = [] := by
  intro block deeper plan again
  obtain ⟨⟨-, hKinds, -⟩, -, hExpected, -⟩ := auto_normalizes block deeper again rfl (by decide +kernel) rfl rfl
  exact ⟨by decide +kernel, by decide +kernel, hKinds, by decide +kernel, hExpected⟩

end IndentPlan
end ScriptLint
