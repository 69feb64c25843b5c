import ScriptLint.Lint.IndentPlan
import ScriptLint.Proofs.ScriptBlock

/-!
# What a plan takes from the lines of a block

A plan has an entry for every line. What a line loses is spaces and tabs at its start, and the first line loses nothing;
so no character is cut, and the analyzer sees every line without exactly those bytes.
-/
namespace ScriptLint
set_option autoImplicit false

namespace IndentPlan

/-- As many bytes at the start of a line as are spaces and tabs. -/
structure Strips (line : Bytes) (strip : Nat) : Prop where
  le_length : strip ≤ line.length
  blank : ∀ b ∈ line.take strip, Byte.isSpaceOrTab b = true

theorem strips_zero (line : Bytes) : Strips line 0 := ⟨Nat.zero_le _, fun _ h => absurd h List.not_mem_nil⟩

theorem strips_of_prefix {expected line : Bytes} (h : expected <+: Bytes.leadingBlank line) :
    Strips line expected.length := by
  have hLine : expected <+: line := h.trans (List.takeWhile_prefix _)
  refine ⟨hLine.length_le, ?_⟩
  intro b hb
  rw [← List.prefix_iff_eq_take.mp hLine] at hb
  have hAll : (Bytes.leadingBlank line).all Byte.isSpaceOrTab = true := List.all_takeWhile
  exact List.all_eq_true.mp hAll b (h.subset hb)

theorem planLine_strips (expected : Bytes) (seen : Bool) (line : Bytes) :
    Strips line (planLine expected seen line).strip := by
  have hMatch : (if seen then expected.isPrefixOf (Bytes.leadingBlank line) else Bytes.leadingBlank line == expected) =
      true → expected <+: Bytes.leadingBlank line := by
    cases seen with
    | true => exact List.isPrefixOf_iff_prefix.mp
    | false =>
      intro h
      have hEq : Bytes.leadingBlank line = expected := beq_iff_eq.mp h
      exact hEq ▸ List.prefix_rfl
  simp only [planLine]
  generalize (if seen then expected.isPrefixOf (Bytes.leadingBlank line) else Bytes.leadingBlank line == expected) =
    carries at hMatch
  split
  · split
    · rename_i hPrefix
      exact strips_of_prefix (List.isPrefixOf_iff_prefix.mp hPrefix)
    · exact strips_zero line
  · split
    · rename_i hCarries
      exact strips_of_prefix (hMatch hCarries)
    · exact strips_zero line

theorem getElem?_planLines (expected : Bytes) (seen : Bool) {lines : List Bytes} {k : Nat} {line : Bytes}
    (h : lines[k]? = some line) :
    ∃ plan, (planLines expected seen lines)[k]? = some plan ∧ Strips line plan.strip := by
  induction lines generalizing seen k with
  | nil => cases h
  | cons first more ih =>
    cases k with
    | zero =>
      cases h
      exact ⟨_, rfl, planLine_strips expected seen line⟩
    | succ k => exact ih _ h

theorem getElem?_lines_ofBlock {block : ScriptBlock} (indent : Indent) {k : Nat} {line : Bytes}
    (h : block.lines[k]? = some line) :
    ∃ plan, (ofBlock block indent).lines[k]? = some plan ∧ Strips line plan.strip ∧ (k = 0 → plan.strip = 0) := by
  cases k with
  | zero => exact ⟨_, rfl, strips_zero line, fun _ => rfl⟩
  | succ k =>
    have hMore : (block.lines.drop 1)[k]? = some line := by
      rw [List.getElem?_drop, Nat.add_comm]
      exact h
    obtain ⟨plan, hPlan, hStrips⟩ := getElem?_planLines (expectedIndent block indent) false hMore
    exact ⟨plan, hPlan, hStrips, fun hk => absurd hk (Nat.succ_ne_zero k)⟩

theorem length_lines_ofBlock (block : ScriptBlock) (indent : Indent) :
    (ofBlock block indent).lines.length = block.lines.length := by
  have hNe := Bytes.lines_ne_nil block.text
  have hPos : 0 < block.lines.length := List.length_pos_iff.mpr hNe
  simp only [ofBlock, List.length_cons, length_planLines, List.length_drop]
  omega

theorem dropTo?_of_strips {block : ScriptBlock} {k strip : Nat} {row : Bytes} (hText : Utf8.IsText block.text)
    (hLine : block.lines[k]? = some row) (hStrips : Strips row strip) :
    Utf8.dropTo? row strip = some (row.drop strip) := by
  rw [Utf8.dropTo?, if_pos]
  rcases Nat.eq_zero_or_pos strip with rfl | hPos
  · rfl
  · obtain ⟨i, rfl⟩ := Nat.exists_eq_succ_of_ne_zero (Nat.ne_of_gt hPos)
    obtain ⟨before, rest, hSplit, -, -⟩ := Bytes.exists_line_split hLine
    have hLength := hStrips.le_length
    have hGet : ∀ j < row.length, block.text[before.length + j]? = row[j]? := by
      intro j hj
      rw [hSplit, List.getElem?_append_right (Nat.le_add_right _ _), Nat.add_sub_cancel_left,
        List.getElem?_append_left hj]
    have hBlank : Byte.isSpaceOrTab row[i] = true := hStrips.blank _ (by
      rw [List.mem_take_iff_getElem]
      exact ⟨i, by omega, rfl⟩)
    have hAscii : row[i].toNat < 0x80 := by
      simp only [Byte.isSpaceOrTab, Bool.or_eq_true, beq_iff_eq] at hBlank
      rcases hBlank with h | h <;> rw [h] <;> decide
    have hBoundary := hText.isBoundary_succ ((hGet i hLength).trans (List.getElem?_eq_getElem hLength)) hAscii
    rw [Utf8.isBoundary_iff (Nat.succ_pos _)] at hBoundary
    rw [Utf8.isBoundary_iff hPos]
    refine ⟨hLength, ?_⟩
    intro b hb
    have hLt := (List.getElem?_eq_some_iff.mp hb).1
    exact hBoundary.2 b ((hGet _ hLt).trans hb)

theorem strips_of_getElem?_zip {indent : Indent} {block : ScriptBlock} {k : Nat} {line : Bytes} {plan : LinePlan}
    (h : (block.lines.zip (ofBlock block indent).lines)[k]? = some (line, plan)) :
    Strips line plan.strip ∧ (k = 0 → plan.strip = 0) := by
  obtain ⟨hLine, hPlan⟩ := List.getElem?_zip_eq_some.mp h
  obtain ⟨other, hOther, hStrips⟩ := getElem?_lines_ofBlock indent hLine
  cases hPlan.symm.trans hOther
  exact hStrips

theorem zip_transformed (indent : Indent) {block : ScriptBlock} (hText : Utf8.IsText block.text) :
    ((ofBlock block indent).transformed block).zip (ofBlock block indent).lines =
      (block.lines.zip (ofBlock block indent).lines).map fun entry => (entry.1.drop entry.2.strip, entry.2) := by
  have hTransformed : (ofBlock block indent).transformed block =
      (block.lines.zip (ofBlock block indent).lines).map fun entry => entry.1.drop entry.2.strip := by
    rw [transformed, List.map_inj_left]
    intro entry hEntry
    obtain ⟨k, hk⟩ := List.mem_iff_getElem?.mp hEntry
    obtain ⟨hStrips, -⟩ := strips_of_getElem?_zip hk
    rw [dropTo?_of_strips hText (List.getElem?_zip_eq_some.mp hk).1 hStrips, Option.getD_some]
  have hPlans : (ofBlock block indent).lines = (block.lines.zip (ofBlock block indent).lines).map Prod.snd :=
    (List.map_snd_zip (Nat.le_of_eq (length_lines_ofBlock block indent))).symm
  calc ((ofBlock block indent).transformed block).zip (ofBlock block indent).lines
      = ((block.lines.zip (ofBlock block indent).lines).map fun entry => entry.1.drop entry.2.strip).zip
          ((block.lines.zip (ofBlock block indent).lines).map Prod.snd) := by rw [hTransformed, ← hPlans]
    _ = _ := List.zip_map'

end IndentPlan
end ScriptLint
