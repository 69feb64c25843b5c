import ScriptLint.Text.Byte

/-!
# Cutting a text into lines

A text is cut at its line feeds, so a text in two parts is cut in the lines of both, where the last line of the one and
the first line of the other become a single line.
-/
namespace ScriptLint.Bytes
set_option autoImplicit false

def firstLine (s : Bytes) : Bytes := (lines s).headD []

def lastLine (s : Bytes) : Bytes := (lines s).getLastD []

theorem lines_eq_firstLine_cons (s : Bytes) : lines s = firstLine s :: (lines s).tail := by
  cases hLines : lines s with
  | nil => exact absurd hLines (lines_ne_nil s)
  | cons line more => simp [firstLine, hLines]

theorem lines_eq_append_lastLine (s : Bytes) : lines s = (lines s).dropLast ++ [lastLine s] := by
  rw [lastLine, List.getLastD_eq_getLast?, List.getLast?_eq_some_getLast (lines_ne_nil s)]
  exact (List.dropLast_concat_getLast (lines_ne_nil s)).symm

@[simp] theorem lines_nil : lines [] = [[]] := rfl

@[simp] theorem firstLine_nil : firstLine [] = [] := rfl

@[simp] theorem lastLine_nil : lastLine [] = [] := rfl

@[simp] theorem lines_lineFeed_cons (s : Bytes) : lines (Byte.lineFeed :: s) = [] :: lines s := by
  rw [lines, if_pos rfl]

theorem lines_cons_of_ne {b : UInt8} (hb : b ≠ Byte.lineFeed) (s : Bytes) :
    lines (b :: s) = (b :: firstLine s) :: (lines s).tail := by
  rw [lines, if_neg hb, lines_eq_firstLine_cons s]
  rfl

theorem firstLine_lineFeed_cons (s : Bytes) : firstLine (Byte.lineFeed :: s) = [] := by
  simp [firstLine]

theorem firstLine_cons_of_ne {b : UInt8} (hb : b ≠ Byte.lineFeed) (s : Bytes) :
    firstLine (b :: s) = b :: firstLine s := by
  simp [firstLine, lines_cons_of_ne hb]

theorem lines_append (s t : Bytes) :
    lines (s ++ t) = (lines s).dropLast ++ (lastLine s ++ firstLine t) :: (lines t).tail := by
  induction s with
  | nil => simpa using lines_eq_firstLine_cons t
  | cons b s ih =>
    obtain ⟨line, more, hLines⟩ := List.exists_cons_of_ne_nil (lines_ne_nil s)
    by_cases hb : b = Byte.lineFeed
    · subst hb
      rw [List.cons_append, lines_lineFeed_cons, ih, lastLine, lastLine, lines_lineFeed_cons, hLines]
      rfl
    · rw [List.cons_append, lines_cons_of_ne hb, firstLine, ih, lastLine, lastLine, lines_cons_of_ne hb, firstLine,
        hLines]
      -- the two lines meet in the first line of `s` exactly when `s` has no other
      cases more <;> simp [firstLine, hLines]

theorem length_lines (s : Bytes) : (lines s).length = s.count Byte.lineFeed + 1 := by
  induction s with
  | nil => rfl
  | cons b s ih =>
    by_cases hb : b = Byte.lineFeed
    · subst hb
      rw [lines_lineFeed_cons, List.length_cons, ih, List.count_cons_self]
    · rw [lines_cons_of_ne hb, List.length_cons, List.length_tail, ih, List.count_cons_of_ne hb, Nat.add_sub_cancel]

theorem lineFeed_notMem_of_mem_lines {s line : Bytes} (h : line ∈ lines s) : Byte.lineFeed ∉ line := by
  induction s generalizing line with
  | nil =>
    rw [List.mem_singleton.mp h]
    exact List.not_mem_nil
  | cons b s ih =>
    by_cases hb : b = Byte.lineFeed
    · subst hb
      rw [lines_lineFeed_cons] at h
      rcases List.mem_cons.mp h with rfl | h
      · exact List.not_mem_nil
      · exact ih h
    · rw [lines_cons_of_ne hb] at h
      rcases List.mem_cons.mp h with rfl | h
      · intro hMem
        rcases List.mem_cons.mp hMem with hEq | hMem
        · exact hb hEq.symm
        · exact ih (lines_eq_firstLine_cons s ▸ List.mem_cons_self) hMem
      · exact ih (List.mem_of_mem_tail h)

theorem lines_of_notMem {s : Bytes} (h : Byte.lineFeed ∉ s) : lines s = [s] := by
  induction s with
  | nil => rfl
  | cons b s ih =>
    have hb : b ≠ Byte.lineFeed := fun hEq => h (hEq ▸ List.mem_cons_self)
    have hs := ih (fun hMem => h (List.mem_cons_of_mem b hMem))
    simp [lines_cons_of_ne hb, firstLine, hs]

theorem lines_append_lineFeed {line : Bytes} (h : Byte.lineFeed ∉ line) (s : Bytes) :
    lines (line ++ Byte.lineFeed :: s) = line :: lines s := by
  rw [lines_append, firstLine_lineFeed_cons, lines_lineFeed_cons]
  simp [lastLine, lines_of_notMem h]

theorem firstLine_split (s : Bytes) :
    firstLine s = s ∧ lines s = [s] ∨
      ∃ rest, s = firstLine s ++ Byte.lineFeed :: rest ∧ lines s = firstLine s :: lines rest := by
  induction s with
  | nil => exact .inl ⟨rfl, rfl⟩
  | cons b s ih =>
    by_cases hb : b = Byte.lineFeed
    · subst hb
      exact .inr ⟨s, by simp [firstLine_lineFeed_cons], by simp [firstLine_lineFeed_cons]⟩
    · rw [firstLine_cons_of_ne hb, lines_cons_of_ne hb]
      rcases ih with ⟨hFirst, hLines⟩ | ⟨rest, hSplit, hLines⟩
      · exact .inl ⟨by rw [hFirst], by rw [hFirst, hLines]; rfl⟩
      · exact .inr ⟨rest, by rw [List.cons_append, ← hSplit], by rw [hLines]; rfl⟩

theorem firstLine_isPrefix (s : Bytes) : firstLine s <+: s := by
  rcases firstLine_split s with ⟨hFirst, -⟩ | ⟨rest, hSplit, -⟩
  · exact ⟨[], by rw [List.append_nil, hFirst]⟩
  · exact ⟨_, hSplit.symm⟩

theorem prefix_firstLine {s word : Bytes} (h : word <+: s) (hBreak : Byte.lineFeed ∉ word) : word <+: firstLine s := by
  induction word generalizing s with
  | nil => exact List.nil_prefix
  | cons b word ih =>
    obtain ⟨rest, rfl⟩ := h
    rw [List.mem_cons, not_or] at hBreak
    rw [List.cons_append, firstLine_cons_of_ne (Ne.symm hBreak.1), List.cons_prefix_cons]
    exact ⟨rfl, ih (List.prefix_append _ _) hBreak.2⟩

/-- Texts of the same length with their line feeds at the same offsets. -/
def SameBreaks (s t : Bytes) : Prop := s.map (· == Byte.lineFeed) = t.map (· == Byte.lineFeed)

namespace SameBreaks

theorem length_eq {s t : Bytes} (h : SameBreaks s t) : s.length = t.length := by
  simpa using congrArg List.length h

theorem take {s t : Bytes} (h : SameBreaks s t) (n : Nat) : SameBreaks (s.take n) (t.take n) := by
  rw [SameBreaks, List.map_take, List.map_take, h]

theorem cons_iff {a b : UInt8} {s t : Bytes} :
    SameBreaks (a :: s) (b :: t) ↔ (a = Byte.lineFeed ↔ b = Byte.lineFeed) ∧ SameBreaks s t := by
  rw [SameBreaks, List.map_cons, List.map_cons, List.cons.injEq, Bool.eq_iff_iff, beq_iff_eq, beq_iff_eq]
  rfl

end SameBreaks
end ScriptLint.Bytes
