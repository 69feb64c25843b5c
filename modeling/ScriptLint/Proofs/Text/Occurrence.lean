import ScriptLint.Text.Byte

/-!
# Where a mark first occurs

A mark whose last byte occurs in it only there cannot begin in what stands before it and end in itself. The same holds of
a mark whose first byte occurs in it only there. So a text without the mark is what stands before its first occurrence.
-/
namespace ScriptLint
set_option autoImplicit false

theorem Byte.ne_of_isLetter {b c : UInt8} (hb : Byte.isLetter b = true) (hc : Byte.isLetter c = false) : b ≠ c := by
  rintro rfl
  rw [hb] at hc
  cases hc

namespace Bytes

theorem infix_right {after s t : Bytes} {first : UInt8} (h : first :: after <:+: s ++ t) (hs : first ∉ s) :
    first :: after <:+: t := by
  induction s with
  | nil => exact h
  | cons b s ih =>
    rw [List.mem_cons, not_or] at hs
    rcases List.infix_cons_iff.mp h with hPrefix | hInfix
    · exact absurd (List.cons_prefix_cons.mp hPrefix).1 hs.1
    · exact ih hInfix hs.2

theorem infix_left {before s t : Bytes} {last : UInt8} (h : before ++ [last] <:+: s ++ t) (ht : last ∉ t) :
    before ++ [last] <:+: s := by
  rw [← List.reverse_infix, List.reverse_concat] at h ⊢
  rw [List.reverse_append] at h
  exact infix_right h (by rwa [List.mem_reverse])

theorem suffix_right {before s t : Bytes} {last : UInt8} (h : before <:+ s ++ last :: t) (hLast : last ∉ before) :
    before <:+ t := by
  rcases List.suffix_or_suffix_of_suffix h ((List.suffix_cons last t).trans (List.suffix_append s _)) with
    hShort | ⟨u, hu⟩
  · exact hShort
  · -- then the mark reaches back over the byte that it lacks
    obtain ⟨v, hv⟩ := h
    rw [← hu, ← List.append_assoc, List.append_cons, List.append_cancel_right_eq] at hv
    rcases List.eq_nil_or_concat u with rfl | ⟨w, c, rfl⟩
    · rw [← hu]
      exact List.suffix_refl t
    · rw [List.concat_eq_append, ← List.append_assoc] at hv
      obtain ⟨-, hc⟩ := List.append_inj' hv rfl
      cases hc
      exact absurd (by simp [← hu]) hLast

theorem prefix_left {after s t : Bytes} {first : UInt8} (hs : s ≠ []) (hAfter : first ∉ after)
    (h : first :: after <+: s ++ first :: t) : first :: after <+: s := by
  rcases List.prefix_or_prefix_of_prefix h (List.prefix_append s (first :: t)) with hShort | ⟨u, hu⟩
  · exact hShort
  · -- then the mark goes on with its own first byte
    rw [← hu, List.prefix_append_right_inj] at h
    cases s with
    | nil => exact absurd rfl hs
    | cons b s =>
      rw [List.cons_append, List.cons.injEq] at hu
      obtain ⟨rfl, rfl⟩ := hu
      cases u with
      | nil => exact ⟨[], by simp⟩
      | cons c u =>
        obtain ⟨rfl, -⟩ := List.cons_prefix_cons.mp h
        exact absurd (List.mem_append_right s List.mem_cons_self) hAfter

theorem split_left {s last t u : Bytes} {b : UInt8} (hLast : b ∉ last) (h : s ++ last = t ++ b :: u) :
    ∃ v, s = t ++ b :: v := by
  induction s generalizing t with
  | nil =>
    rw [List.nil_append] at h
    exact absurd (by simp [h]) hLast
  | cons c s ih =>
    cases t with
    | nil =>
      cases h
      exact ⟨s, rfl⟩
    | cons d t =>
      rw [List.cons_append, List.cons_append, List.cons.injEq] at h
      obtain ⟨v, rfl⟩ := ih h.2
      exact ⟨v, by rw [h.1, List.cons_append]⟩

theorem split_right {first s t u : Bytes} {b : UInt8} (hFirst : b ∉ first) (h : first ++ s = t ++ b :: u) :
    ∃ v, t = first ++ v ∧ s = v ++ b :: u := by
  induction first generalizing t with
  | nil => exact ⟨t, rfl, h⟩
  | cons c first ih =>
    rw [List.mem_cons, not_or] at hFirst
    cases t with
    | nil =>
      cases h
      exact absurd rfl hFirst.1
    | cons d t =>
      rw [List.cons_append, List.cons_append, List.cons.injEq] at h
      obtain ⟨v, rfl, hs⟩ := ih hFirst.2 h.2
      exact ⟨v, by rw [h.1, List.cons_append], hs⟩

theorem lengthThrough_append (before : Bytes) {s : Bytes} {last : UInt8} (hLast : last ∉ before)
    (hs : ¬before ++ [last] <:+: s) (rest : Bytes) :
    lengthThrough (before ++ [last]) (s ++ (before ++ last :: rest)) = s.length + (before.length + 1) := by
  induction s with
  | nil =>
    cases hMark : before ++ last :: rest with
    | nil => simp at hMark
    | cons b more =>
      have hPrefix : before ++ [last] <+: b :: more := ⟨rest, by rw [← hMark]; simp⟩
      rw [List.nil_append, lengthThrough, if_pos (List.isPrefixOf_iff_prefix.mpr hPrefix)]
      simp
  | cons b s ih =>
    have hNot : ¬before ++ [last] <+: b :: (s ++ (before ++ last :: rest)) := by
      intro hPrefix
      have hShort : before ++ [last] <+: (b :: s) ++ before := by
        apply List.prefix_of_prefix_length_le hPrefix ⟨last :: rest, by simp⟩
        simp only [List.length_append, List.length_cons, List.length_nil]
        omega
      exact hs (infix_left hShort.isInfix hLast)
    rw [List.cons_append, lengthThrough, if_neg (fun h => hNot (List.isPrefixOf_iff_prefix.mp h)),
      ih (fun h => hs (List.infix_cons h)), List.length_cons, Nat.add_right_comm]

section Runs

variable {p : UInt8 → Bool} {s t : Bytes} (hs : ∀ b ∈ s, p b = true) (ht : ∀ b, t.head? = some b → p b = false)
include hs ht

theorem takeWhile_run : (s ++ t).takeWhile p = s := by
  rw [List.takeWhile_append_of_pos hs]
  cases t with
  | nil => simp
  | cons b t => simp [ht b rfl]

theorem dropWhile_run : (s ++ t).dropWhile p = t := by
  rw [List.dropWhile_append_of_pos hs]
  cases t with
  | nil => rfl
  | cons b t => simp [ht b rfl]

end Runs

theorem splitAt?_append {b : UInt8} {s : Bytes} (hs : b ∉ s) (rest : Bytes) :
    splitAt? b (s ++ b :: rest) = some (s, rest) := by
  induction s with
  | nil => simp [splitAt?]
  | cons c s ih =>
    rw [List.mem_cons, not_or] at hs
    rw [List.cons_append, splitAt?, if_neg (Ne.symm hs.1), ih hs.2, Option.map_some]

section Parts

variable {text s t rest : Bytes} {offset : Nat}

theorem drop_of_drop (h : text.drop offset = s ++ rest) : text.drop (offset + s.length) = rest := by
  rw [← List.drop_drop, h, List.drop_left]

theorem slice_of_drop (h : text.drop offset = s ++ (t ++ rest)) :
    (text.take (offset + s.length + t.length)).drop (offset + s.length) = t := by
  rw [List.drop_take, Nat.add_sub_cancel_left, drop_of_drop h, List.take_left]

end Parts

theorem cons_prefix_drop_iff {s rest : Bytes} {b : UInt8} {c : Nat} :
    b :: rest <+: s.drop c ↔ s[c]? = some b ∧ rest <+: s.drop (c + 1) := by
  rw [← List.head?_drop, ← List.drop_drop]
  cases s.drop c with
  | nil => simp
  | cons first more => simp [List.cons_prefix_cons, eq_comm]

theorem length_le_of_prefix_drop {s word : Bytes} {o : Nat} (h : word <+: s.drop o) (hNe : word ≠ []) :
    o + word.length ≤ s.length := by
  have hLength := h.length_le
  have hPos := List.length_pos_iff.mpr hNe
  rw [List.length_drop] at hLength
  omega

end Bytes
end ScriptLint
