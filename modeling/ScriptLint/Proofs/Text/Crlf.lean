import ScriptLint.Proofs.Document

/-!
# Texts with another line break

Putting a carriage return before every line feed moves each offset by the line feeds before it and keeps its line and
column. The text that is scanned is not changed by it.
-/
namespace ScriptLint
set_option autoImplicit false

namespace Newline

/-- Where an offset goes when every line feed gets a carriage return before it. -/
def crlfOffset (s : Bytes) (o : Nat) : Nat := o + (s.take o).count Byte.lineFeed

theorem toCrlf_lineFeed_cons (s : Bytes) :
    toCrlf (Byte.lineFeed :: s) = Byte.carriageReturn :: Byte.lineFeed :: toCrlf s := by
  simp [toCrlf, bytes]

theorem toCrlf_cons_of_ne {b : UInt8} (hb : b ≠ Byte.lineFeed) (s : Bytes) : toCrlf (b :: s) = b :: toCrlf s := by
  simp [toCrlf, hb]

theorem toCrlf_append (s t : Bytes) : toCrlf (s ++ t) = toCrlf s ++ toCrlf t := List.flatMap_append

theorem toCrlf_of_notMem {s : Bytes} (h : Byte.lineFeed ∉ s) : toCrlf s = s := by
  induction s with
  | nil => rfl
  | cons b s ih =>
    rw [List.mem_cons, not_or] at h
    rw [toCrlf_cons_of_ne (Ne.symm h.1), ih h.2]

theorem length_toCrlf (s : Bytes) : (toCrlf s).length = s.length + s.count Byte.lineFeed := by
  induction s with
  | nil => rfl
  | cons b s ih =>
    by_cases hb : b = Byte.lineFeed
    · subst hb
      simp only [toCrlf_lineFeed_cons, List.length_cons, List.count_cons_self, ih]
      omega
    · simp only [toCrlf_cons_of_ne hb, List.length_cons, List.count_cons_of_ne hb, ih]
      omega

theorem head?_toCrlf_ne (s : Bytes) : (toCrlf s).head? ≠ some Byte.lineFeed := by
  cases s with
  | nil => simp [toCrlf]
  | cons b s =>
    by_cases hb : b = Byte.lineFeed
    · subst hb
      rw [toCrlf_lineFeed_cons, List.head?_cons]
      decide
    · simpa [toCrlf_cons_of_ne hb] using hb

theorem normalize_toCrlf (s : Bytes) : normalize (toCrlf s) = s := by
  induction s with
  | nil => rfl
  | cons b s ih =>
    by_cases hb : b = Byte.lineFeed
    · subst hb
      rw [toCrlf_lineFeed_cons, normalize_pair, ih]
    · rw [toCrlf_cons_of_ne hb, normalize_cons (fun hPair => head?_toCrlf_ne s hPair.2), ih]

theorem detect_toCrlf (s : Bytes) : detect (toCrlf s) = if Byte.lineFeed ∈ s then .crlf else .lf := by
  induction s with
  | nil => rfl
  | cons b s ih =>
    by_cases hb : b = Byte.lineFeed
    · subst hb
      rw [toCrlf_lineFeed_cons, if_pos List.mem_cons_self]
      rfl
    · have hMem : Byte.lineFeed ∈ b :: s ↔ Byte.lineFeed ∈ s := by simp [Ne.symm hb]
      simp only [toCrlf_cons_of_ne hb, hMem, ← ih]
      cases hRest : toCrlf s with
      | nil => rfl
      | cons c rest =>
        have hc : c ≠ Byte.lineFeed := by
          have hHead := head?_toCrlf_ne s
          rw [hRest] at hHead
          simpa using hHead
        rw [detect, if_neg hb, if_neg hc]

section NoPair

variable {s : Bytes} (h : ¬[Byte.carriageReturn, Byte.lineFeed] <:+: s)
include h

theorem normalize_eq_self : normalize s = s := by
  induction s with
  | nil => rfl
  | cons b s ih =>
    rw [normalize_cons, ih (fun hPair => h (List.infix_cons hPair))]
    rintro ⟨rfl, hHead⟩
    obtain ⟨rest, rfl⟩ := List.head?_eq_some_iff.mp hHead
    exact h (List.prefix_append _ rest).isInfix

theorem detect_eq_lf : detect s = .lf := by
  fun_induction detect s with
  | case1 => rfl
  | case2 => rfl
  | case3 => rfl
  | case4 rest => exact absurd (List.prefix_append _ rest).isInfix h
  | case5 => rfl
  | case6 a b rest ha hb ih => exact ih fun hPair => h (List.infix_cons hPair)

end NoPair

variable {s : Bytes} {i j o : Nat}

theorem crlfOffset_length (s : Bytes) : crlfOffset s s.length = (toCrlf s).length := by
  rw [crlfOffset, List.take_length, length_toCrlf]

theorem take_toCrlf (ho : o ≤ s.length) : (toCrlf s).take (crlfOffset s o) = toCrlf (s.take o) := by
  have hSplit := toCrlf_append (s.take o) (s.drop o)
  have hLength : crlfOffset s o = (toCrlf (s.take o)).length := by
    rw [length_toCrlf, List.length_take, Nat.min_eq_left ho, crlfOffset]
  rw [List.take_append_drop] at hSplit
  rw [hSplit, hLength, List.take_left]

theorem crlfOffset_lt_iff : crlfOffset s i < crlfOffset s j ↔ i < j := by
  have hMono : ∀ {i j : Nat}, i ≤ j → (s.take i).count Byte.lineFeed ≤ (s.take j).count Byte.lineFeed :=
    fun hij => (List.take_sublist_take_left hij).count_le _
  simp only [crlfOffset]
  rcases Nat.lt_or_ge i j with hij | hji
  · have := hMono (Nat.le_of_lt hij)
    omega
  · have := hMono hji
    omega

theorem crlfOffset_le_iff : crlfOffset s i ≤ crlfOffset s j ↔ i ≤ j := by
  rw [← Nat.not_lt, ← Nat.not_lt, crlfOffset_lt_iff]

theorem crlfOffset_max (s : Bytes) (i j : Nat) : crlfOffset s (max i j) = max (crlfOffset s i) (crlfOffset s j) := by
  rcases Nat.le_total i j with hij | hji
  · rw [Nat.max_eq_right hij, Nat.max_eq_right (crlfOffset_le_iff.mpr hij)]
  · rw [Nat.max_eq_left hji, Nat.max_eq_left (crlfOffset_le_iff.mpr hji)]

theorem after_toCrlf (p : Position) (s : Bytes) : p.after (toCrlf s) = p.after s := by
  induction s generalizing p with
  | nil => rfl
  | cons b s ih =>
    by_cases hb : b = Byte.lineFeed
    · subst hb
      rw [toCrlf_lineFeed_cons, Position.after, Position.after, Position.after, ih]
      rfl
    · rw [toCrlf_cons_of_ne hb, Position.after, Position.after, ih]

theorem place_crlfOffset (ho : o ≤ s.length) : (toCrlf s).place (crlfOffset s o) = s.place o := by
  rw [Bytes.place, take_toCrlf ho, after_toCrlf, Bytes.place]

theorem crlfOffset_le_length_iff : crlfOffset s o ≤ (toCrlf s).length ↔ o ≤ s.length := by
  rw [← crlfOffset_length, crlfOffset_le_iff]

theorem position_crlfOffset (ho : o ≤ s.length) :
    (LineIndex.ofBytes (toCrlf s)).position (crlfOffset s o) = (LineIndex.ofBytes s).position o := by
  rw [LineIndex.position, LineIndex.position, LineIndex.lineColumn_ofBytes ho,
    LineIndex.lineColumn_ofBytes (crlfOffset_le_length_iff.mpr ho), place_crlfOffset ho]

theorem offset?_toCrlf {p : Position} (h : (LineIndex.ofBytes s).offset? p = some o) :
    (LineIndex.ofBytes (toCrlf s)).offset? p = some (crlfOffset s o) := by
  rw [LineIndex.offset?_ofBytes_eq_some_iff] at h ⊢
  exact ⟨crlfOffset_le_length_iff.mpr h.1, (place_crlfOffset h.1).trans h.2⟩

end Newline
end ScriptLint
