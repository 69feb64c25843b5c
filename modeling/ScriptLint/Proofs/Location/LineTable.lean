import ScriptLint.Proofs.Location.LineIndex

/-!
# Offsets and positions in the same order

The line table of a text has the lines of the text. It is an isomorphism between the offsets of the text and the
positions in its lines: neither way loses anything, and both keep the order.
-/
namespace ScriptLint.LineIndex
set_option autoImplicit false

theorem length_startsAfter (k : Nat) (s : Bytes) : (startsAfter k s).length = s.count Byte.lineFeed := by
  induction s generalizing k with
  | nil => rfl
  | cons b s ih =>
    rw [startsAfter]
    by_cases hb : b = Byte.lineFeed
    · subst hb
      rw [if_pos rfl, List.length_cons, ih, List.count_cons_self]
    · rw [if_neg hb, ih, List.count_cons_of_ne hb]

theorem lineCount_ofBytes (s : Bytes) : (ofBytes s).lineCount = (Bytes.lines s).length := by
  rw [Bytes.length_lines, ← length_startsAfter 0 s]
  rfl

theorem exists_offset?_iff {s : Bytes} {p : Position} :
    (∃ o, (ofBytes s).offset? p = some o) ↔
      ∃ line, (Bytes.lines s)[p.line]? = some line ∧ p.character ≤ line.length := by
  constructor
  · rintro ⟨o, ho⟩
    obtain ⟨-, rfl⟩ := offset?_ofBytes_eq_some_iff.mp ho
    have hLine := Bytes.lines_getElem?_place s o
    exact ⟨_, hLine, (Bytes.line_cut_of_place hLine rfl).1⟩
  · rintro ⟨line, hLine, hColumn⟩
    obtain ⟨o, ho, hPlace⟩ := Bytes.exists_place_eq hLine hColumn
    exact ⟨o, offset?_ofBytes_eq_some_iff.mpr ⟨ho, hPlace⟩⟩

/-- A line with the line feed at its end: all of the text up to the start of the next line. -/
def fullLine? (ix : LineIndex) (s : Bytes) (n : Nat) : Option Bytes :=
  (ix.lineStart? n).map fun start => (s.take ((ix.lineStart? (n + 1)).getD s.length)).drop start

theorem lineStart?_append {before rest : Bytes} {n : Nat} (h : Position.after ⟨0, 0⟩ before = ⟨n, 0⟩) :
    (ofBytes (before ++ rest)).lineStart? n = some before.length := by
  have hPlace : Bytes.place (before ++ rest) before.length = ⟨n, 0⟩ := by rw [Bytes.place, List.take_left, h]
  obtain ⟨-, hStart⟩ := lineStart?_place (s := before ++ rest) (o := before.length) (by simp)
  rwa [hPlace] at hStart

theorem fullLine?_ofBytes {s line : Bytes} {n : Nat} (h : (Bytes.lines s)[n]? = some line) :
    (ofBytes s).fullLine? s n =
      some (line ++ if n + 1 < (Bytes.lines s).length then [Byte.lineFeed] else []) := by
  obtain ⟨before, rest, hSplit, hAfter, hRest⟩ := Bytes.exists_line_split h
  have hBefore : Position.after ⟨0, 0⟩ before = ⟨n, 0⟩ := by simp [hAfter]
  have hStart : (ofBytes s).lineStart? n = some before.length := hSplit ▸ lineStart?_append hBefore
  rw [fullLine?, hStart, Option.map_some]
  rcases hRest with ⟨rfl, hLast⟩ | ⟨hHead, hMore⟩
  · have hNext : (ofBytes s).lineStart? (n + 1) = none := by
      rw [lineStart?, List.getElem?_eq_none_iff]
      exact Nat.le_of_eq ((lineCount_ofBytes s).trans hLast.symm)
    have hText : s.drop before.length = line ++ [] := by rw [hSplit, List.drop_left]
    rw [hNext, Option.getD_none, List.take_length, hText, if_neg (by omega)]
  · obtain ⟨more, rfl⟩ := List.head?_eq_some_iff.mp hHead
    have hBreak := Bytes.lineFeed_notMem_of_mem_lines (List.mem_of_getElem? h)
    have hThrough : Position.after ⟨0, 0⟩ (before ++ (line ++ [Byte.lineFeed])) = ⟨n + 1, 0⟩ := by
      rw [Position.after_append, hBefore, Position.after_append, Position.after_of_notMem _ hBreak]
      rfl
    have hSplit : s = (before ++ (line ++ [Byte.lineFeed])) ++ more := by simp [hSplit]
    have hNext : (ofBytes s).lineStart? (n + 1) = some (before ++ (line ++ [Byte.lineFeed])).length :=
      hSplit ▸ lineStart?_append hThrough
    have hText : s.take (before ++ (line ++ [Byte.lineFeed])).length = before ++ (line ++ [Byte.lineFeed]) := by
      rw [hSplit, List.take_left]
    rw [hNext, Option.getD_some, hText, List.drop_left, if_pos hMore]

/-- The table turns offsets into positions and back, in order. Offsets past the end count as the end, and exactly the
positions in the lines of the text have offsets. -/
theorem position_isomorphism {s : Bytes} (hSize : s.length < wordLimit) :
    let ix := ofBytes s
    (∀ o o', o ≤ s.length → o' ≤ s.length → ((ix.position o).lt (ix.position o') = true ↔ o < o')) ∧
      (∀ o, s.length ≤ o → ix.position o = ix.position s.length) ∧
      (∀ o, o ≤ s.length → ix.offset? (ix.position o) = some o) ∧
      (∀ p o, ix.offset? p = some o → o ≤ s.length ∧ ix.position o = p) ∧
      ∀ p, (∃ o, ix.offset? p = some o) ↔
        ∃ line, (Bytes.lines s)[p.line]? = some line ∧ p.character ≤ line.length := by
  intro ix
  have hFits := Bytes.fits_of_length_lt hSize
  have hPlace : ∀ {o : Nat}, o ≤ s.length → ix.position o = s.place o := by
    intro o ho
    rw [position_ofBytes hFits, Nat.min_eq_left ho]
  refine ⟨?_, ?_, ?_, ?_, ?_⟩
  · intro o o' ho ho'
    rw [hPlace ho, hPlace ho']
    exact Bytes.place_lt_place_iff ho ho'
  · intro o ho
    rw [position_ofBytes hFits, Nat.min_eq_right ho, hPlace (Nat.le_refl _)]
  · intro o ho
    exact offset?_ofBytes_eq_some_iff.mpr ⟨ho, (hPlace ho).symm⟩
  · intro p o h
    obtain ⟨ho, hAt⟩ := offset?_ofBytes_eq_some_iff.mp h
    exact ⟨ho, (hPlace ho).trans hAt⟩
  · intro p
    exact exists_offset?_iff

theorem position_isomorphism_emptyLine :
    let s : Bytes := [0x61, Byte.carriageReturn, Byte.lineFeed, Byte.lineFeed, 0x62, Byte.lineFeed]
    s.length < wordLimit ∧ (ofBytes s).position 2 = ⟨0, 2⟩ ∧ (ofBytes s).offset? ⟨0, 2⟩ = some 2 ∧
      (ofBytes s).offset? ⟨0, 3⟩ = none ∧ (ofBytes s).offset? ⟨1, 0⟩ = some 3 ∧ (ofBytes s).offset? ⟨3, 0⟩ = some 6 ∧
      (ofBytes s).position 7 = ⟨3, 0⟩ := by
  intro s
  have hSize : s.length < wordLimit := by decide
  obtain ⟨-, hEnd, hBack, -, hExists⟩ := position_isomorphism hSize
  have hNone : (ofBytes s).offset? ⟨0, 3⟩ = none := by
    rw [Option.eq_none_iff_forall_ne_some]
    intro o ho
    obtain ⟨line, hLine, hColumn⟩ := (hExists ⟨0, 3⟩).mp ⟨o, ho⟩
    cases hLine
    exact absurd hColumn (by decide)
  exact ⟨hSize, rfl, hBack 2 (by decide), hNone, hBack 3 (by decide), hBack 6 (by decide), hEnd 7 (by decide)⟩

end ScriptLint.LineIndex
