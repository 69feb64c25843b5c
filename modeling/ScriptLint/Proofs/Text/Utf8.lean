import ScriptLint.Text.Utf8

/-!
# Well-formed texts

A text is well formed if it is the encoding of characters. Such a text is left as it is by repairing, can be cut
wherever no tail byte follows, and never has a tail byte right after an ASCII byte.
-/
namespace ScriptLint.Utf8
set_option autoImplicit false

theorem isTail_iff (b : UInt8) : isTail b = true ↔ 0x80 ≤ b.toNat ∧ b.toNat ≤ 0xBF := by
  simp [isTail, UInt8.le_iff_toNat_le]

theorem isTail_eq_false_iff (b : UInt8) : isTail b = false ↔ b.toNat < 0x80 ∨ 0xBF < b.toNat := by
  rw [← Bool.not_eq_true, isTail_iff]
  omega

theorem tails?_eq (lead : UInt8) :
    tails? lead =
      if lead.toNat < 0x80 then some (0, 0x80, 0xBF)
      else if lead.toNat < 0xC2 then none
      else if lead.toNat < 0xE0 then some (1, 0x80, 0xBF)
      else if lead.toNat = 0xE0 then some (2, 0xA0, 0xBF)
      else if lead.toNat = 0xED then some (2, 0x80, 0x9F)
      else if lead.toNat < 0xF0 then some (2, 0x80, 0xBF)
      else if lead.toNat = 0xF0 then some (3, 0x90, 0xBF)
      else if lead.toNat < 0xF4 then some (3, 0x80, 0xBF)
      else if lead.toNat = 0xF4 then some (3, 0x80, 0x8F)
      else none := by
  simp only [tails?, UInt8.lt_iff_toNat_lt, ← UInt8.toNat_inj, UInt8.reduceToNat]

theorem takeTails_append {tails : Bytes} {low high : UInt8} (hTails : ∀ b ∈ tails, isTail b = true)
    (hFirst : ∀ b ∈ tails.head?, low.toNat ≤ b.toNat ∧ b.toNat ≤ high.toNat) (rest : Bytes) :
    takeTails tails.length low high (tails ++ rest) = tails := by
  induction tails generalizing low high with
  | nil => cases rest <;> rfl
  | cons b more ih =>
    have hBounds := hFirst b rfl
    have hMore : takeTails more.length 0x80 0xBF (more ++ rest) = more := by
      apply ih (fun c hc => hTails c (List.mem_cons_of_mem b hc))
      intro c hc
      exact (isTail_iff c).mp (hTails c (List.mem_cons_of_mem b (List.mem_of_mem_head? hc)))
    simp only [List.length_cons, List.cons_append, takeTails, UInt8.le_iff_toNat_le, hBounds, decide_true, Bool.and_self,
      if_true, hMore]

theorem charAt_append {lead : UInt8} {tails : Bytes} {low high : UInt8} {c : Char}
    (hLead : tails? lead = some (tails.length, low, high)) (hTails : ∀ b ∈ tails, isTail b = true)
    (hFirst : ∀ b ∈ tails.head?, low.toNat ≤ b.toNat ∧ b.toNat ≤ high.toNat)
    (hCode : tails.foldl (fun code b => code * 0x40 + b.toNat % 0x40) (leadBits lead tails.length) = c.toNat)
    (rest : Bytes) : charAt lead (tails ++ rest) = (c, tails.length) := by
  simp only [charAt, hLead, takeTails_append hTails hFirst, if_true, hCode, Char.ofNat_toNat]

/-- A character is encoded as a lead byte with tail bytes, from which it is read again. -/
structure Encodes (c : Char) (lead : UInt8) (tails : Bytes) : Prop where
  encode_eq : String.utf8EncodeChar c = lead :: tails
  lead_not_tail : isTail lead = false
  tails_tail : ∀ b ∈ tails, isTail b = true
  ascii : lead.toNat < 0x80 → tails = []
  charAt_eq : ∀ rest, charAt lead (tails ++ rest) = (c, tails.length)

theorem encodes_of_tails? {c : Char} {lead : UInt8} {tails : Bytes} {low high : UInt8}
    (hEncode : String.utf8EncodeChar c = lead :: tails) (hLead : tails? lead = some (tails.length, low, high))
    (hTails : ∀ b ∈ tails, isTail b = true)
    (hFirst : ∀ b ∈ tails.head?, low.toNat ≤ b.toNat ∧ b.toNat ≤ high.toNat)
    (hCode : tails.foldl (fun code b => code * 0x40 + b.toNat % 0x40) (leadBits lead tails.length) = c.toNat) :
    Encodes c lead tails where
  encode_eq := hEncode
  lead_not_tail := by
    rw [isTail_eq_false_iff]
    rw [tails?_eq] at hLead
    split at hLead
    · omega
    · split at hLead
      · cases hLead
      · omega
  tails_tail := hTails
  ascii hAscii := by
    rw [tails?_eq, if_pos hAscii] at hLead
    simp only [Option.some.injEq, Prod.mk.injEq] at hLead
    exact List.length_eq_zero_iff.mp hLead.1.symm
  charAt_eq := charAt_append hLead hTails hFirst hCode

/-- The second byte of three is in the bounds that the first one sets: the code point is no surrogate and does not fit
two bytes. -/
theorem tails?_three {v : Nat} {lead second : UInt8} (hLow : 0x7FF < v) (hHigh : v ≤ 0xFFFF)
    (hValid : v < 0xD800 ∨ 0xDFFF < v) (hLead : lead.toNat = v / 4096 + 0xE0)
    (hSecond : second.toNat = v / 64 % 64 + 0x80) :
    ∃ low high : UInt8, tails? lead = some (2, low, high) ∧ low.toNat ≤ second.toNat ∧ second.toNat ≤ high.toNat := by
  rw [tails?_eq, hLead, hSecond, if_neg (by omega), if_neg (by omega), if_neg (by omega)]
  split
  · refine ⟨0xA0, 0xBF, rfl, ?_⟩
    simp only [UInt8.reduceToNat]
    omega
  · split
    · refine ⟨0x80, 0x9F, rfl, ?_⟩
      simp only [UInt8.reduceToNat]
      omega
    · refine ⟨0x80, 0xBF, if_pos (by omega), ?_⟩
      simp only [UInt8.reduceToNat]
      omega

theorem tails?_four {v : Nat} {lead second : UInt8} (hLow : 0xFFFF < v) (hHigh : v < 0x110000)
    (hLead : lead.toNat = v / 262144 + 0xF0) (hSecond : second.toNat = v / 4096 % 64 + 0x80) :
    ∃ low high : UInt8, tails? lead = some (3, low, high) ∧ low.toNat ≤ second.toNat ∧ second.toNat ≤ high.toNat := by
  rw [tails?_eq, hLead, hSecond, if_neg (by omega), if_neg (by omega), if_neg (by omega), if_neg (by omega),
    if_neg (by omega), if_neg (by omega)]
  split
  · refine ⟨0x90, 0xBF, rfl, ?_⟩
    simp only [UInt8.reduceToNat]
    omega
  · split
    · refine ⟨0x80, 0xBF, rfl, ?_⟩
      simp only [UInt8.reduceToNat]
      omega
    · refine ⟨0x80, 0x8F, if_pos (by omega), ?_⟩
      simp only [UInt8.reduceToNat]
      omega

theorem toNat_ofNat_of_lt {n : Nat} (h : n < 256) : (UInt8.ofNat n).toNat = n := by
  rw [UInt8.toNat_ofNat']
  exact Nat.mod_eq_of_lt h

theorem encodeChar_eq (c : Char) {v : Nat} (hv : c.toNat = v) :
    String.utf8EncodeChar c =
      if v ≤ 0x7F then [UInt8.ofNat v]
      else if v ≤ 0x7FF then [UInt8.ofNat (v / 64 % 0x20 + 0xC0), UInt8.ofNat (v % 0x40 + 0x80)]
      else if v ≤ 0xFFFF then
        [UInt8.ofNat (v / 4096 % 0x10 + 0xE0), UInt8.ofNat (v / 64 % 0x40 + 0x80), UInt8.ofNat (v % 0x40 + 0x80)]
      else
        [UInt8.ofNat (v / 262144 % 0x08 + 0xF0), UInt8.ofNat (v / 4096 % 0x40 + 0x80),
          UInt8.ofNat (v / 64 % 0x40 + 0x80), UInt8.ofNat (v % 0x40 + 0x80)] := by
  subst hv
  rfl

theorem exists_encodes (c : Char) : ∃ lead tails, Encodes c lead tails := by
  have hValid : c.toNat < 0xD800 ∨ 0xDFFF < c.toNat ∧ c.toNat < 0x110000 := c.valid
  generalize hv : c.toNat = v at hValid
  have hEncode := encodeChar_eq c hv
  split at hEncode
  · have hLead := toNat_ofNat_of_lt (n := v) (by omega)
    have hTails : tails? (UInt8.ofNat v) = some (0, 0x80, 0xBF) := by
      rw [tails?_eq, hLead, if_pos (by omega)]
    refine ⟨_, _, encodes_of_tails? hEncode hTails (by simp) (by simp) ?_⟩
    rw [hv]
    exact hLead
  · have hLast := toNat_ofNat_of_lt (n := v % 0x40 + 0x80) (by omega)
    split at hEncode
    · have hLead := toNat_ofNat_of_lt (n := v / 64 % 0x20 + 0xC0) (by omega)
      have hTails : tails? (UInt8.ofNat (v / 64 % 0x20 + 0xC0)) = some (1, 0x80, 0xBF) := by
        rw [tails?_eq, hLead, if_neg (by omega), if_neg (by omega), if_pos (by omega)]
      refine ⟨_, _, encodes_of_tails? hEncode hTails ?_ ?_ ?_⟩
      · simp only [List.forall_mem_singleton, isTail_iff, hLast]
        omega
      · simp only [List.head?_cons, Option.mem_def, Option.some.injEq, forall_eq', hLast, UInt8.reduceToNat]
        omega
      · simp only [List.foldl_cons, List.foldl_nil, List.length_cons, List.length_nil, Nat.zero_add, leadBits, hLead,
          hLast]
        omega
    · have hThird := toNat_ofNat_of_lt (n := v / 64 % 0x40 + 0x80) (by omega)
      split at hEncode
      · have hLead := toNat_ofNat_of_lt (n := v / 4096 % 0x10 + 0xE0) (by omega)
        obtain ⟨low, high, hTails, hBounds⟩ := tails?_three (v := v) (by omega) (by omega) (by omega)
          (hLead.trans (by omega)) hThird
        refine ⟨_, _, encodes_of_tails? hEncode hTails ?_ ?_ ?_⟩
        · simp only [List.forall_mem_cons, List.not_mem_nil, isTail_iff, hThird, hLast]
          exact ⟨by omega, by omega, fun _ h => absurd h id⟩
        · simpa only [List.head?_cons, Option.mem_def, Option.some.injEq, forall_eq'] using hBounds
        · simp only [List.foldl_cons, List.foldl_nil, List.length_cons, List.length_nil, Nat.zero_add, leadBits, hLead,
            hThird, hLast]
          omega
      · have hLead := toNat_ofNat_of_lt (n := v / 262144 % 0x08 + 0xF0) (by omega)
        have hSecond := toNat_ofNat_of_lt (n := v / 4096 % 0x40 + 0x80) (by omega)
        obtain ⟨low, high, hTails, hBounds⟩ := tails?_four (v := v) (by omega) (by omega)
          (hLead.trans (by omega)) hSecond
        refine ⟨_, _, encodes_of_tails? hEncode hTails ?_ ?_ ?_⟩
        · simp only [List.forall_mem_cons, List.not_mem_nil, isTail_iff, hSecond, hThird, hLast]
          exact ⟨by omega, by omega, by omega, fun _ h => absurd h id⟩
        · simpa only [List.head?_cons, Option.mem_def, Option.some.injEq, forall_eq'] using hBounds
        · simp only [List.foldl_cons, List.foldl_nil, List.length_cons, List.length_nil, Nat.zero_add, leadBits, hLead,
            hSecond, hThird, hLast]
          omega

/-- A text that is the encoding of characters. -/
inductive IsText : Bytes → Prop where
  | nil : IsText []
  | cons {c : Char} {lead : UInt8} {tails rest : Bytes} :
    Encodes c lead tails → IsText rest → IsText (lead :: (tails ++ rest))

theorem isText_encode (s : String) : IsText (encode s) := by
  rw [encode]
  induction s.toList with
  | nil => exact .nil
  | cons c cs ih =>
    obtain ⟨lead, tails, h⟩ := exists_encodes c
    rw [List.flatMap_cons, h.encode_eq]
    exact .cons h ih

theorem isText_singleton {b : UInt8} (h : b.toNat < 0x80) : IsText [b] := by
  obtain ⟨lead, tails, hEncodes⟩ := exists_encodes (Char.ofNat b.toNat)
  have hValid : b.toNat.isValidChar := .inl (by omega)
  have hCode : (Char.ofNat b.toNat).toNat = b.toNat := by
    rw [Char.ofNat, dif_pos hValid]
    rfl
  have hEncode := encodeChar_eq _ hCode
  rw [if_pos (by omega), UInt8.ofNat_toNat, hEncodes.encode_eq] at hEncode
  rw [← hEncode, ← List.append_nil tails]
  exact .cons hEncodes .nil

namespace IsText

theorem append {s t : Bytes} (hs : IsText s) (ht : IsText t) : IsText (s ++ t) := by
  induction hs with
  | nil => exact ht
  | cons h _ ih =>
    rw [List.cons_append, List.append_assoc]
    exact .cons h ih

theorem of_ascii {s : Bytes} (h : ∀ b ∈ s, b.toNat < 0x80) : IsText s := by
  induction s with
  | nil => exact .nil
  | cons b s ih =>
    exact (isText_singleton (h b List.mem_cons_self)).append (ih fun c hc => h c (List.mem_cons_of_mem b hc))

theorem repair_eq {s : Bytes} (hs : IsText s) : repair s = s := by
  induction hs with
  | nil => rw [repair, chars, List.flatMap_nil]
  | cons h _ ih =>
    rw [repair] at ih
    rw [repair, chars, h.charAt_eq, List.flatMap_cons, h.encode_eq, List.drop_left, ih, List.cons_append]

theorem head_not_tail {s : Bytes} (hs : IsText s) {b : UInt8} (hb : s.head? = some b) : isTail b = false := by
  cases hs with
  | nil => cases hb
  | cons h _ =>
    cases hb
    exact h.lead_not_tail

end IsText

theorem isBoundary_iff {s : Bytes} {i : Nat} (hi : 0 < i) :
    isBoundary s i = true ↔ i ≤ s.length ∧ ∀ b, s[i]? = some b → isTail b = false := by
  have hZero : (i == 0) = false := beq_false_of_ne (Nat.ne_of_gt hi)
  rw [isBoundary, hZero, Bool.false_or, ← List.head?_drop]
  cases hDrop : s.drop i with
  | nil =>
    have hLength := List.drop_eq_nil_iff.mp hDrop
    simp only [beq_iff_eq, List.head?_nil, reduceCtorEq, false_implies, implies_true, and_true]
    omega
  | cons b rest =>
    have hLength : i < s.length := by
      have := congrArg List.length hDrop
      simp only [List.length_drop, List.length_cons] at this
      omega
    simp only [List.head?_cons, Option.some.injEq, forall_eq', Bool.not_eq_true', and_iff_right (Nat.le_of_lt hLength)]

theorem isBoundary_le {s : Bytes} {i : Nat} (h : isBoundary s i = true) : i ≤ s.length := by
  rcases Nat.eq_zero_or_pos i with rfl | hi
  · exact Nat.zero_le _
  · exact ((isBoundary_iff hi).mp h).1

theorem isBoundary_of_not_tail {s : Bytes} {i : Nat} {b : UInt8} (hb : s[i]? = some b) (hTail : isTail b = false) :
    isBoundary s i = true := by
  rcases Nat.eq_zero_or_pos i with rfl | hi
  · rfl
  · rw [isBoundary_iff hi]
    refine ⟨Nat.le_of_lt (List.getElem?_eq_some_iff.mp hb).1, ?_⟩
    intro c hc
    rw [hb, Option.some.injEq] at hc
    rwa [← hc]

theorem isBoundary_length (s : Bytes) : isBoundary s s.length = true := by
  rcases Nat.eq_zero_or_pos s.length with hi | hi
  · rw [hi]
    rfl
  · simp [isBoundary_iff hi]

theorem slice?_of_boundaries {s : Bytes} {i j : Nat} (hLe : i ≤ j) (hi : isBoundary s i = true)
    (hj : isBoundary s j = true) : slice? s i j = some ((s.take j).drop i) := by
  rw [slice?, hi, hj, if_pos (by simpa using hLe)]

theorem isBoundary_slice {s : Bytes} {i j k : Nat} (h : isBoundary s (i + k) = true)
    (hk : k < ((s.take j).drop i).length) : isBoundary ((s.take j).drop i) k = true := by
  rcases Nat.eq_zero_or_pos k with rfl | hPos
  · rfl
  · rw [isBoundary_iff (Nat.add_pos_right i hPos)] at h
    rw [isBoundary_iff hPos]
    refine ⟨Nat.le_of_lt hk, ?_⟩
    intro b hb
    rw [List.getElem?_drop, List.getElem?_take] at hb
    split at hb
    · exact h.2 b hb
    · cases hb

theorem isBoundary_append {s t : Bytes} {j : Nat} (hj : 0 < j) :
    isBoundary (s ++ t) (s.length + j) = isBoundary t j := by
  rw [Bool.eq_iff_iff, isBoundary_iff hj, isBoundary_iff (Nat.add_pos_right _ hj), List.length_append,
    List.getElem?_append_right (Nat.le_add_right _ _), Nat.add_sub_cancel_left, Nat.add_le_add_iff_left]

namespace IsText

/-- No character has an ASCII byte with more bytes after it. -/
theorem isBoundary_succ {s : Bytes} (hs : IsText s) {i : Nat} {b : UInt8} (hb : s[i]? = some b)
    (hAscii : b.toNat < 0x80) : isBoundary s (i + 1) = true := by
  induction hs generalizing i with
  | nil => cases hb
  | @cons c lead tails rest h hRest ih =>
    rcases Nat.lt_or_ge i (lead :: tails).length with hi | hi
    · cases i with
      | zero =>
        cases hb
        rw [h.ascii hAscii, List.nil_append, isBoundary_iff (Nat.succ_pos 0)]
        refine ⟨by simp, ?_⟩
        intro d hd
        exact hRest.head_not_tail (by rw [List.head?_eq_getElem?]; exact hd)
      | succ j =>
        have hj : j < tails.length := by simpa using hi
        have hMem : b ∈ tails := by
          rw [List.getElem?_cons_succ, List.getElem?_append_left hj] at hb
          exact List.mem_of_getElem? hb
        have hTail := (isTail_iff b).mp (h.tails_tail b hMem)
        omega
    · obtain ⟨k, rfl⟩ := Nat.exists_eq_add_of_le hi
      rw [← List.cons_append] at hb ⊢
      rw [List.getElem?_append_right (Nat.le_add_right _ _), Nat.add_sub_cancel_left] at hb
      rw [Nat.add_assoc, isBoundary_append (Nat.succ_pos k)]
      exact ih hb

theorem cut {s : Bytes} (hs : IsText s) {i : Nat} (hi : isBoundary s i = true) :
    IsText (s.take i) ∧ IsText (s.drop i) := by
  induction hs generalizing i with
  | nil => simp [IsText.nil]
  | @cons c lead tails rest h hRest ih =>
    rcases Nat.eq_zero_or_pos i with rfl | hPos
    · exact ⟨.nil, .cons h hRest⟩
    · rcases Nat.lt_or_ge i (lead :: tails).length with hLt | hGe
      · -- inside the first character there are only tail bytes
        obtain ⟨j, rfl⟩ := Nat.exists_eq_succ_of_ne_zero (Nat.ne_of_gt hPos)
        have hj : j < tails.length := by simpa using hLt
        have hNot := ((isBoundary_iff hPos).mp hi).2 tails[j] (by
          rw [List.getElem?_cons_succ, List.getElem?_append_left hj, List.getElem?_eq_getElem hj])
        rw [h.tails_tail _ (List.getElem_mem hj)] at hNot
        cases hNot
      · obtain ⟨k, rfl⟩ := Nat.exists_eq_add_of_le hGe
        rw [← List.cons_append] at hi ⊢
        rw [List.take_length_add_append, List.drop_length_add_append]
        have hRestCut : IsText (rest.take k) ∧ IsText (rest.drop k) := by
          rcases Nat.eq_zero_or_pos k with rfl | hk
          · exact ⟨.nil, hRest⟩
          · exact ih (isBoundary_append hk ▸ hi)
        exact ⟨.cons h hRestCut.1, hRestCut.2⟩

theorem slice {s : Bytes} (hs : IsText s) {i j : Nat} (hij : i ≤ j) (hi : isBoundary s i = true)
    (hj : isBoundary s j = true) : IsText ((s.take j).drop i) := by
  apply ((hs.cut hj).1.cut _).2
  rcases Nat.eq_zero_or_pos i with rfl | hPos
  · rfl
  · have hLength := isBoundary_le hj
    rw [isBoundary_iff hPos] at hi ⊢
    refine ⟨by rw [List.length_take]; omega, ?_⟩
    intro b hb
    rw [List.getElem?_take] at hb
    split at hb
    · exact hi.2 b hb
    · cases hb

end IsText

theorem isBoundary_left {s : Bytes} (hs : IsText s) (before : Bytes) :
    isBoundary (before ++ s) before.length = true := by
  cases s with
  | nil =>
    rw [List.append_nil]
    exact isBoundary_length before
  | cons b s =>
    refine isBoundary_of_not_tail (b := b) ?_ (hs.head_not_tail rfl)
    rw [List.getElem?_append_right (Nat.le_refl _), Nat.sub_self]
    rfl

namespace IsText

theorem of_cons {b : UInt8} {s : Bytes} (h : IsText (b :: s)) (hb : b.toNat < 0x80) : IsText s :=
  (h.cut (h.isBoundary_succ (i := 0) rfl hb)).2

theorem append_ascii {s t : Bytes} {b : UInt8} (h : IsText (s ++ b :: t)) (hb : b.toNat < 0x80) :
    IsText s ∧ IsText (b :: t) := by
  have hBoundary : isBoundary (s ++ b :: t) s.length = true := by
    refine isBoundary_of_not_tail (b := b) ?_ ((isTail_eq_false_iff b).mpr (.inl hb))
    rw [List.getElem?_append_right (Nat.le_refl _), Nat.sub_self]
    rfl
  have hCut := h.cut hBoundary
  rwa [List.take_left, List.drop_left] at hCut

theorem dropWhile_ascii {p : UInt8 → Bool} (hp : ∀ b, p b = true → b.toNat < 0x80) {s : Bytes} (hs : IsText s) :
    IsText (s.dropWhile p) := by
  induction s with
  | nil => exact hs
  | cons b s ih =>
    rw [List.dropWhile_cons]
    split
    · rename_i hb
      exact ih (hs.of_cons (hp b hb))
    · exact hs

theorem dropWhile_until_ascii {p : UInt8 → Bool} (hp : ∀ b, p b = false → b.toNat < 0x80) {s : Bytes}
    (hs : IsText s) : IsText (s.dropWhile p) := by
  have hSplit := s.takeWhile_append_dropWhile (p := p)
  cases hDrop : s.dropWhile p with
  | nil => exact .nil
  | cons b rest =>
    have hb : p b = false := by
      have hHead := List.head?_dropWhile_not p s
      rw [hDrop] at hHead
      simpa using hHead
    rw [hDrop] at hSplit
    rw [← hSplit] at hs
    exact (hs.append_ascii (hp b hb)).2

end IsText
end ScriptLint.Utf8
