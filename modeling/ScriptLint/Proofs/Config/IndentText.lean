import ScriptLint.Proofs.Config.Indent

/-!
# Writing indentations and reading them back

What is written for an indentation, as a text or as a value, denotes it. Numbers have 64 bits, and the number behind a
sign is read before the sign counts, so one shift can be written and not be read: the lowest, whose size is one more than
that of the highest.
-/
namespace ScriptLint.Indent
set_option autoImplicit false

/-- Widths are unsigned and shifts are signed numbers of 64 bits. -/
def Fits : Indent → Prop
  | auto => True
  | absolute width => width < 2 ^ 64
  | relative shift => -2 ^ 63 ≤ shift ∧ shift < 2 ^ 63

instance : DecidablePred Fits
  | auto => inferInstanceAs (Decidable True)
  | absolute width => inferInstanceAs (Decidable (width < 2 ^ 64))
  | relative shift => inferInstanceAs (Decidable (-2 ^ 63 ≤ shift ∧ shift < 2 ^ 63))

/-- The indentation that a value denotes. -/
inductive Describes : Value → Indent → Prop
  | width {n : Nat} (h : n < 2 ^ 63) : Describes (.int n) (.absolute n)
  | text {s : String} {indent : Indent} (h : Denotes (WhiteSpace.trimChars s.toList) indent) :
    Describes (.string s) indent

variable {s : List Char} {indent : Indent}

theorem not_isMember_of_digit {c : Char} (h : '0' ≤ c ∧ c ≤ '9') : WhiteSpace.isMember c = false := by
  have hZero : 0x30 ≤ c.toNat := h.1
  have hNine : c.toNat ≤ 0x39 := h.2
  simp only [WhiteSpace.isMember, WhiteSpace.ranges, List.any_cons, List.any_nil, Bool.or_eq_false_iff,
    Bool.and_eq_false_iff, decide_eq_false_iff_not, and_true]
  omega

theorem Numeral.not_isMember {n : Nat} (h : Numeral s n) : ∀ c ∈ s, WhiteSpace.isMember c = false :=
  fun c hc => not_isMember_of_digit (h.digits c hc)

theorem Denotes.not_isMember (h : Denotes s indent) : ∀ c ∈ s, WhiteSpace.isMember c = false := by
  cases h with
  | auto ha hu ht ho =>
    simp only [List.forall_mem_cons]
    refine ⟨?_, ?_, ?_, ?_, fun _ h => nomatch h⟩
    · rcases ha with rfl | rfl <;> decide
    · rcases hu with rfl | rfl <;> decide
    · rcases ht with rfl | rfl <;> decide
    · rcases ho with rfl | rfl <;> decide
  | absolute h => exact h.not_isMember
  | longer h | shorter h => exact List.forall_mem_cons.mpr ⟨by decide, h.not_isMember⟩

theorem Denotes.trimChars_eq (h : Denotes s indent) : WhiteSpace.trimChars s = s := by
  rw [WhiteSpace.trimChars_eq_iff]
  refine ⟨⟨[], [], (List.append_nil s).symm, fun _ h => nomatch h⟩, ?_, ?_⟩
  · intro c hc
    exact h.not_isMember c (List.mem_of_mem_head? hc)
  · intro c hc
    exact h.not_isMember c (List.mem_of_getLast? hc)

theorem Denotes.fits (h : Denotes s indent) : indent.Fits ∧ indent ≠ .relative (-2 ^ 63) := by
  cases h with
  | auto => exact ⟨trivial, by simp⟩
  | absolute h hn => exact ⟨hn, by simp⟩
  | longer h hn | shorter h hn =>
    rw [Fits, ne_eq, relative.injEq]
    omega

theorem numeral_toDigits (n : Nat) : Numeral (Nat.toDigits 10 n) n where
  nonempty := Nat.toDigits_ne_nil
  digits c hc := isDigit_iff.mp (Nat.isDigit_of_mem_toDigits (by decide) (by decide) hc)
  value := by
    have hDecimal : decimal (Nat.toDigits 10 n) = Nat.ofDigitChars 10 (Nat.toDigits 10 n) 0 := by
      rw [decimal, Nat.ofDigitChars_eq_foldl]
      simp only [Nat.mul_comm 10]
      rfl
    rw [← decimal_eq_ofDigits, hDecimal, Nat.ofDigitChars_ten_toDigits]

theorem toList_text_absolute (width : Nat) : (absolute width).text.toList = Nat.toDigits 10 width := by
  rw [text, Nat.toString_eq_repr, Nat.toList_repr]

theorem toList_text_relative (shift : Int) :
    (relative shift).text.toList = (if shift < 0 then '-' else '+') :: Nat.toDigits 10 shift.natAbs := by
  rw [text]
  split
  · rename_i h
    rw [Int.toString_eq_repr, Int.repr_eq_if, if_neg (by omega), String.toList_append, Nat.toList_repr]
    rw [show (-shift).toNat = shift.natAbs by omega]
    rfl
  · rename_i h
    rw [Int.toString_eq_repr, Int.repr_eq_if, if_pos (by omega), String.toList_append, Nat.toList_repr]
    rw [show shift.toNat = shift.natAbs by omega]
    rfl

theorem denotes_text (h : indent.Fits) (hLowest : indent ≠ .relative (-2 ^ 63)) :
    Denotes indent.text.toList indent := by
  cases indent with
  | auto => exact .auto (.inl rfl) (.inl rfl) (.inl rfl) (.inl rfl)
  | absolute width =>
    rw [toList_text_absolute]
    exact .absolute (numeral_toDigits width) h
  | relative shift =>
    rw [Fits] at h
    rw [ne_eq, relative.injEq] at hLowest
    have hSize : shift.natAbs < 2 ^ 63 := by omega
    rw [toList_text_relative]
    split
    · have hShift : shift = -shift.natAbs := by omega
      have hDenotes := Denotes.shorter (numeral_toDigits shift.natAbs) hSize
      rwa [← hShift] at hDenotes
    · have hShift : shift = shift.natAbs := by omega
      have hDenotes := Denotes.longer (numeral_toDigits shift.natAbs) hSize
      rwa [← hShift] at hDenotes

theorem readIndent_int (n : Int) : Settings.readIndent (.int n) = .ok indent ↔ Describes (.int n) indent := by
  have hPow : Int.pow 2 63 = 2 ^ 63 := rfl
  rw [Settings.readIndent, hPow]
  constructor
  · intro h
    split at h
    · cases h
    · split at h
      · cases h
      · rename_i hRange hSign
        obtain rfl := Except.ok.inj h
        obtain ⟨width, rfl⟩ := Int.eq_ofNat_of_zero_le (Int.not_lt.mp hSign)
        exact .width (by omega)
  · rintro ⟨hLimit⟩
    rw [if_neg (by omega), if_neg (by omega)]
    rfl

theorem readIndent_eq_ok_iff {value : Value} : Settings.readIndent value = .ok indent ↔ Describes value indent := by
  cases value with
  | int n => exact readIndent_int n
  | string s =>
    rw [Settings.readIndent]
    constructor
    · intro h
      split at h
      · rename_i hRead
        obtain rfl := Except.ok.inj h
        exact .text (parse?_eq_some_iff.mp hRead)
      · cases h
    · rintro ⟨⟩
      rename_i h
      rw [parse?_eq_some_iff.mpr h]
  | null | bool | float | array | object => exact iff_of_false (fun h => nomatch h) (fun h => nomatch h)

/-- Widths that a signed number of 64 bits cannot hold are written as texts. -/
theorem describes_toValue (h : indent.Fits) (hLowest : indent ≠ .relative (-2 ^ 63)) :
    Describes indent.toValue indent := by
  have hText : Describes (.string indent.text) indent := by
    have hDenotes := denotes_text h hLowest
    apply Describes.text
    rwa [hDenotes.trimChars_eq]
  cases indent with
  | auto | relative => exact hText
  | absolute width =>
    rw [toValue]
    split
    · rename_i hSmall
      exact .width hSmall
    · exact hText

theorem Describes.fits {value : Value} (h : Describes value indent) : indent.Fits ∧ indent ≠ .relative (-2 ^ 63) := by
  cases h with
  | width hn => exact ⟨Nat.lt_trans hn (by decide), by simp⟩
  | text h => exact h.fits

/-- Every indentation but the lowest shift can be read back from its text and from its value. -/
theorem written_reads_back (indent : Indent) (h : indent.Fits) :
    (parse indent.text = .ok indent ↔ indent ≠ .relative (-2 ^ 63)) ∧
      (Settings.readIndent indent.toValue = .ok indent ↔ indent ≠ .relative (-2 ^ 63)) := by
  constructor
  · rw [parse_eq_ok_iff]
    constructor
    · intro hDenotes
      exact hDenotes.fits.2
    · intro hLowest
      have hDenotes := denotes_text h hLowest
      rwa [hDenotes.trimChars_eq]
  · rw [readIndent_eq_ok_iff]
    constructor
    · intro hDescribes
      exact hDescribes.fits.2
    · intro hLowest
      exact describes_toValue h hLowest

theorem written_reads_back_limits :
    ((absolute (2 ^ 64 - 1)).Fits ∧ (absolute (2 ^ 64 - 1)).toValue = .string "18446744073709551615" ∧
      parse "18446744073709551615" = .ok (absolute (2 ^ 64 - 1)) ∧
      Settings.readIndent (.string "18446744073709551615") = .ok (absolute (2 ^ 64 - 1))) ∧
    (relative (1 - 2 ^ 63)).Fits ∧ parse "-9223372036854775807" = .ok (relative (1 - 2 ^ 63)) := by
  have hWidest : (absolute (2 ^ 64 - 1)).Fits := by decide
  have hLow : (relative (1 - 2 ^ 63)).Fits := by decide
  obtain ⟨hText, hValue⟩ := written_reads_back _ hWidest
  refine ⟨⟨hWidest, rfl, hText.mpr (by decide), hValue.mpr (by decide)⟩, hLow, ?_⟩
  exact (written_reads_back _ hLow).1.mpr (by decide)

theorem lowest_shift_unread :
    (relative (-2 ^ 63)).Fits ∧
      parse (relative (-2 ^ 63)).text = .error (.invalidIndent "-9223372036854775808") ∧
      Settings.readIndent (relative (-2 ^ 63)).toValue = .error (.invalidIndent "-9223372036854775808") :=
  ⟨by decide, rfl, rfl⟩

end ScriptLint.Indent
