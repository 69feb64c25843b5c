import Mathlib.Data.Nat.Digits.Defs
import ScriptLint.Config.Error
import ScriptLint.Proofs.Text.WhiteSpace

/-!
# The notation of indentations

A text describes an indentation exactly if it is, but for white space around it, the word `auto` in any case or a numeral
with or without a sign. A numeral has any number of digits; what is limited is the number that it writes.
-/
namespace ScriptLint.Indent
set_option autoImplicit false

/-- One or more ASCII digits and the number that they write, the last of them counting ones. -/
structure Numeral (s : List Char) (n : Nat) : Prop where
  nonempty : s ≠ []
  digits : ∀ c ∈ s, '0' ≤ c ∧ c ≤ '9'
  value : Nat.ofDigits 10 (s.reverse.map fun c => c.toNat - '0'.toNat) = n

/-- The indentation that a text without white space around it denotes. -/
inductive Denotes : List Char → Indent → Prop
  | auto {a u t o : Char} (ha : a = 'a' ∨ a = 'A') (hu : u = 'u' ∨ u = 'U') (ht : t = 't' ∨ t = 'T')
    (ho : o = 'o' ∨ o = 'O') : Denotes [a, u, t, o] .auto
  | absolute {s : List Char} {n : Nat} (h : Numeral s n) (hn : n < 2 ^ 64) : Denotes s (.absolute n)
  | longer {s : List Char} {n : Nat} (h : Numeral s n) (hn : n < 2 ^ 63) : Denotes ('+' :: s) (.relative n)
  | shorter {s : List Char} {n : Nat} (h : Numeral s n) (hn : n < 2 ^ 63) : Denotes ('-' :: s) (.relative (-n))

variable {s : List Char}

theorem decimal_concat (s : List Char) (c : Char) : decimal (s ++ [c]) = decimal s * 10 + (c.toNat - 0x30) := by
  rw [decimal, List.foldl_append]
  rfl

theorem decimal_eq_ofDigits (s : List Char) :
    decimal s = Nat.ofDigits 10 (s.reverse.map fun c => c.toNat - '0'.toNat) := by
  -- digits are read from the front, so the last one is split off
  induction h : s.reverse generalizing s with
  | nil =>
    rw [List.reverse_eq_nil_iff.mp h]
    rfl
  | cons c front ih =>
    have hs : s = front.reverse ++ [c] := by rw [← List.reverse_cons, ← h, List.reverse_reverse]
    rw [hs, decimal_concat, ih front.reverse (List.reverse_reverse front), List.map_cons, Nat.ofDigits_cons,
      Nat.mul_comm, Nat.add_comm]
    rfl

theorem isDigit_iff {c : Char} : c.isDigit = true ↔ '0' ≤ c ∧ c ≤ '9' := by
  rw [Char.isDigit, Bool.and_eq_true, decide_eq_true_iff, decide_eq_true_iff]
  rfl

theorem number?_eq_some_iff {limit n : Nat} : number? limit s = some n ↔ Numeral s n ∧ n < limit := by
  rw [number?, decimal_eq_ofDigits]
  constructor
  · intro h
    split at h
    · rename_i hCheck
      simp only [Bool.and_eq_true, Bool.not_eq_true', List.isEmpty_eq_false_iff, List.all_eq_true, decide_eq_true_iff]
        at hCheck
      obtain ⟨⟨hSome, hDigits⟩, hLimit⟩ := hCheck
      obtain rfl := Option.some.inj h
      exact ⟨⟨hSome, fun c hc => isDigit_iff.mp (hDigits c hc), rfl⟩, hLimit⟩
    · cases h
  · rintro ⟨⟨hSome, hDigits, rfl⟩, hLimit⟩
    rw [if_pos]
    simp only [Bool.and_eq_true, Bool.not_eq_true', List.isEmpty_eq_false_iff, List.all_eq_true, decide_eq_true_iff]
    exact ⟨⟨hSome, fun c hc => isDigit_iff.mpr (hDigits c hc)⟩, hLimit⟩

theorem map_number?_eq_some_iff {limit : Nat} {f : Nat → Indent} {indent : Indent} :
    (number? limit s).map f = some indent ↔ ∃ n, (Numeral s n ∧ n < limit) ∧ f n = indent := by
  simp only [Option.map_eq_some_iff, number?_eq_some_iff]

theorem toNat_toLower (c : Char) :
    c.toLower.toNat = if 'A'.toNat ≤ c.toNat ∧ c.toNat ≤ 'Z'.toNat then c.toNat + 32 else c.toNat := by
  split
  · rename_i h
    have hVal : c.toLower.val = c.val + 32 := congrArg Char.val (dif_pos h)
    have hSum : c.toNat + 32 < 2 ^ 32 := Nat.lt_of_le_of_lt (Nat.add_le_add_right h.2 32) (by decide)
    rw [Char.toNat, hVal, UInt32.toNat_add]
    exact Nat.mod_eq_of_lt hSum
  · rename_i h
    exact congrArg Char.toNat (dif_neg h)

theorem toLower_eq_iff {c small capital : Char} (hSmall : 'a'.toNat ≤ small.toNat)
    (hCapital : capital.toNat + 32 = small.toNat) (hZ : small.toNat ≤ 'z'.toNat) :
    c.toLower = small ↔ c = small ∨ c = capital := by
  rw [← Char.toNat_inj, toNat_toLower, ← Char.toNat_inj, ← Char.toNat_inj]
  simp only [Char.reduceToNat] at *
  split <;> omega

theorem isAuto_iff : isAuto s = true ↔ Denotes s .auto := by
  have hA (c : Char) : c.toLower = 'a' ↔ c = 'a' ∨ c = 'A' := toLower_eq_iff (by decide) (by decide) (by decide)
  have hU (c : Char) : c.toLower = 'u' ↔ c = 'u' ∨ c = 'U' := toLower_eq_iff (by decide) (by decide) (by decide)
  have hT (c : Char) : c.toLower = 't' ↔ c = 't' ∨ c = 'T' := toLower_eq_iff (by decide) (by decide) (by decide)
  have hO (c : Char) : c.toLower = 'o' ↔ c = 'o' ∨ c = 'O' := toLower_eq_iff (by decide) (by decide) (by decide)
  rw [isAuto, beq_iff_eq]
  constructor
  · intro h
    have hLength : s.length = 4 := by rw [← List.length_map Char.toLower, h]; rfl
    match s, hLength with
    | [a, u, t, o], _ =>
      simp only [List.map_cons, List.map_nil, List.cons.injEq, and_true, hA, hU, hT, hO] at h
      exact .auto h.1 h.2.1 h.2.2.1 h.2.2.2
  · rintro ⟨ha, hu, ht, ho⟩
    rw [List.map_cons, List.map_cons, List.map_cons, List.map_cons, (hA _).mpr ha, (hU _).mpr hu, (hT _).mpr ht,
      (hO _).mpr ho]
    rfl

theorem isAuto_cons {c : Char} (rest : List Char) (h : ¬(c = 'a' ∨ c = 'A')) : isAuto (c :: rest) = false := by
  rw [← Bool.not_eq_true, isAuto_iff]
  rintro ⟨ha⟩
  exact h ha

theorem parseChars?_plus (s : List Char) :
    parseChars? ('+' :: s) = (number? shiftLimit s).map fun n : Nat => relative n := by
  rw [parseChars?, isAuto_cons s (by decide)]
  rfl

theorem parseChars?_minus (s : List Char) :
    parseChars? ('-' :: s) = (number? shiftLimit s).map fun n : Nat => relative (-n) := by
  rw [parseChars?, isAuto_cons s (by decide)]
  rfl

theorem parseChars?_numeral {n : Nat} (h : Numeral s n) : parseChars? s = (number? widthLimit s).map absolute := by
  cases s with
  | nil => exact absurd rfl h.nonempty
  | cons c rest =>
    obtain ⟨hZero, hNine⟩ := h.digits c List.mem_cons_self
    have hOther (d : Char) (hd : ¬('0' ≤ d ∧ d ≤ '9')) : c ≠ d := by
      rintro rfl
      exact hd ⟨hZero, hNine⟩
    have hAuto : ¬(c = 'a' ∨ c = 'A') := by
      rintro (hc | hc)
      · exact hOther 'a' (by decide) hc
      · exact hOther 'A' (by decide) hc
    simp only [parseChars?, isAuto_cons rest hAuto, Bool.false_eq_true, if_false,
      if_neg (hOther '+' (by decide)), if_neg (hOther '-' (by decide))]

theorem parseChars?_eq_some_iff {indent : Indent} : parseChars? s = some indent ↔ Denotes s indent := by
  constructor
  · intro h
    rw [parseChars?.eq_def] at h
    split at h
    · rename_i hAuto
      obtain rfl := Option.some.inj h
      exact isAuto_iff.mp hAuto
    · split at h
      · cases h
      · split at h
        · rename_i hSign
          obtain ⟨n, ⟨hNumeral, hLimit⟩, rfl⟩ := map_number?_eq_some_iff.mp h
          exact hSign ▸ .longer hNumeral hLimit
        · split at h
          · rename_i hSign
            obtain ⟨n, ⟨hNumeral, hLimit⟩, rfl⟩ := map_number?_eq_some_iff.mp h
            exact hSign ▸ .shorter hNumeral hLimit
          · obtain ⟨n, ⟨hNumeral, hLimit⟩, rfl⟩ := map_number?_eq_some_iff.mp h
            exact .absolute hNumeral hLimit
  · intro h
    cases h with
    | auto ha hu ht ho => exact if_pos (isAuto_iff.mpr (.auto ha hu ht ho))
    | absolute h hn =>
      rw [parseChars?_numeral h]
      exact map_number?_eq_some_iff.mpr ⟨_, ⟨h, hn⟩, rfl⟩
    | longer h hn =>
      rw [parseChars?_plus]
      exact map_number?_eq_some_iff.mpr ⟨_, ⟨h, hn⟩, rfl⟩
    | shorter h hn =>
      rw [parseChars?_minus]
      exact map_number?_eq_some_iff.mpr ⟨_, ⟨h, hn⟩, rfl⟩

theorem parse?_eq_some_iff {s : String} {indent : Indent} :
    parse? s = some indent ↔ Denotes (WhiteSpace.trimChars s.toList) indent :=
  parseChars?_eq_some_iff

theorem parse?_eq_none_iff {s : String} :
    parse? s = none ↔ ∀ indent, ¬Denotes (WhiteSpace.trimChars s.toList) indent := by
  rw [Option.eq_none_iff_forall_ne_some]
  exact forall_congr' fun indent => not_congr parse?_eq_some_iff

theorem parse_eq_ok_iff {s : String} {indent : Indent} :
    parse s = .ok indent ↔ Denotes (WhiteSpace.trimChars s.toList) indent := by
  rw [← parse?_eq_some_iff, parse]
  cases parse? s with
  | none => simp
  | some found => simp

theorem parse_eq_error_iff {s : String} {error : ConfigError} :
    parse s = .error error ↔
      error = .invalidIndent s ∧ ∀ indent, ¬Denotes (WhiteSpace.trimChars s.toList) indent := by
  rw [← parse?_eq_none_iff, parse]
  cases parse? s with
  | none => simp [eq_comm]
  | some found => simp

/-- A text is read as the indentation that it denotes without the white space around it. One that denotes none is handed
back with its white space. -/
theorem parse_exact (s : String) :
    WhiteSpace.Trims s.toList (WhiteSpace.trimChars s.toList) ∧
      (∀ indent, parse s = .ok indent ↔ Denotes (WhiteSpace.trimChars s.toList) indent) ∧
      ∀ error, parse s = .error error ↔
        error = .invalidIndent s ∧ ∀ indent, ¬Denotes (WhiteSpace.trimChars s.toList) indent :=
  ⟨WhiteSpace.trims_trimChars s.toList, fun _ => parse_eq_ok_iff, fun _ => parse_eq_error_iff⟩

end ScriptLint.Indent
