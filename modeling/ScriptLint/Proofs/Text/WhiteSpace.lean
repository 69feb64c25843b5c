import ScriptLint.Text.WhiteSpace

/-!
# Trimming

The trimmed text is what is left between two runs of white space when neither can be made longer.
-/
namespace ScriptLint.WhiteSpace
set_option autoImplicit false

/-- `t` is `s` without the white space at both ends. -/
structure Trims (s t : List Char) : Prop where
  split : ∃ before after, s = before ++ (t ++ after) ∧ ∀ c ∈ before ++ after, isMember c = true
  first : ∀ c, t.head? = some c → isMember c = false
  last : ∀ c, t.getLast? = some c → isMember c = false

theorem isMember_head_dropWhile {s : List Char} {c : Char} (h : (s.dropWhile isMember).head? = some c) :
    isMember c = false := by
  have hNot := List.head?_dropWhile_not isMember s
  rw [h] at hNot
  exact hNot

theorem dropWhile_of_head {s : List Char} (h : ∀ c, s.head? = some c → isMember c = false) :
    s.dropWhile isMember = s := by
  cases s with
  | nil => rfl
  | cons c rest => rw [List.dropWhile_cons, h c rfl, if_neg Bool.false_ne_true]

theorem mem_takeWhile {s : List Char} {c : Char} (h : c ∈ s.takeWhile isMember) : isMember c = true :=
  List.all_eq_true.mp List.all_takeWhile c h

theorem trims_trimChars (s : List Char) : Trims s (trimChars s) := by
  have hFront : s.takeWhile isMember ++ s.dropWhile isMember = s := List.takeWhile_append_dropWhile
  have hBack : trimChars s ++ ((s.dropWhile isMember).reverse.takeWhile isMember).reverse = s.dropWhile isMember := by
    rw [trimChars, ← List.reverse_append, List.takeWhile_append_dropWhile, List.reverse_reverse]
  constructor
  · refine ⟨s.takeWhile isMember, ((s.dropWhile isMember).reverse.takeWhile isMember).reverse, ?_, ?_⟩
    · rw [hBack, hFront]
    · intro c hc
      rcases List.mem_append.mp hc with hc | hc
      · exact mem_takeWhile hc
      · exact mem_takeWhile (List.mem_reverse.mp hc)
  · intro c hc
    apply isMember_head_dropWhile (s := s)
    rw [← hBack, List.head?_append, hc, Option.some_or]
  · intro c hc
    apply isMember_head_dropWhile (s := (s.dropWhile isMember).reverse)
    rw [trimChars, List.getLast?_reverse] at hc
    exact hc

theorem trimChars_eq_iff {s t : List Char} : trimChars s = t ↔ Trims s t := by
  constructor
  · rintro rfl
    exact trims_trimChars s
  · rintro ⟨⟨before, after, rfl, hSpace⟩, hFirst, hLast⟩
    have hBefore : ∀ c ∈ before, isMember c = true := fun c hc => hSpace c (List.mem_append_left after hc)
    have hAfter : ∀ c ∈ after.reverse, isMember c = true := fun c hc =>
      hSpace c (List.mem_append_right before (List.mem_reverse.mp hc))
    have hLast' : t.reverse.dropWhile isMember = t.reverse := by
      apply dropWhile_of_head
      intro c hc
      exact hLast c (by rwa [List.head?_reverse] at hc)
    rw [trimChars, List.dropWhile_append_of_pos hBefore]
    -- a text of white space only is trimmed away from its front
    cases t with
    | nil =>
      have hEmpty : after.dropWhile isMember = [] := by
        have hDrop : (after ++ []).dropWhile isMember = [] :=
          List.dropWhile_append_of_pos fun c hc => hAfter c (List.mem_reverse.mpr hc)
        rwa [List.append_nil] at hDrop
      rw [List.nil_append, hEmpty]
      rfl
    | cons c t =>
      rw [dropWhile_of_head (s := c :: t ++ after) hFirst, List.reverse_append, List.dropWhile_append_of_pos hAfter,
        hLast', List.reverse_reverse]

end ScriptLint.WhiteSpace
