/-!
# Sorting by a key

A stable sort leaves elements with the same key in the order in which it finds them. So the sorted list depends on
nothing but the elements with each key, and it is the only sorted list that has these.
-/
namespace ScriptLint
set_option autoImplicit false

theorem eq_filter_append_filter_not {α : Type} {R : α → α → Prop} {p : α → Bool} {xs : List α} (hx : xs.Pairwise R)
    (hp : ∀ a ∈ xs, ∀ b, R a b → p b = true → p a = true) : xs = xs.filter p ++ xs.filter (fun a => !p a) := by
  induction xs with
  | nil => rfl
  | cons a xs ih =>
    obtain ⟨hFirst, hMore⟩ := List.pairwise_cons.mp hx
    have hCut := ih hMore fun b hb => hp b (List.mem_cons_of_mem a hb)
    cases ha : p a with
    | true =>
      rw [List.filter_cons_of_pos ha, List.filter_cons_of_neg (by simp [ha]), List.cons_append, ← hCut]
    | false =>
      have hNone : xs.filter p = [] := by
        apply List.filter_eq_nil_iff.mpr
        intro b hb hTrue
        rw [hp a List.mem_cons_self b (hFirst b hb) hTrue] at ha
        cases ha
      rw [hNone, List.nil_append] at hCut
      rw [List.filter_cons_of_neg (by simp [ha]), List.filter_cons_of_pos (by simp [ha]), hNone, List.nil_append, ← hCut]

/-- A comparison that ties exactly the elements with the same key. -/
structure ByKey {α κ : Type} (key : α → κ) (le : α → α → Bool) : Prop where
  trans : ∀ a b c, le a b = true → le b c = true → le a c = true
  total : ∀ a b, (le a b || le b a) = true
  tied_iff : ∀ a b, key a = key b ↔ le a b = true ∧ le b a = true

namespace ByKey

variable {α κ : Type} [BEq κ] [LawfulBEq κ] {key : α → κ} {le : α → α → Bool} {xs ys : List α}

omit [BEq κ] [LawfulBEq κ] in
theorem refl (h : ByKey key le) (a : α) : le a a = true := ((h.tied_iff a a).mp rfl).1

theorem filter_mergeSort (h : ByKey key le) (xs : List α) (k : κ) :
    (xs.mergeSort le).filter (key · == k) = xs.filter (key · == k) := by
  have hPairwise : (xs.filter (key · == k)).Pairwise fun a b => le a b = true := by
    refine List.Pairwise.imp_of_mem (R := fun _ _ => True) ?_ (List.pairwise_of_forall fun _ _ => trivial)
    intro a b ha hb _
    have ha := eq_of_beq (List.mem_filter.mp ha).2
    have hb := eq_of_beq (List.mem_filter.mp hb).2
    exact ((h.tied_iff a b).mp (ha.trans hb.symm)).1
  have hSublist := (List.sublist_mergeSort h.trans h.total hPairwise List.filter_sublist).filter (key · == k)
  rw [List.filter_filter] at hSublist
  simp only [Bool.and_self] at hSublist
  exact (hSublist.eq_of_length ((List.mergeSort_perm xs le).filter _).length_eq.symm).symm

theorem mem_iff_of_filter (hSame : ∀ k, xs.filter (key · == k) = ys.filter (key · == k)) (a : α) :
    a ∈ xs ↔ a ∈ ys := by
  have hKey := congrArg (a ∈ ·) (hSame (key a))
  simpa using hKey

theorem eq_of_pairwise (h : ByKey key le) (hx : xs.Pairwise fun a b => le a b = true)
    (hy : ys.Pairwise fun a b => le a b = true)
    (hSame : ∀ k, xs.filter (key · == k) = ys.filter (key · == k)) : xs = ys := by
  induction xs generalizing ys with
  | nil =>
    cases ys with
    | nil => rfl
    | cons b ys => exact absurd ((mem_iff_of_filter hSame b).mpr List.mem_cons_self) List.not_mem_nil
  | cons a xs ih =>
    cases ys with
    | nil => exact absurd ((mem_iff_of_filter hSame a).mp List.mem_cons_self) List.not_mem_nil
    | cons b ys =>
      obtain ⟨hFirst, hxs⟩ := List.pairwise_cons.mp hx
      obtain ⟨hFirst', hys⟩ := List.pairwise_cons.mp hy
      -- each of the two first elements is in the other list, so they have the same key
      have hab : le a b = true := by
        rcases List.mem_cons.mp ((mem_iff_of_filter hSame b).mpr List.mem_cons_self) with rfl | hb
        · exact h.refl b
        · exact hFirst b hb
      have hba : le b a = true := by
        rcases List.mem_cons.mp ((mem_iff_of_filter hSame a).mp List.mem_cons_self) with rfl | ha
        · exact h.refl a
        · exact hFirst' a ha
      have hKey : key a = key b := (h.tied_iff a b).mpr ⟨hab, hba⟩
      have hHead := hSame (key a)
      simp only [List.filter_cons, hKey, beq_self_eq_true, if_true] at hHead
      obtain rfl := (List.cons.inj hHead).1
      refine congrArg (a :: ·) (ih hxs hys ?_)
      intro k
      have hTail := hSame k
      simp only [List.filter_cons] at hTail
      split at hTail
      · exact (List.cons.inj hTail).2
      · exact hTail

/-- A sorted list that keeps the order of tied elements is what sorting gives. -/
theorem eq_mergeSort (h : ByKey key le) (hy : ys.Pairwise fun a b => le a b = true)
    (hSame : ∀ k, ys.filter (key · == k) = xs.filter (key · == k)) : ys = xs.mergeSort le := by
  apply h.eq_of_pairwise hy (List.pairwise_mergeSort h.trans h.total xs)
  intro k
  exact (hSame k).trans (h.filter_mergeSort xs k).symm

theorem mergeSort_eq_mergeSort (h : ByKey key le) (hSame : ∀ k, xs.filter (key · == k) = ys.filter (key · == k)) :
    xs.mergeSort le = ys.mergeSort le := by
  apply h.eq_mergeSort (List.pairwise_mergeSort h.trans h.total xs)
  intro k
  exact (h.filter_mergeSort xs k).trans (hSame k)

theorem filter_merge (h : ByKey key le) (hx : xs.Pairwise fun a b => le a b = true)
    (hy : ys.Pairwise fun a b => le a b = true) (k : κ) :
    (xs.merge ys le).filter (key · == k) = xs.filter (key · == k) ++ ys.filter (key · == k) := by
  induction xs, ys using List.merge.induct le with
  | case1 ys => simp
  | case2 xs => simp
  | case3 x xs y ys hLe ih =>
    rw [List.cons_merge_cons, if_pos hLe, ← List.singleton_append, List.filter_append, ih hx.tail hy, ← List.append_assoc,
      ← List.filter_append, List.singleton_append]
  | case4 x xs y ys hLe ih =>
    rw [List.cons_merge_cons, if_neg hLe, List.filter_cons, ih hx hy.tail]
    split
    · rename_i hKey
      -- all of the first list comes after `y`, so none of it has the key of `y`
      have hNone : (x :: xs).filter (key · == k) = [] := by
        rw [List.filter_eq_nil_iff]
        intro a ha hSame
        have hay := ((h.tied_iff a y).mp ((eq_of_beq hSame).trans (eq_of_beq hKey).symm)).1
        rcases List.mem_cons.mp ha with rfl | ha
        · exact hLe hay
        · exact hLe (h.trans x a y (List.rel_of_pairwise_cons hx ha) hay)
      rw [hNone, List.filter_cons, if_pos hKey]
      rfl
    · rename_i hKey
      rw [List.filter_cons (x := y), if_neg hKey]

theorem mergeSort_append (h : ByKey key le) (xs ys : List α) :
    (xs ++ ys).mergeSort le = (xs.mergeSort le).merge (ys.mergeSort le) le := by
  have hx := List.pairwise_mergeSort h.trans h.total xs
  have hy := List.pairwise_mergeSort h.trans h.total ys
  refine (h.eq_mergeSort (List.pairwise_merge h.trans h.total _ _ hx hy) ?_).symm
  intro k
  rw [h.filter_merge hx hy, h.filter_mergeSort, h.filter_mergeSort, List.filter_append]

omit [BEq κ] [LawfulBEq κ] in
/-- A sorted list whose elements belong to groups that follow each other has the groups in their order. -/
theorem eq_flatMap_filter {γ : Type} {groups : List γ} {p : γ → α → Bool} (h : ByKey key le)
    (hx : xs.Pairwise fun a b => le a b = true)
    (hGroups : groups.Pairwise fun g g' => ∀ a b, p g a = true → p g' b = true → ¬le b a = true)
    (hAll : ∀ a ∈ xs, ∃ g ∈ groups, p g a = true) : xs = groups.flatMap fun g => xs.filter (p g) := by
  induction groups generalizing xs with
  | nil =>
    apply List.eq_nil_iff_forall_not_mem.mpr
    intro a ha
    obtain ⟨g, hg, -⟩ := hAll a ha
    cases hg
  | cons g more ih =>
    obtain ⟨hFirst, hMore⟩ := List.pairwise_cons.mp hGroups
    have hRest := ih (hx.filter fun a => !p g a) hMore (by
      intro a ha
      obtain ⟨ha, hNot⟩ := List.mem_filter.mp ha
      obtain ⟨g', hg', hIn⟩ := hAll a ha
      rcases List.mem_cons.mp hg' with rfl | hg'
      · rw [hIn] at hNot
        cases hNot
      · exact ⟨g', hg', hIn⟩)
    have hSplit : xs = xs.filter (p g) ++ xs.filter (fun a => !p g a) := by
      apply eq_filter_append_filter_not hx
      intro a ha b hLe hb
      obtain ⟨g', hg', hIn⟩ := hAll a ha
      rcases List.mem_cons.mp hg' with rfl | hg'
      · exact hIn
      · exact absurd hLe (hFirst g' hg' b a hb hIn)
    have hSame : ∀ g' ∈ more, (xs.filter fun a => !p g a).filter (p g') = xs.filter (p g') := by
      intro g' hg'
      rw [List.filter_filter]
      apply List.filter_congr
      intro a _
      -- an element of both groups would come strictly before itself
      cases hIn : p g a with
      | false => simp
      | true =>
        cases hIn' : p g' a with
        | false => rfl
        | true => exact absurd (h.refl a) (hFirst g' hg' a a hIn hIn')
    rw [List.flatMap_def, List.map_congr_left hSame, ← List.flatMap_def] at hRest
    rw [List.flatMap_cons, ← hRest]
    exact hSplit

end ByKey
end ScriptLint
