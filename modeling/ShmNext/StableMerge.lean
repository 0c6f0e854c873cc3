import Mathlib.Data.List.Sort
import Mathlib.Order.Defs.Unbundled

/-! Merges of sorted lists are stable sorts. -/
namespace ShmNext
namespace StableMerge

variable {α : Type} {le lt : α → α → Bool} {as bs : List α} {a b : α} {i j : ℕ}

/-- Elements with their places are in order where they are so without, and stand in the order of their places. -/
theorem zipIdxLE_of_lt (hab : le a b = true) (hij : i < j) : List.zipIdxLE le (a, i) (b, j) = true := by
  unfold List.zipIdxLE
  dsimp only
  rw [if_pos hab]
  by_cases hba : le b a = true
  · rw [if_pos hba]
    exact decide_eq_true hij.le
  · rw [if_neg hba]

theorem pairwise_zipIdx (h : as.Pairwise fun a b => le a b = true) (n : ℕ) :
    (as.zipIdx n).Pairwise fun x y => List.zipIdxLE le x y = true := by
  induction as generalizing n with
  | nil => exact List.Pairwise.nil
  | cons a as ih =>
    obtain ⟨ha, has⟩ := List.pairwise_cons.mp h
    rw [List.zipIdx_cons]
    refine List.pairwise_cons.mpr ⟨fun x hx => ?_, ih has _⟩
    obtain ⟨b, j⟩ := x
    obtain ⟨hj, -, hb⟩ := List.mem_zipIdx hx
    exact zipIdxLE_of_lt (ha b (hb ▸ List.getElem_mem _)) hj

/-- No two places of a list are the same. -/
theorem zipIdxLE_antisymm {x y : α × ℕ} (hx : x ∈ as.zipIdx) (hy : y ∈ as.zipIdx) (hxy : List.zipIdxLE le x y = true)
    (hyx : List.zipIdxLE le y x = true) : x = y := by
  obtain ⟨a, i⟩ := x
  obtain ⟨b, j⟩ := y
  have hij : i = j := by
    unfold List.zipIdxLE at hxy hyx
    grind
  subst hij
  have ha := (List.mem_zipIdx hx).2.2
  have hb := (List.mem_zipIdx hy).2.2
  rw [ha, hb]

/-- The stable sort of two sorted lists, one behind the other, takes from the first one where both are equivalent. -/
theorem mergeSort_append (trans : ∀ a b c, le a b = true → le b c = true → le a c = true) (total : ∀ a b, (le a b || le b a) = true)
    (has : as.Pairwise fun a b => le a b = true) (hbs : bs.Pairwise fun a b => le a b = true) :
    (as ++ bs).mergeSort le = as.merge bs le := by
  have hsplit : (as ++ bs).zipIdx = as.zipIdx ++ bs.zipIdx as.length := by
    rw [List.zipIdx_append, Nat.zero_add]
  have hplaces : ∀ x y, x ∈ as.zipIdx → y ∈ bs.zipIdx as.length → x.2 ≤ y.2 := by
    intro x y hx hy
    have hx := (List.mem_zipIdx hx).2.1
    have hy := (List.mem_zipIdx hy).1
    omega
  have hperm : (as.zipIdx.merge (bs.zipIdx as.length) (List.zipIdxLE le)).Perm (as.zipIdx ++ bs.zipIdx as.length) :=
    List.merge_perm_append (List.zipIdxLE le)
  rw [← hsplit] at hperm
  have hsorted := List.pairwise_mergeSort (List.zipIdxLE_trans trans) (List.zipIdxLE_total total) (as ++ bs).zipIdx
  have hmerged := List.pairwise_merge (List.zipIdxLE_trans trans) (List.zipIdxLE_total total) _ _ (pairwise_zipIdx has 0)
    (pairwise_zipIdx hbs as.length)
  have hsame : (as ++ bs).zipIdx.mergeSort (List.zipIdxLE le) = as.zipIdx.merge (bs.zipIdx as.length) (List.zipIdxLE le) := by
    refine List.Perm.eq_of_pairwise (fun x y hx hy => ?_) hsorted hmerged ((List.mergeSort_perm _ _).trans hperm.symm)
    exact zipIdxLE_antisymm (List.mem_mergeSort.mp hx) (hperm.mem_iff.mp hy)
  rw [← List.mergeSort_zipIdx, hsame, List.merge_stable _ _ hplaces, List.zipIdx_map_fst, List.zipIdx_map_fst]

/-! "Not after", where `lt` says what comes before. -/

theorem not_lt_trans (h : IsStrictWeakOrder α fun a b => lt a b = true) (a b c : α) (hab : (!lt b a) = true) (hbc : (!lt c b) = true) :
    (!lt c a) = true := by
  rw [Bool.not_eq_true'] at hab hbc ⊢
  refine Bool.eq_false_iff.mpr fun hca => ?_
  -- either `b` comes before `a` or `c` before `b`, or `b` is equivalent to both
  have hlt : lt a b = true ∨ lt b a = true ∨ lt b c = true ∨ lt c b = true := by
    by_contra hcon
    push Not at hcon
    exact (h.incomp_trans a b c ⟨hcon.1, hcon.2.1⟩ ⟨hcon.2.2.1, hcon.2.2.2⟩).2 hca
  rcases hlt with hlt | hlt | hlt | hlt
  · rw [h.trans _ _ _ hca hlt] at hbc
    cases hbc
  · rw [hab] at hlt
    cases hlt
  · rw [h.trans _ _ _ hlt hca] at hab
    cases hab
  · rw [hbc] at hlt
    cases hlt

theorem not_lt_total (h : IsStrictWeakOrder α fun a b => lt a b = true) (a b : α) : ((!lt b a) || !lt a b) = true := by
  by_contra hcon
  simp only [Bool.or_eq_true, Bool.not_eq_true', not_or, Bool.not_eq_false] at hcon
  exact h.irrefl a (h.trans _ _ _ hcon.2 hcon.1)

end StableMerge
end ShmNext
