import Mathlib.Order.Bounds.Basic
import ShmNext.Restoration

/-! Requests of an alignment: which of them the doubling loop of `normalize_alignment` is done with. -/
namespace ShmNext

/-- The 64-bit powers of two from 16 on that cover the request. -/
def coveringPowers (requested : ℕ) : Set ℕ := {A | ∃ k < 64, A = 2^k ∧ alignment ≤ A ∧ requested ≤ A}

/-- The loop ends with the least power that covers the request, and where there is none the request is refused. -/
structure Normalizes (requested : ℕ) : Prop where
  ends : ∃ fuel A, normalizeLoop requested fuel alignment = some A
  least : (coveringPowers requested).Nonempty → ∃ A, normalizeAlignment requested = some A ∧ IsLeast (coveringPowers requested) A
  refused : coveringPowers requested = ∅ → ∀ (s : Allocator) (n : ℕ), n ≠ 0 → ∃ e s', (allocate n requested).run s = (.error e, s')

theorem coveringPowers_nonempty_iff {requested : ℕ} : (coveringPowers requested).Nonempty ↔ requested ≤ 2^63 := by
  constructor
  · intro h
    obtain ⟨A, k, hk, hA, -, hr⟩ := h
    calc requested ≤ A := hr
      _ = 2^k := hA
      _ ≤ 2^63 := Nat.pow_le_pow_right (by decide) (by omega)
  · intro hr
    exact ⟨2^63, 63, by decide, rfl, by decide, hr⟩

/-- A power that covers the request is past every round that goes on. -/
theorem normalizeLoop_le {requested fuel j k A : ℕ} (hjk : j ≤ k) (hk : k < 64) (hr : requested ≤ 2^k)
    (h : normalizeLoop requested fuel (2^j) = some A) : A ≤ 2^k := by
  induction fuel generalizing j with
  | zero =>
    unfold normalizeLoop at h
    split_ifs at h
    rw [← Option.some.inj h]
    exact Nat.pow_le_pow_right (by decide) hjk
  | succ n ih =>
    unfold normalizeLoop at h
    split_ifs at h with hlt
    · have hlast : j < k := (Nat.pow_lt_pow_iff_right (by decide : 1 < 2)).mp (hlt.trans_le hr)
      rw [Nat.shiftLeft_eq, ← pow_add, Nat.mod_eq_of_lt (Nat.pow_lt_pow_right (by decide) (by omega))] at h
      exact ih hlast h
    · rw [← Option.some.inj h]
      exact Nat.pow_le_pow_right (by decide) hjk

/-- What the loop ends with is the least power that covers the request. -/
theorem normalizeLoop_isLeast {requested fuel A : ℕ} (h : normalizeLoop requested fuel alignment = some A) :
    IsLeast (coveringPowers requested) A := by
  obtain ⟨j, hj, hj', hA, hr⟩ := normalizeLoop_some (k := 4) (le_refl 4) (by decide) h
  have hge : alignment ≤ A := by
    rw [hA]
    exact Nat.pow_le_pow_right (n := 2) (by decide) hj
  refine ⟨⟨j, hj', hA, hge, hr⟩, fun B hB => ?_⟩
  obtain ⟨k, hk, rfl, hsixteen, hcover⟩ := hB
  have h4 : 4 ≤ k := (Nat.pow_le_pow_iff_right (by decide : 1 < 2)).mp hsixteen
  exact normalizeLoop_le h4 hk hcover h

/-- A request past the last power keeps the loop going for ever. -/
theorem normalizeLoop_endless {requested : ℕ} (hr : 2^63 < requested) (fuel : ℕ) : normalizeLoop requested fuel alignment = none := by
  by_contra hsome
  obtain ⟨A, hA⟩ := Option.ne_none_iff_exists'.mp hsome
  have hcovered := coveringPowers_nonempty_iff.mp ⟨A, (normalizeLoop_isLeast hA).1⟩
  omega

/-- `normalize_alignment` is in order exactly for the requests up to the last power of two. -/
theorem normalize_alignment_exact (requested : ℕ) : Normalizes requested ↔ requested ≤ 2^63 := by
  constructor
  · intro h
    obtain ⟨fuel, A, hA⟩ := h.ends
    exact coveringPowers_nonempty_iff.mp ⟨A, (normalizeLoop_isLeast hA).1⟩
  · intro hr
    obtain ⟨A, hA⟩ := normalizeAlignment_of_le hr
    refine ⟨⟨64, A, hA⟩, fun _ => ⟨A, hA, normalizeLoop_isLeast hA⟩, fun hnone => ?_⟩
    exact absurd (coveringPowers_nonempty_iff.mpr hr) (hnone ▸ Set.not_nonempty_empty)

/-- Every entry that normalises an alignment runs on for ever, `try_expand` on a live payload. -/
theorem unnormalizable_hangs {requested n : ℕ} (hr : 2^63 < requested) (hn : n ≠ 0) :
    (∀ s, ((allocate n requested).run s).1 = .hang) ∧ (∀ s k, ((allocateMany n (k+1) requested).run s).1 = .hang) ∧
      ∀ g, Reachable g → ∀ a ∈ g.live, ((tryExpand a.payload n requested).run g.alloc).1 = .hang := by
  have ha : normalizeAlignment requested = none := normalizeLoop_endless hr 64
  refine ⟨fun s => ?_, fun s k => ?_, fun g hg a hal => ?_⟩
  · obtain ⟨d, -, hrun, -⟩ := allocate_hang (s := s) hn ha
    rw [hrun]
  · unfold allocateMany
    rw [run_count_bind]
    obtain ⟨d, hrun⟩ := @HeapInv.allocateManyLoop_hang _ n requested k [] hn ha
    rw [hrun]
  · obtain ⟨bs, l, hinv⟩ := hg.inv
    obtain ⟨b, hb, hholds⟩ := hinv.placed a hal
    obtain ⟨d, -, hrun, -⟩ := hinv.toSane.tryExpand_hang hb hholds.allocated hholds.namesBlock (Nat.pos_of_ne_zero hn) ha
    rw [hrun]

/-- `allocate(8, 2^63+1)` on a fresh segment never returns. -/
theorem unnormalizable_request : ¬Normalizes (2^63+1) ∧ Reachable smallHeap ∧ ((allocate 8 (2^63+1)).run smallHeap.alloc).1 = .hang := by
  refine ⟨fun h => ?_, smallHeap_reachable, (unnormalizable_hangs (by decide) (by decide)).1 _⟩
  obtain ⟨fuel, A, hA⟩ := h.ends
  rw [normalizeLoop_endless (by decide)] at hA
  cases hA

end ShmNext
