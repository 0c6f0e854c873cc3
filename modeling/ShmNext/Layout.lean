import Mathlib.Data.Nat.Bitwise
import ShmNext.BlockAllocator

/-! `align_up`, `normalize_alignment` and `make_layout` in 64-bit arithmetic, against
the layout that exact arithmetic gives. -/
namespace ShmNext

/-- Masking with the complement of `2^k-1` drops the low `k` bits. -/
theorem and_not64_mask {x k : ℕ} (hx : x < 2^64) (hk : k < 64) :
    x &&& not64 (2^k-1) = x/2^k*2^k := by
  have hpow : 2^k*2^(64-k) = 2^64 := by rw [← pow_add]; congr 1; omega
  have hmask : not64 (2^k-1) = (2^(64-k)-1) <<< k := by
    have := Nat.two_pow_pos k
    unfold not64
    rw [Nat.shiftLeft_eq, Nat.sub_mul, mul_comm, hpow]
    omega
  rw [hmask, ← Nat.shiftRight_eq_div_pow, ← Nat.shiftLeft_eq]
  refine Nat.eq_of_testBit_eq fun i => ?_
  rw [Nat.testBit_and, Nat.testBit_shiftLeft, Nat.testBit_shiftLeft, Nat.testBit_two_pow_sub_one,
    Nat.testBit_shiftRight]
  by_cases hi : k ≤ i
  · simp only [hi, decide_true, Bool.true_and, Nat.add_sub_cancel' hi]
    by_cases hi' : i-k < 64-k
    · simp [hi']
    · rw [Nat.testBit_lt_two_pow (lt_of_lt_of_le hx (Nat.pow_le_pow_right (by omega) (by omega)))]
      simp
  · simp [hi]

theorem alignDown_eq {value k : ℕ} (hv : value < 2^64) (hk : k < 64) :
    alignDown value (2^k) = value/2^k*2^k := by
  have hpos := Nat.two_pow_pos k
  have hlt : 2^k < 2^64 := Nat.pow_lt_pow_right (by omega) hk
  have hsub : sub64 (2^k) 1 = 2^k-1 := by unfold sub64; omega
  unfold alignDown
  rw [hsub, and_not64_mask hv hk]

theorem alignUp_eq {value k : ℕ} (hk : k < 64) :
    alignUp value (2^k) = (value+2^k-1)%2^64/2^k*2^k := by
  have hpos := Nat.two_pow_pos k
  have hlt : 2^k < 2^64 := Nat.pow_lt_pow_right (by omega) hk
  have hsub : sub64 (2^k) 1 = 2^k-1 := by unfold sub64; omega
  have hval : sub64 (add64 value (2^k)) 1 = (value+2^k-1)%2^64 := by unfold sub64 add64; omega
  unfold alignUp
  rw [hsub, hval, and_not64_mask (Nat.mod_lt _ (by norm_num)) hk]

theorem normalizeLoop_zero {requested fuel : ℕ} (h : 0 < requested) :
    normalizeLoop requested fuel 0 = none := by
  induction fuel with
  | zero => unfold normalizeLoop; rw [if_pos h]
  | succ n ih => unfold normalizeLoop; rw [if_pos h]; exact ih

theorem normalizeLoop_some {requested fuel k A : ℕ} (hk : 4 ≤ k) (hk' : k < 64)
    (h : normalizeLoop requested fuel (2^k) = some A) :
    ∃ j, 4 ≤ j ∧ j < 64 ∧ A = 2^j ∧ requested ≤ A := by
  induction fuel generalizing k with
  | zero =>
    unfold normalizeLoop at h
    split_ifs at h with hlt
    exact ⟨k, hk, hk', (Option.some.inj h).symm, by rw [← Option.some.inj h]; omega⟩
  | succ n ih =>
    unfold normalizeLoop at h
    split_ifs at h with hlt
    · rw [Nat.shiftLeft_eq, ← pow_add] at h
      by_cases hlast : k+1 < 64
      · rw [Nat.mod_eq_of_lt (Nat.pow_lt_pow_right (by omega) hlast)] at h
        exact ih (by omega) hlast h
      · obtain rfl : k = 63 := by omega
        have hzero : normalizeLoop requested n 0 = some A := by simpa using h
        rw [normalizeLoop_zero (by omega)] at hzero
        cases hzero
    · exact ⟨k, hk, hk', (Option.some.inj h).symm, by rw [← Option.some.inj h]; omega⟩

/-- Where `normalize_alignment` returns, it has found a power of two from 16 on that
covers the request. -/
theorem normalizeAlignment_some {requested A : ℕ} (h : normalizeAlignment requested = some A) :
    ∃ j, 4 ≤ j ∧ j < 64 ∧ A = 2^j ∧ requested ≤ A :=
  normalizeLoop_some (k := 4) le_rfl (by omega) h

/-- The doubling stops at the first power of two that covers the request. -/
theorem normalizeLoop_reaches {requested fuel j k : ℕ} (hjk : j ≤ k) (hk : k < 64) (hf : k ≤ fuel+j)
    (hlow : ∀ i, j ≤ i → i < k → 2^i < requested) (hr : requested ≤ 2^k) :
    normalizeLoop requested fuel (2^j) = some (2^k) := by
  induction fuel generalizing j with
  | zero =>
    obtain rfl : j = k := by omega
    unfold normalizeLoop
    rw [if_neg (by omega)]
  | succ n ih =>
    unfold normalizeLoop
    by_cases hlast : j = k
    · subst hlast
      rw [if_neg (by omega)]
    · rw [if_pos (hlow j le_rfl (by omega)), Nat.shiftLeft_eq, ← pow_add,
        Nat.mod_eq_of_lt (Nat.pow_lt_pow_right (by omega) (by omega))]
      exact ih (by omega) (by omega) fun i hi hik => hlow i (by omega) hik

theorem normalizeAlignment_two_pow {k : ℕ} (hk : k < 64) : normalizeAlignment (2^k) = some (2^(max 4 k)) := by
  refine normalizeLoop_reaches (le_max_left 4 k) (by omega) (by omega) (fun i _ hik => ?_)
    (Nat.pow_le_pow_right (by omega) (le_max_right 4 k))
  exact Nat.pow_lt_pow_right (by omega) (by omega)

/-! A word of eight bytes. -/

theorem word_pos : 0 < 8 := by decide

theorem word_align : ∃ k < 64, 8 = 2^k := ⟨3, by decide, rfl⟩

/-- The payload address of `make_layout` in exact arithmetic. -/
def exactPayload (block payloadAlignment : ℕ) : ℕ :=
  (block+48+payloadAlignment-1)/payloadAlignment*payloadAlignment

/-- No sum that `make_layout` forms reaches `2^64`. -/
def LayoutFits (block size payloadAlignment : ℕ) : Prop :=
  block+48+payloadAlignment-1 < 2^64 ∧ exactPayload block payloadAlignment+size < 2^64 ∧
    exactPayload block payloadAlignment+size-block+15 < 2^64

instance (block size payloadAlignment : ℕ) : Decidable (LayoutFits block size payloadAlignment) :=
  inferInstanceAs (Decidable (_ ∧ _))

theorem exactPayload_spec {block k : ℕ} (hk : 4 ≤ k) :
    block+48 ≤ exactPayload block (2^k) ∧ exactPayload block (2^k) ≤ block+48+2^k-1 ∧
      exactPayload block (2^k)%2^k = 0 ∧ exactPayload block (2^k)%16 = 0 := by
  have hpos := Nat.two_pow_pos k
  have hdiv := Nat.div_add_mod (block+48+2^k-1) (2^k)
  have hmod := Nat.mod_lt (block+48+2^k-1) hpos
  rw [mul_comm] at hdiv
  refine ⟨by unfold exactPayload; omega, by unfold exactPayload; omega, by simp [exactPayload], ?_⟩
  exact Nat.mod_eq_zero_of_dvd (((pow_dvd_pow 2 hk).trans (dvd_mul_left _ _)))

theorem makeLayout_payload {block size k : ℕ} (hk : k < 64) (hfit : block+48+2^k-1 < 2^64) :
    (makeLayout block size (2^k)).payload = exactPayload block (2^k) := by
  have hpos := Nat.two_pow_pos k
  have hadd : add64 (add64 block blockHeaderSize) allocationHeaderSize = block+48 := by
    unfold add64 blockHeaderSize allocationHeaderSize; omega
  unfold makeLayout
  simp only [hadd]
  rw [alignUp_eq hk, Nat.mod_eq_of_lt hfit]
  rfl

theorem makeLayout_totalSize {block size k : ℕ} (hk : 4 ≤ k) (hk' : k < 64)
    (hfit : LayoutFits block size (2^k)) :
    (makeLayout block size (2^k)).totalSize = (exactPayload block (2^k)+size-block+15)/16*16 := by
  obtain ⟨h1, h2, h3⟩ := hfit
  have hspec := (@exactPayload_spec block k hk).1
  have hpay := @makeLayout_payload block size k hk' h1
  unfold makeLayout at hpay ⊢
  simp only at hpay ⊢
  rw [hpay, show alignment = 2^4 from rfl, alignUp_eq (by omega)]
  have hsub : sub64 (add64 (exactPayload block (2^k)) size) block = exactPayload block (2^k)+size-block := by
    unfold sub64 add64; omega
  rw [hsub, Nat.mod_eq_of_lt (by omega), show 2^4 = 16 from rfl,
    show exactPayload block (2^k)+size-block+16-1 = exactPayload block (2^k)+size-block+15 from by omega]

theorem makeLayout_total_aligned (block size A : ℕ) : (makeLayout block size A).totalSize%16 = 0 := by
  unfold makeLayout
  simp only
  rw [show alignment = 2^4 from rfl, alignUp_eq (by omega), show (2 : ℕ)^4 = 16 from rfl]
  exact Nat.mul_mod_left _ _

/-- What `make_layout` promises while its arithmetic stays below `2^64`. -/
structure LayoutSpec (block size payloadAlignment : ℕ) (layout : AllocationLayout) : Prop where
  header_room : block+48 ≤ layout.payload
  aligned : layout.payload%payloadAlignment = 0
  aligned_16 : layout.payload%16 = 0
  covers : layout.payload+size ≤ block+layout.totalSize
  total_aligned : layout.totalSize%16 = 0
  total_ge : 64 ≤ layout.totalSize

theorem makeLayout_spec {block size k : ℕ} (hk : 4 ≤ k) (hk' : k < 64) (hfit : LayoutFits block size (2^k))
    (hs : 0 < size) : LayoutSpec block size (2^k) (makeLayout block size (2^k)) := by
  obtain ⟨h1, h2, h3, h4⟩ := @exactPayload_spec block k hk
  have hp := @makeLayout_payload block size k hk' hfit.1
  have ht := makeLayout_totalSize hk hk' hfit
  refine ⟨hp ▸ h1, hp ▸ h3, hp ▸ h4, ?_, ?_, ?_⟩
  all_goals
    rw [ht]
    try rw [hp]
    omega

end ShmNext
