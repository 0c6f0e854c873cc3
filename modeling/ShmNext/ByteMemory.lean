import Mathlib.Data.Nat.Notation
import Mathlib.Tactic.Ring

/-! Byte-addressed memory with little-endian stores, and the frame facts a
program proof needs: a load sees only its own bytes, a store changes only them. -/
namespace ShmNext

abbrev Mem := ℕ → UInt8

namespace Mem

/-- The little-endian number in the `n` bytes from `a` on. -/
def loadLE (m : Mem) (a : ℕ) : ℕ → ℕ
  | 0 => 0
  | n+1 => (m a).toNat+256*loadLE m (a+1) n

def storeLE (m : Mem) (a n v : ℕ) : Mem := fun x =>
  if a ≤ x ∧ x < a+n then UInt8.ofNat (v/256^(x-a)) else m x

def load64 (m : Mem) (a : ℕ) : ℕ := m.loadLE a 8

def store64 (m : Mem) (a v : ℕ) : Mem := m.storeLE a 8 v

def store8 (m : Mem) (a v : ℕ) : Mem := m.storeLE a 1 v

/-- `memset`: the `n` bytes from `a` on become `v`. -/
def fill (m : Mem) (a n : ℕ) (v : UInt8) : Mem := fun x =>
  if a ≤ x ∧ x < a+n then v else m x

theorem loadLE_lt (m : Mem) (a n : ℕ) : m.loadLE a n < 256^n := by
  induction n generalizing a with
  | zero => simp [loadLE]
  | succ n ih =>
    have hb := (m a).toNat_lt
    have hr := ih (a+1)
    simp only [loadLE, pow_succ]
    omega

theorem load64_lt (m : Mem) (a : ℕ) : m.load64 a < 2^64 := by
  have h := m.loadLE_lt a 8
  norm_num [load64] at h ⊢
  exact h

theorem loadLE_congr {m m' : Mem} {a n : ℕ} (h : ∀ x, a ≤ x → x < a+n → m x = m' x) :
    m.loadLE a n = m'.loadLE a n := by
  induction n generalizing a with
  | zero => rfl
  | succ n ih =>
    simp only [loadLE]
    rw [h a le_rfl (by omega), ih (fun x h1 h2 => h x (by omega) (by omega))]

theorem load64_congr {m m' : Mem} {a : ℕ} (h : ∀ x, a ≤ x → x < a+8 → m x = m' x) :
    m.load64 a = m'.load64 a :=
  loadLE_congr h

theorem storeLE_of_outside (m : Mem) {a n v x : ℕ} (h : x < a ∨ a+n ≤ x) :
    m.storeLE a n v x = m x := by
  unfold storeLE
  rw [if_neg (by omega)]

@[simp] theorem store64_of_outside (m : Mem) {a v x : ℕ} (h : x < a ∨ a+8 ≤ x) :
    m.store64 a v x = m x :=
  storeLE_of_outside m h

theorem store8_of_ne (m : Mem) {a v x : ℕ} (h : x ≠ a) : m.store8 a v x = m x :=
  storeLE_of_outside m (by omega)

theorem store8_self (m : Mem) (a v : ℕ) : m.store8 a v a = UInt8.ofNat v := by
  simp [store8, storeLE]

theorem fill_of_outside (m : Mem) {a n x : ℕ} (v : UInt8) (h : x < a ∨ a+n ≤ x) :
    m.fill a n v x = m x := by
  unfold fill
  rw [if_neg (by omega)]

/-- Storing a number over `n` bytes and loading it back drops what does not fit. -/
theorem loadLE_of_digits {m : Mem} {a n v : ℕ}
    (h : ∀ i < n, m (a+i) = UInt8.ofNat (v/256^i)) : m.loadLE a n = v%256^n := by
  induction n generalizing a v with
  | zero => simp [loadLE, Nat.mod_one]
  | succ n ih =>
    have h0 : m a = UInt8.ofNat v := by simpa using h 0 (by omega)
    have hr : m.loadLE (a+1) n = (v/256)%256^n := by
      apply ih
      intro i hi
      have hs := h (i+1) (by omega)
      rw [show a+(i+1) = a+1+i from by omega, pow_succ', ← Nat.div_div_eq_div_mul] at hs
      exact hs
    simp only [loadLE, h0, hr]
    rw [pow_succ', Nat.mod_mul]
    simp

theorem loadLE_storeLE (m : Mem) (a n v : ℕ) : (m.storeLE a n v).loadLE a n = v%256^n := by
  apply loadLE_of_digits
  intro i hi
  unfold storeLE
  rw [if_pos (by omega), show a+i-a = i from by omega]

theorem load64_store64 (m : Mem) (a v : ℕ) (hv : v < 2^64) : (m.store64 a v).load64 a = v := by
  have h := loadLE_storeLE m a 8 v
  rw [Nat.mod_eq_of_lt (by norm_num; omega)] at h
  exact h

theorem load64_storeLE_of_disjoint (m : Mem) {a b n v : ℕ} (h : b+8 ≤ a ∨ a+n ≤ b) :
    (m.storeLE a n v).load64 b = m.load64 b :=
  load64_congr fun x _ _ => storeLE_of_outside m (by omega)

theorem load64_store64_of_disjoint (m : Mem) {a b v : ℕ} (h : b+8 ≤ a ∨ a+8 ≤ b) :
    (m.store64 a v).load64 b = m.load64 b :=
  load64_storeLE_of_disjoint m h

theorem load64_store8_of_disjoint (m : Mem) {a b v : ℕ} (h : b+8 ≤ a ∨ a+1 ≤ b) :
    (m.store8 a v).load64 b = m.load64 b :=
  load64_storeLE_of_disjoint m h

end Mem

end ShmNext
