import Mathlib.Data.Nat.Notation
import Mathlib.Data.Int.Notation
import Mathlib.Algebra.Order.Ring.Int

/-! `OffsetPtr`: a pointer stored as the int64 displacement from its own address.
Addresses are numbers below `2^64`; the stored int64 is kept as its 64-bit word. -/
namespace ShmNext

def maxOffset : ℕ := 2^63-1

/-- `offset_ptr_null`, the displacement that stands for null. -/
def offsetPtrNull : ℕ := 1

/-- `try_make_offset`: the displacement from `self` to `ptr`, where it is representable. -/
def tryMakeOffset (self ptr : ℕ) : Option ℤ :=
  if self ≤ ptr then
    let diff := ptr-self
    if maxOffset < diff ∨ diff = offsetPtrNull then none else some diff
  else
    let diff := self-ptr
    if maxOffset < diff then none else some (-diff)

/-- The 64 bits in which an int64 is stored. -/
def int64Word (offset : ℤ) : ℕ := (offset%2^64).toNat

/-- `OffsetPtr::set_pointer` at address `self`: the word it stores, `none` where it throws. -/
def setPointer (self ptr : ℕ) : Option ℕ :=
  if ptr = 0 then some offsetPtrNull else (tryMakeOffset self ptr).map int64Word

/-- `OffsetPtr::get` at address `self` with stored word `w`; null is `0`. -/
def getPointer (self w : ℕ) : ℕ :=
  if w = offsetPtrNull then 0 else (self+w)%2^64

theorem getPointer_lt (self w : ℕ) : getPointer self w < 2^64 := by
  unfold getPointer
  split <;> omega

@[simp] theorem getPointer_null (self : ℕ) : getPointer self offsetPtrNull = 0 := by
  simp [getPointer]

@[simp] theorem setPointer_null (self : ℕ) : setPointer self 0 = some offsetPtrNull := by
  simp [setPointer]

/-- A target that is near enough and not the byte after the pointer is stored, and read back. -/
theorem setPointer_near {self ptr : ℕ} (hs : self < 2^64) (hp : ptr < 2^64)
    (hup : ptr ≤ self+maxOffset) (hdown : self ≤ ptr+maxOffset) (hne : ptr ≠ self+1) :
    ∃ w, setPointer self ptr = some w ∧ w < 2^64 ∧ getPointer self w = ptr := by
  unfold maxOffset at hup hdown
  by_cases h0 : ptr = 0
  · exact ⟨offsetPtrNull, by simp [h0], by decide, by simp [h0]⟩
  by_cases hle : self ≤ ptr
  · refine ⟨ptr-self, ?_, by omega, ?_⟩
    · have hd : ¬(maxOffset < ptr-self ∨ ptr-self = offsetPtrNull) := by
        unfold maxOffset offsetPtrNull; omega
      have hw : int64Word ((ptr-self : ℕ) : ℤ) = ptr-self := by
        unfold int64Word; omega
      simp only [setPointer, tryMakeOffset, if_neg h0, if_pos hle, if_neg hd, Option.map_some, hw]
    · unfold getPointer offsetPtrNull
      rw [if_neg (by omega)]
      omega
  · refine ⟨2^64-(self-ptr), ?_, by omega, ?_⟩
    · have hd : ¬ maxOffset < self-ptr := by unfold maxOffset; omega
      have hw : int64Word (-((self-ptr : ℕ) : ℤ)) = 2^64-(self-ptr) := by
        unfold int64Word; omega
      simp only [setPointer, tryMakeOffset, if_neg h0, if_neg hle, if_neg hd, Option.map_some, hw]
    · unfold getPointer offsetPtrNull
      rw [if_neg (by omega)]
      omega

/-- Where `set_pointer` at `self` does not throw. -/
def Representable (self ptr : ℕ) : Prop :=
  ptr = 0 ∨ (ptr ≤ self+maxOffset ∧ self ≤ ptr+maxOffset ∧ ptr ≠ self+1)

theorem setPointer_representable {self ptr : ℕ} (hs : self < 2^64) (hp : ptr < 2^64)
    (h : Representable self ptr) :
    ∃ w, setPointer self ptr = some w ∧ w < 2^64 ∧ getPointer self w = ptr := by
  rcases h with rfl | ⟨hup, hdown, hne⟩
  · exact ⟨offsetPtrNull, by simp, by decide, by simp⟩
  · exact setPointer_near hs hp hup hdown hne

end ShmNext
