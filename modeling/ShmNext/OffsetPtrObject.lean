import ShmNext.OffsetPtr
import ShmNext.StoreProgram

/-! `OffsetPtr` as an object at an address, with the word that it stores. -/
namespace ShmNext

/-- `make_offset`. -/
def makeOffset (self ptr : ℕ) : Prog ℕ String ℤ :=
  match tryMakeOffset self ptr with
  | some offset => pure offset
  | none => Prog.throw "OffsetPtr target address is outside representable range or conflicts with null"

/-- `set_pointer` of the object at `self`. The state is the word of its offset. -/
def setPointerAt (self ptr : ℕ) : Prog ℕ String Unit :=
  if ptr = 0 then Prog.store fun _ => offsetPtrNull
  else do
    let offset ← makeOffset self ptr
    Prog.store fun _ => int64Word offset

/-- The copies of an object at `other` that stores `w`, constructed or assigned. -/
def copyPointer (self other w : ℕ) : Prog ℕ String Unit := setPointerAt self (getPointer other w)

/-- The differences that are encoded. -/
def Encodable (self target : ℕ) : Prop :=
  -(2^63-1) ≤ (target : ℤ)-self ∧ (target : ℤ)-self ≤ 2^63-1 ∧ (target : ℤ)-self ≠ 1

instance (self target : ℕ) : Decidable (Encodable self target) := inferInstanceAs (Decidable (_ ∧ _))

variable {self target w stored : ℕ}

/-- `try_make_offset` finds the exact difference, or there is none to encode. -/
theorem tryMakeOffset_eq : tryMakeOffset self target = if Encodable self target then some ((target : ℤ)-self) else none := by
  have hiff : Encodable self target ↔ -(2^63-1) ≤ (target : ℤ)-self ∧ (target : ℤ)-self ≤ 2^63-1 ∧ (target : ℤ)-self ≠ 1 := Iff.rfl
  unfold tryMakeOffset maxOffset offsetPtrNull
  by_cases hle : self ≤ target
  · rw [if_pos hle]
    dsimp only
    by_cases hfar : 2^63-1 < target-self ∨ target-self = 1
    · rw [if_pos hfar, if_neg (by rw [hiff]; omega)]
    · rw [if_neg hfar, if_pos (by rw [hiff]; omega), Int.ofNat_sub hle]
  · rw [if_neg hle]
    dsimp only
    by_cases hfar : 2^63-1 < self-target
    · rw [if_pos hfar, if_neg (by rw [hiff]; omega)]
    · rw [if_neg hfar, if_pos (by rw [hiff]; omega), Int.ofNat_sub (by omega), neg_sub]

theorem run_setPointerAt (h0 : target ≠ 0) : (setPointerAt self target).run stored =
    if Encodable self target then (.ok (), int64Word ((target : ℤ)-self))
    else (.error "OffsetPtr target address is outside representable range or conflicts with null", stored) := by
  unfold setPointerAt makeOffset
  rw [if_neg h0, tryMakeOffset_eq]
  by_cases h : Encodable self target
  · rw [if_pos h, if_pos h]
    rfl
  · rw [if_neg h, if_neg h]
    rfl

/-- An encoded difference is not the sentinel, and adds up to the target again. -/
theorem int64Word_spec (ht : target < 2^64) (h : Encodable self target) :
    int64Word ((target : ℤ)-self) ≠ offsetPtrNull ∧ getPointer self (int64Word ((target : ℤ)-self)) = target := by
  obtain ⟨hlow, hhigh, hne⟩ := h
  have hword : (int64Word ((target : ℤ)-self) : ℤ) = ((target : ℤ)-self)%2^64 := Int.toNat_of_nonneg (Int.emod_nonneg _ (by decide))
  have hsentinel : int64Word ((target : ℤ)-self) ≠ offsetPtrNull := by
    unfold offsetPtrNull
    omega
  refine ⟨hsentinel, ?_⟩
  unfold getPointer
  rw [if_neg hsentinel]
  omega

/-- An object and its target that lie elsewhere by the same displacement. -/
theorem getPointer_shift {d : ℤ} (hs' : 0 ≤ self+d ∧ self+d < 2^64) (ht' : 0 ≤ target+d ∧ target+d < 2^64)
    (hw : w ≠ offsetPtrNull) (hget : getPointer self w = target) : getPointer (self+d).toNat w = (target+d).toNat := by
  unfold getPointer at hget ⊢
  rw [if_neg hw] at hget ⊢
  omega

/-- An `OffsetPtr` encodes every target that it can represent, keeps its word when it throws, is copied to the same target, and
moves together with its target. -/
theorem offset_ptr_encodes (_ : self < 2^64) (ht : target < 2^64) (h0 : target ≠ 0) (stored : ℕ) :
    (((setPointerAt self target).run stored).1 = .ok () ↔ Encodable self target) ∧
    (¬Encodable self target → ∃ what, (setPointerAt self target).run stored = (.error what, stored)) ∧
    ∀ w, (setPointerAt self target).run stored = (.ok (), w) →
      getPointer self w = target ∧ w ≠ offsetPtrNull ∧
      (∀ self' < 2^64, Encodable self' target → ∀ stored', ∃ w', (copyPointer self' self w).run stored' = (.ok (), w') ∧
        getPointer self' w' = target) ∧
      ∀ d : ℤ, 0 ≤ self+d ∧ self+d < 2^64 → 0 ≤ target+d ∧ target+d < 2^64 → getPointer (self+d).toNat w = (target+d).toNat := by
  rw [run_setPointerAt h0]
  by_cases h : Encodable self target
  · rw [if_pos h]
    refine ⟨⟨fun _ => h, fun _ => rfl⟩, fun hn => absurd h hn, fun w hw => ?_⟩
    obtain rfl : int64Word ((target : ℤ)-self) = w := congrArg Prod.snd hw
    obtain ⟨hsentinel, hget⟩ := int64Word_spec ht h
    refine ⟨hget, hsentinel, fun self' _ h' stored' => ?_, fun d hd hd' => getPointer_shift hd hd' hsentinel hget⟩
    refine ⟨int64Word ((target : ℤ)-self'), ?_, (int64Word_spec ht h').2⟩
    unfold copyPointer
    rw [hget, run_setPointerAt h0, if_pos h']
  · rw [if_neg h]
    refine ⟨⟨fun hcon => (by cases hcon), fun h' => absurd h' h⟩, fun _ => ⟨_, rfl⟩, fun w hw => ?_⟩
    cases congrArg Prod.fst hw

/-- The byte after the object is refused, and the object keeps the target that it has. -/
theorem offset_ptr_encodes_sentinel : ∃ what, (setPointerAt 4096 4097).run 16 = (.error what, 16) :=
  (@offset_ptr_encodes 4096 4097 (by decide) (by decide) (by decide) 16).2.1 (by unfold Encodable; decide)

end ShmNext
