import ShmNext.CanonicalState

/-! `SharedMemoryManager::create`: which segment sizes it accepts, and which of them make a
segment that `check_sanity` accepts. -/
namespace ShmNext
open Prog

variable {s c : Allocator} {base sizeofManager totalSize : ℕ}

/-- The manager object of a segment: its allocator and the size it announces. -/
structure Manager where
  alloc : Allocator
  totalSize : ℕ

/-- The 32-bit word at the start of the region: 0 uninitialized, 1 initializing, 2 initialized,
3 corrupted. -/
def initializationState (m : Mem) (base : ℕ) : ℕ := m.load64 base%2^32

/-- `create(base_addr, total_size)` on a region whose bytes and allocator object are those of `s`. -/
def Manager.create (sizeofManager base totalSize : ℕ) (s : Allocator) : Outcome Thrown Manager :=
  if totalSize < sizeofManager+blockHeaderSize then .error (.interprocess .segmentTooSmall)
  else if initializationState s.mem base ≠ 0 then
    .error (.interprocess (if initializationState s.mem base = 3 then .initializationCorrupted else .initializationInProgress))
  else match (initializeAllocator base sizeofManager totalSize).run s with
    | (.ok (), c) => .ok ⟨c, totalSize⟩
    | (.error e, _) => .error e
    | (.hang, _) => .hang

/-- A zeroed region below the top of the address space, with the allocator object inside the
16-aligned manager object at its start. -/
structure ZeroedRegion (s : Allocator) (base sizeofManager totalSize : ℕ) : Prop where
  base_pos : 0 < base
  base_aligned : base%16 = 0
  sizeof_aligned : sizeofManager%16 = 0
  self_aligned : s.self%8 = 0
  self_ge : base ≤ s.self
  self_below : s.self+112 ≤ base+sizeofManager
  end_room : base+totalSize+48 ≤ 2^64
  size_lt : totalSize < 2^63
  zeroed : ∀ x, base ≤ x → x < base+totalSize → s.mem x = 0

theorem Mem.load64_zero {m : Mem} {a : ℕ} (h : ∀ x, a ≤ x → x < a+8 → m x = 0) : m.load64 a = 0 := by
  rw [@Mem.load64_congr m (fun _ => 0) a fun x h1 h2 => h x h1 h2]
  rfl

theorem alignUp_of_aligned {n : ℕ} (hn : n%16 = 0) (hlt : n+16 ≤ 2^64) : alignUp n alignment = n := by
  rw [show alignment = 2^4 from rfl, alignUp_eq (by omega), show (2 : ℕ)^4 = 16 from rfl]
  omega

namespace ZeroedRegion
variable (h : ZeroedRegion s base sizeofManager totalSize) (hfit : sizeofManager+32 ≤ totalSize)
include h hfit

/-- Every size from the minimum on is accepted. -/
theorem create_initialized : ∃ c, Manager.create sizeofManager base totalSize s = .ok ⟨c, totalSize⟩ ∧
    (initializeAllocator base sizeofManager totalSize).run s = (.ok (), c) ∧
    Initialized s c base sizeofManager totalSize := by
  have hroom := h.end_room
  have halign := alignUp_of_aligned h.sizeof_aligned (by omega)
  have hbelow : s.self+112 ≤ base+alignUp sizeofManager alignment := halign.symm ▸ h.self_below
  obtain ⟨-, _, c, hrun, hc⟩ := runs_initialize h.base_pos h.self_ge hbelow (by rw [halign]; exact hfit) hroom h.size_lt
  have hstate : initializationState s.mem base = 0 := by
    unfold initializationState
    rw [Mem.load64_zero fun x h1 h2 => h.zeroed x h1 (by omega), Nat.zero_mod]
  refine ⟨c, ?_, hrun, halign ▸ hc⟩
  unfold Manager.create blockHeaderSize
  rw [if_neg (by omega), if_neg (by simp [hstate]), hrun]

theorem freshSegment (h16 : totalSize%16 = 0) : FreshSegment s base sizeofManager totalSize := by
  have hroom := h.end_room
  have halign := alignUp_of_aligned h.sizeof_aligned (by omega)
  exact ⟨h.base_pos, h.base_aligned, h16, h.self_aligned, h.self_ge, by rw [halign]; exact h.self_below,
    by rw [halign]; exact hfit, hroom, h.size_lt⟩

end ZeroedRegion

namespace Initialized
variable (hc : Initialized s c base sizeofManager totalSize)
include hc

/-- A single free block over the rest of the segment, of whatever size. -/
theorem allMemoryDeallocated (hpos : 0 < base) (hfit : sizeofManager+32 ≤ totalSize) (hlt : base+totalSize < 2^64) :
    ShmNext.allMemoryDeallocated c = true := by
  have hsub : sub64 c.segmentEnd c.first = totalSize-sizeofManager := by
    unfold Allocator.segmentEnd sub64 add64
    rw [hc.begin_eq, hc.size_eq, hc.first_eq]
    omega
  have hfirst := hc.first_eq
  unfold ShmNext.allMemoryDeallocated
  rw [if_neg (by omega), hsub, hfirst, hc.block.1, hc.block.isFree, hc.next, hc.head_eq]
  simp

/-- The chain of a sane segment ends on the 16-byte grid it starts on. -/
theorem aligned_of_sane (hbase : base%16 = 0) (hsizeof : sizeofManager%16 = 0) (hlt : base+totalSize < 2^64)
    (hsane : checkSanity c = true) : totalSize%16 = 0 := by
  obtain ⟨bs, _, ht, -⟩ := checkSanity_sound (s := c) (by rw [hc.begin_eq, hc.size_eq]; exact hlt) hsane
  have hend := ht.end_aligned (by rw [hc.first_eq]; omega)
  rw [hc.begin_eq, hc.size_eq] at hend
  omega

end Initialized

/-- What is asked of a new segment: it is sane with all memory free, and stays sane under any
calls whose layouts do not wrap, on payloads their callers hold. -/
def StaysSane (c : Allocator) : Prop :=
  checkSanity c = true ∧ allMemoryDeallocated c = true ∧
    ∀ calls g, Heap.runCalls ⟨c, [], []⟩ calls = some g → checkSanity g.alloc = true

/-- `create` accepts every size that holds the manager and a block header; the segment is usable
exactly when that size is a multiple of 16. -/
theorem create_sane_iff (h : ZeroedRegion s base sizeofManager totalSize) (hfit : sizeofManager+32 ≤ totalSize) :
    ∃ c, Manager.create sizeofManager base totalSize s = .ok ⟨c, totalSize⟩ ∧
      (StaysSane c ↔ totalSize%16 = 0) ∧ (checkSanity c = true ↔ totalSize%16 = 0) ∧ allMemoryDeallocated c = true := by
  obtain ⟨c, hcreate, hrun, hc⟩ := h.create_initialized hfit
  have hroom := h.end_room
  have hall := hc.allMemoryDeallocated h.base_pos hfit (by omega)
  have honly : checkSanity c = true → totalSize%16 = 0 :=
    hc.aligned_of_sane h.base_aligned h.sizeof_aligned (by omega)
  have hstays : totalSize%16 = 0 → StaysSane c := by
    intro h16
    have hreach := Reachable.fresh (h.freshSegment hfit h16) hrun
    have hsane : ∀ {g : Heap}, Reachable g → checkSanity g.alloc = true := by
      intro g hg
      obtain ⟨bs, l, hinv⟩ := hg.inv
      exact hinv.toSane.checkSanity_eq_true
    exact ⟨hsane hreach, hall, fun calls g hcalls => hsane (hreach.runCalls hcalls)⟩
  exact ⟨c, hcreate, ⟨fun hst => honly hst.1, hstays⟩, ⟨honly, fun h16 => (hstays h16).1⟩, hall⟩

theorem zeroedRegion_small {totalSize : ℕ} (h : totalSize ≤ 2^20) : ZeroedRegion smallSegment 4096 112 totalSize :=
  ⟨by decide, by decide, by decide, by decide, by decide, by decide, by omega, by omega, fun _ _ _ => rfl⟩

theorem create_sane_iff_small : ∃ c, Manager.create 112 4096 4096 smallSegment = .ok ⟨c, 4096⟩ ∧
    (StaysSane c ↔ 4096%16 = 0) ∧ (checkSanity c = true ↔ 4096%16 = 0) ∧ allMemoryDeallocated c = true :=
  create_sane_iff (zeroedRegion_small (by decide)) (by decide)

/-- A segment of 4100 bytes is accepted, and its fresh manager is not sane. -/
theorem unaligned_segment_insane : ¬ ∀ (s : Allocator) (base sizeofManager totalSize : ℕ),
    ZeroedRegion s base sizeofManager totalSize → sizeofManager+32 ≤ totalSize →
    ∃ c, Manager.create sizeofManager base totalSize s = .ok ⟨c, totalSize⟩ ∧ StaysSane c := by
  intro hall
  have hregion : ZeroedRegion smallSegment 4096 112 4100 := zeroedRegion_small (by decide)
  obtain ⟨c, hcreate, hsane, -⟩ := hall smallSegment 4096 112 4100 hregion (by decide)
  obtain ⟨c', hcreate', -, hc⟩ := hregion.create_initialized (by decide)
  cases hcreate.symm.trans hcreate'
  have haligned : 4100%16 = 0 := hc.aligned_of_sane hregion.base_aligned hregion.sizeof_aligned (by decide) hsane
  exact absurd haligned (by decide)

end ShmNext
