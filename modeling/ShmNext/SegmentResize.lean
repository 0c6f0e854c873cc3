import ShmNext.SegmentCreation
import ShmNext.TailRoom

/-! `ManagedSharedMemory::grow` and `shrink_to_fit`: the file is resized around a resize of the
manager, and a refusal on the way leaves the segment as it was. -/
namespace ShmNext
open Prog

namespace Manager

/-- A call of the block allocator inside a manager function. -/
def onAllocator {α : Type} (p : Op α) : Prog Manager Thrown α := p.zoom Manager.alloc fun m s => { m with alloc := s }

def growToSize (newTotalSize : ℕ) : Prog Manager Thrown Bool := do
  let m ← Prog.get
  if newTotalSize ≤ m.totalSize then pure false
  else
    let changed ← onAllocator (grow newTotalSize)
    if changed then
      Prog.store fun m => { m with totalSize := newTotalSize }
      pure true
    else pure false

def shrinkToFit : Prog Manager Thrown ℕ := do
  let newTotalSize ← onAllocator ShmNext.shrinkToFit
  Prog.store fun m => { m with totalSize := newTotalSize }
  pure newTotalSize

end Manager

/-- What `truncate` answers: the file has the size asked for, or it is as before, by an error that
`try_truncate` takes for a refusal or by another one. -/
inductive TruncateOutcome where
  | done
  | refused
  | failed
  deriving DecidableEq, Repr

/-- The mapped file, with the manager in it. -/
structure SharedSegment where
  manager : Manager
  fileSize : ℕ

abbrev SegmentOp := Prog SharedSegment Thrown

namespace SharedSegment

/-- The file is cut off at `size`, or zeros are appended to it. -/
def truncate (size : ℕ) (g : SharedSegment) : SharedSegment :=
  let kept := g.manager.alloc.segmentBegin+min g.fileSize size
  { manager := { g.manager with alloc := { g.manager.alloc with mem := fun x => if x < kept then g.manager.alloc.mem x else 0 } }
    fileSize := size }

end SharedSegment

namespace ManagedSharedMemory

def tryTruncate (outcome : TruncateOutcome) (size : ℕ) : SegmentOp Bool :=
  match outcome with
  | .done => do
    Prog.store (SharedSegment.truncate size)
    pure true
  | .refused => pure false
  | .failed => Prog.throw .systemError

def alignSize (size align : ℕ) : SegmentOp ℕ :=
  if 2^64-1-(align-1) < size then Prog.throw (.interprocess .allocationSizeOverflow)
  else pure (add64 size (align-1) &&& not64 (align-1))

/-- A call of the manager in the mapped file. -/
def onManager {α : Type} (p : Prog Manager Thrown α) : SegmentOp α :=
  p.zoom SharedSegment.manager fun g m => { g with manager := m }

/-- The `try` block of `grow`. -/
def growMapped (outcome : TruncateOutcome) (newSize oldSize : ℕ) : SegmentOp Bool := do
  let changed ← onManager (Manager.growToSize newSize)
  if changed then pure true
  else
    let _ ← tryTruncate outcome oldSize
    pure false

/-- `grow`; `outcome i` is the answer to the `i`-th truncate of the call. -/
def grow (pageSize : ℕ) (outcome : ℕ → TruncateOutcome) (extraBytes : ℕ) : SegmentOp Bool :=
  if extraBytes = 0 then pure false
  else do
    let g ← Prog.get
    let oldSize := g.fileSize
    if 2^64-1-oldSize < extraBytes then Prog.throw (.interprocess .allocationSizeOverflow)
    else
      let newSize ← alignSize (oldSize+extraBytes) pageSize
      if newSize ≤ oldSize then pure false
      else
        let resized ← tryTruncate (outcome 0) newSize
        if resized = false then pure false
        else
          match ← (growMapped (outcome 1) newSize oldSize).attempt with
          | .ok changed => pure changed
          | .error e =>
            let _ ← (tryTruncate (outcome 2) oldSize).attempt
            Prog.throw e

/-- The `try` block of `shrink_to_fit`. -/
def shrinkMapped (outcome : TruncateOutcome) (newFileSize oldLogicalSize : ℕ) : SegmentOp Bool := do
  let resized ← tryTruncate outcome newFileSize
  if resized then pure true
  else
    let _ ← onManager (Manager.growToSize oldLogicalSize)
    pure false

def shrinkToFit (pageSize : ℕ) (outcome : TruncateOutcome) : SegmentOp Bool := do
  let g ← Prog.get
  let oldFileSize := g.fileSize
  let oldLogicalSize := g.manager.totalSize
  let newLogicalSize ← onManager Manager.shrinkToFit
  let newFileSize ← alignSize newLogicalSize pageSize
  if oldLogicalSize ≤ newLogicalSize ∧ oldFileSize ≤ newFileSize then pure false
  else if oldFileSize ≤ newFileSize then
    let _ ← onManager (Manager.growToSize oldLogicalSize)
    pure false
  else
    match ← (shrinkMapped outcome newFileSize oldLogicalSize).attempt with
    | .ok changed => pure changed
    | .error e =>
      let _ ← (onManager (Manager.growToSize oldLogicalSize)).attempt
      Prog.throw e

end ManagedSharedMemory

variable {s : Allocator} {m m' : Manager} {live : List LiveAlloc} {bs l : List Block} {n k : ℕ}

/-! The manager functions. -/

/-- The segment the manager announces is the allocator's, and well formed with room behind the
allocated blocks. -/
structure ManagerInv (live : List LiveAlloc) (m : Manager) : Prop where
  heap : ∃ bs l, HeapInv (fun _ => False) m.alloc live bs l ∧ TailRoom (m.alloc.segmentBegin+m.alloc.segmentSize) bs
  total : m.totalSize = m.alloc.segmentSize

/-- The allocated blocks are where they were, the payloads with their contents. -/
structure Carries (live : List LiveAlloc) (m m' : Manager) : Prop where
  place : m'.alloc.place = m.alloc.place
  payloads : ∀ a ∈ live, SamePayload a m.alloc.mem m'.alloc.mem
  blocks : ∀ b : Block, b.free = false → (b ∈ blockChain m'.alloc ↔ b ∈ blockChain m.alloc)

theorem Carries.refl (m : Manager) : Carries live m m := ⟨rfl, fun a _ => .refl a _, fun _ _ => Iff.rfl⟩

theorem Carries.trans {m'' : Manager} (h : Carries live m m') (h' : Carries live m' m'') : Carries live m m'' :=
  ⟨h'.place.trans h.place, fun a ha => (h.payloads a ha).trans (h'.payloads a ha),
    fun b hb => (h'.blocks b hb).trans (h.blocks b hb)⟩

/-- The last block is allocated, so that what is appended becomes a block of its own. -/
def LastAllocated (s : Allocator) : Prop := ∀ b ∈ (blockChain s).getLast?, b.free = false

theorem ChangesOnly.place_eq {W : ℕ → Prop} {c : Allocator} (h : ChangesOnly W { s with segmentSize := n } c) :
    c.place = s.place := by
  unfold Allocator.place
  rw [h.self, h.segmentBase, h.firstBlock]

/-- Bytes behind the end of the segment do not matter. -/
theorem HeapInv.beyond {lost : ℕ → Prop} (h : HeapInv lost s live bs l) {f : Mem}
    (hm : ∀ x, x < s.segmentBegin+s.segmentSize → f x = s.mem x) : HeapInv lost { s with mem := f } live bs l := by
  refine ⟨⟨⟨h.linked.beyond hm, h.exact⟩, h.sorted, h.coalesced⟩, fun a ha => ?_, h.owned, h.distinct⟩
  obtain ⟨b, hb, hh⟩ := h.placed a ha
  have hend := (h.linked.mem_bounds hb).2.1
  have hwithin := hh.within
  exact ⟨b, hb, hh.keep rfl hh.allocated le_rfl fun x _ hx => hm x (by omega)⟩

namespace ManagerInv

theorem run_onAllocator {α : Type} (p : Op α) (m : Manager) : (Manager.onAllocator p).run m =
    ((p.run m.alloc).1, { m with alloc := (p.run m.alloc).2 }) := by
  unfold Manager.onAllocator
  refine run_zoom ?_ ?_ ?_ p m <;> intros <;> rfl

/-- With the same allocated blocks and the same size, the chain and the free list are the same. -/
theorem unchanged (h : ManagerInv live m) (h' : ManagerInv live m') (hc : Carries live m m')
    (ht : m'.totalSize = m.totalSize) :
    blockChain m'.alloc = blockChain m.alloc ∧ freeList m'.alloc = freeList m.alloc := by
  obtain ⟨bs, l, hinv, -⟩ := h.heap
  obtain ⟨bs', l', hinv', -⟩ := h'.heap
  obtain ⟨hfirst, hbegin⟩ := place_eq hc.place
  have hall := hc.blocks
  rw [hinv.toSane.blockChain_eq, hinv'.toSane.blockChain_eq] at hall
  have hend : m'.alloc.segmentBegin+m'.alloc.segmentSize = m.alloc.segmentBegin+m.alloc.segmentSize := by
    rw [hbegin, ← h.total, ← h'.total, ht]
  obtain ⟨rfl, rfl⟩ := hinv.toWellFormed.eq_of_allocated hinv'.toWellFormed hfirst hend fun d hd => (hall d hd).symm
  rw [hinv.toSane.blockChain_eq, hinv'.toSane.blockChain_eq, hinv.toSane.freeList_eq, hinv'.toSane.freeList_eq]
  exact ⟨rfl, rfl⟩

/-- `grow_to_size` refuses and changes nothing, or the segment has the new size. -/
theorem growToSize (h : ManagerInv live m) (h16 : n%16 = 0) (hroom : m.alloc.segmentBegin+n+48 ≤ 2^64) (hn : n < 2^63) :
    ∃ changed m', (Manager.growToSize n).run m = (.ok changed, m') ∧ ManagerInv live m' ∧ Carries live m m' ∧
      (changed = true → m'.totalSize = n) ∧
      (changed = false → m' = m ∧ (n ≤ m.totalSize ∨ LastAllocated m.alloc ∧ n < m.totalSize+48)) := by
  obtain ⟨bs, l, hinv, htail⟩ := h.heap
  have htotal := h.total
  have h16' : n/16*16 = n := by omega
  unfold Manager.growToSize
  rw [run_get_bind]
  by_cases hle : n ≤ m.totalSize
  · rw [if_pos hle]
    exact ⟨false, m, rfl, h, .refl m, by simp, fun _ => ⟨rfl, Or.inl hle⟩⟩
  rw [if_neg hle]
  have hruns : (ShmNext.grow n).Runs m.alloc (fun _ => True) fun r c =>
      r = false ∧ c = m.alloc ∧ LastAllocated m.alloc ∧ n < m.totalSize+48 ∨
      r = true ∧ ManagerInv live ⟨c, n⟩ ∧ Carries live m ⟨c, n⟩ := by
    refine hinv.toWellFormed.runs_growTo hroom hn (fun _ _ _ => trivial) (fun hno => Or.inl ⟨rfl, rfl, ?_⟩) ?_
    · rw [h16', ← htotal] at hno
      unfold LastAllocated
      rw [hinv.toSane.blockChain_eq]
      exact hno.resolve_left (by omega)
    · rintro hlt hlast c hch ⟨bs', l', hc, hall⟩
      rw [h16'] at hlt hlast hch
      obtain ⟨hinv', hbytes⟩ := hinv.of_same hch.bytes hc hall
      refine Or.inr ⟨rfl, ⟨⟨bs', l', hinv', ?_⟩, hch.segmentSize.symm⟩, hch.place_eq, hbytes, fun b hb => ?_⟩
      · have hend : c.segmentBegin+c.segmentSize = m.alloc.segmentBegin+n := hch.limit_eq
        dsimp only
        rw [hend]
        refine TailRoom.of_allocated ?_ fun d hd hdf => (hall d hdf).mp hd
        exact htail.grow hinv.linked.tiles (by omega) fun hl => by have := hlast hl; omega
      · rw [hinv.toSane.blockChain_eq, hinv'.toSane.blockChain_eq]
        exact hall b hb
  obtain ⟨-, r, c, hrun, hr⟩ := hruns
  rw [run_bind, run_onAllocator, hrun]
  rcases hr with ⟨rfl, rfl, hlast⟩ | ⟨rfl, hinv', hcar⟩
  · exact ⟨false, m, rfl, h, .refl m, by simp, fun _ => ⟨rfl, Or.inr hlast⟩⟩
  · exact ⟨true, ⟨c, n⟩, rfl, hinv', hcar, fun _ => rfl, by simp⟩

/-- `shrink_to_fit` cuts nothing off an allocated last block, and else at least a block. -/
theorem shrinkToFit (h : ManagerInv live m) :
    ∃ m', Manager.shrinkToFit.run m = (.ok m'.totalSize, m') ∧ ManagerInv live m' ∧ Carries live m m' ∧
      m'.totalSize ≤ m.totalSize ∧
      (m'.totalSize < m.totalSize → LastAllocated m'.alloc → m'.totalSize+48 ≤ m.totalSize) := by
  obtain ⟨bs, l, hinv, htail⟩ := h.heap
  have htotal := h.total
  have hg := hinv.linked.geometry
  have hbelow := hg.self_below
  have hge := hg.self_ge
  -- the three ways out of `shrink_to_fit`: the size stays, the last block goes, the only block is cut
  have hruns : ShmNext.shrinkToFit.Runs m.alloc (fun _ => True) fun r c =>
      r = c.segmentSize ∧ ManagerInv live ⟨c, r⟩ ∧ Carries live m ⟨c, r⟩ ∧ r ≤ m.totalSize ∧
        (r < m.totalSize → LastAllocated c → r+48 ≤ m.totalSize) := by
    refine hinv.toWellFormed.runs_shrinkTo (fun _ _ _ => trivial) ?_ ?_ ?_
    · refine ⟨rfl, ?_, ?_, htotal.ge, fun hlt => absurd hlt (by omega)⟩
      · rw [← htotal]
        exact h
      · rw [← htotal]
        exact .refl m
    · rintro xs t rfl hne hf c hch hc
      have htb := hinv.linked.mem_bounds (show t ∈ xs ++ [t] by simp)
      have hend : c.segmentBegin+c.segmentSize = m.alloc.segmentBegin+(t.addr-m.alloc.segmentBegin) := hch.limit_eq
      have hsize : c.segmentSize = t.addr-m.alloc.segmentBegin := hch.segmentSize
      have hall : AllocatedAre xs (· ∈ xs ++ [t]) := fun d hd => by
        have hdt : d ≠ t := by rintro rfl; rw [hf] at hd; cases hd
        simp [hdt]
      have hdrop := htail.drop hinv.linked.tiles hinv.coalesced hf
      obtain ⟨hinv', hbytes⟩ := hinv.of_same (fun x hx => hch.bytes x fun hx' => hx (Or.inl hx')) hc hall
      refine ⟨hsize.symm, ⟨⟨xs, _, hinv', ?_⟩, hsize.symm⟩, ⟨hch.place_eq, hbytes, fun b hb => ?_⟩, ?_, ?_⟩
      · dsimp only
        rw [hend, Nat.add_sub_cancel' (by omega)]
        exact hdrop
      · rw [hinv.toSane.blockChain_eq, hinv'.toSane.blockChain_eq]
        exact hall b hb
      · unfold Block.stop at htb
        omega
      · intro hlt hlast
        unfold LastAllocated at hlast
        rw [hinv'.toSane.blockChain_eq] at hlast
        obtain ⟨ys, w, rfl⟩ : ∃ ys w, xs = ys ++ [w] := by
          rcases List.eq_nil_or_concat xs with rfl | ⟨ys, w, rfl⟩
          · exact absurd rfl hne
          · exact ⟨ys, w, List.concat_eq_append⟩
        have hw := hlast w (by simp)
        have hroom := (htail w (by simp) hw).2
        have hstop : w.stop = t.addr := Tiles.nil_iff.mp hinv.linked.tiles.middle.1.middle.2
        unfold Block.stop at htb hstop hroom
        omega
    · rintro t rfl hf h48 c hch hc
      have htb := hinv.linked.mem_bounds (show t ∈ [t] by simp)
      have hsize : c.segmentSize = t.addr-m.alloc.segmentBegin+48 := hch.segmentSize
      have hall : AllocatedAre [⟨t.addr, 48, true⟩] (· ∈ [t]) := fun d hd => by
        have h1 : d ≠ ⟨t.addr, 48, true⟩ := by rintro rfl; simp at hd
        have h2 : d ≠ t := by rintro rfl; simp [hf] at hd
        simp [h1, h2]
      obtain ⟨hinv', hbytes⟩ := hinv.of_same (fun x hx => hch.bytes x fun hx' => hx (Or.inl hx')) hc hall
      refine ⟨hsize.symm, ⟨⟨_, _, hinv', ?_⟩, hsize.symm⟩, ⟨hch.place_eq, hbytes, fun b hb => ?_⟩, ?_, ?_⟩
      · intro d hd hdf
        rw [List.mem_singleton.mp hd] at hdf
        cases hdf
      · rw [hinv.toSane.blockChain_eq, hinv'.toSane.blockChain_eq]
        exact hall b hb
      · unfold Block.stop at htb
        omega
      · intro _ hlast
        unfold LastAllocated at hlast
        rw [hinv'.toSane.blockChain_eq] at hlast
        have := hlast ⟨t.addr, 48, true⟩ (by simp)
        cases this
  obtain ⟨-, r, c, hrun, -, hinv', hcar, hle, hroom⟩ := hruns
  refine ⟨⟨c, r⟩, ?_, hinv', hcar, hle, hroom⟩
  unfold Manager.shrinkToFit
  rw [run_bind, run_onAllocator, hrun]
  rfl

/-- Growing back to the size before a `shrink_to_fit` is never refused. -/
theorem restore (h : ManagerInv live m) (h' : ManagerInv live m') (hcar : Carries live m m')
    (hle : m'.totalSize ≤ m.totalSize)
    (hroom : m'.totalSize < m.totalSize → LastAllocated m'.alloc → m'.totalSize+48 ≤ m.totalSize) :
    ∃ changed m'', (Manager.growToSize m.totalSize).run m' = (.ok changed, m'') ∧ ManagerInv live m'' ∧
      Carries live m m'' ∧ m''.totalSize = m.totalSize := by
  obtain ⟨bs, l, hinv, -⟩ := h.heap
  have hg := hinv.linked.geometry
  have hbegin := (place_eq hcar.place).2
  have htotal := h.total
  obtain ⟨changed, m'', hrun, hinv'', hcar', hyes, hno⟩ := h'.growToSize (n := m.totalSize)
    (by rw [htotal]; exact hg.size_aligned) (by rw [hbegin, htotal]; exact hg.end_room) (by rw [htotal]; exact hg.size_lt)
  refine ⟨changed, m'', hrun, hinv'', hcar.trans hcar', ?_⟩
  cases changed with
  | true => exact hyes rfl
  | false =>
    obtain ⟨rfl, hle' | ⟨hlast, hlt⟩⟩ := hno rfl
    · omega
    · by_cases heq : m''.totalSize = m.totalSize
      · exact heq
      · have := hroom (by omega) hlast
        omega

end ManagerInv

/-! The file around the manager. -/

variable {g g' : SharedSegment} {size : ℕ}

/-- The smallest multiple of the page size that is not below `size`. -/
def roundUp (size pageSize : ℕ) : ℕ := (size+pageSize-1)/pageSize*pageSize

theorem roundUp_spec (size : ℕ) (hk : 4 ≤ k) : size ≤ roundUp size (2^k) ∧ roundUp size (2^k)%16 = 0 := by
  have hpos := Nat.two_pow_pos k
  have hdiv := Nat.div_add_mod (size+2^k-1) (2^k)
  have hmod := Nat.mod_lt (size+2^k-1) hpos
  rw [mul_comm] at hdiv
  refine ⟨by unfold roundUp; omega, ?_⟩
  exact Nat.mod_eq_zero_of_dvd ((pow_dvd_pow 2 hk).trans (dvd_mul_left _ _))

structure SegmentInv (live : List LiveAlloc) (g : SharedSegment) : Prop where
  manager : ManagerInv live g.manager
  file : g.manager.totalSize ≤ g.fileSize

/-- What a resize leaves behind, returning true or not. -/
structure AllOrNothing (live : List LiveAlloc) (g : SharedSegment) (x : Outcome Thrown Bool × SharedSegment) : Prop where
  returns : x.1 ≠ .hang
  inv : SegmentInv live x.2
  carries : Carries live g.manager x.2.manager
  nothing : x.1 ≠ .ok true → x.2.manager.totalSize = g.manager.totalSize

theorem run_onManager {α : Type} (p : Prog Manager Thrown α) (g : SharedSegment) :
    (ManagedSharedMemory.onManager p).run g = ((p.run g.manager).1, { g with manager := (p.run g.manager).2 }) := by
  unfold ManagedSharedMemory.onManager
  refine run_zoom ?_ ?_ ?_ p g <;> intros <;> rfl

theorem run_alignSize (hk : k < 63) (hs : size+2^k ≤ 2^64) :
    (ManagedSharedMemory.alignSize size (2^k)).run g = (.ok (roundUp size (2^k)), g) := by
  have hpos := Nat.two_pow_pos k
  have hadd : add64 size (2^k-1) = size+2^k-1 := by unfold add64; omega
  unfold ManagedSharedMemory.alignSize
  rw [if_neg (by omega), hadd, and_not64_mask (by omega) (by omega)]
  rfl

theorem run_alignSize_overflow (hk : k < 63) (hs : 2^64 < size+2^k) :
    (ManagedSharedMemory.alignSize size (2^k)).run g = (.error (.interprocess .allocationSizeOverflow), g) := by
  have hpow : 2^k ≤ 2^62 := Nat.pow_le_pow_right (by omega) (by omega)
  unfold ManagedSharedMemory.alignSize
  rw [if_pos (by omega)]
  rfl

namespace SegmentInv

/-- A truncate that leaves the file long enough for the segment is not seen by the manager. -/
theorem truncate (h : SegmentInv live g) (hle : g.manager.totalSize ≤ n) :
    SegmentInv live (g.truncate n) ∧ Carries live g.manager (g.truncate n).manager := by
  obtain ⟨bs, l, hinv, htail⟩ := h.manager.heap
  have hfile := h.file
  have htotal := h.manager.total
  have hinv' := hinv.beyond (f := (g.truncate n).manager.alloc.mem) fun x hx => if_pos (by omega)
  refine ⟨⟨⟨⟨bs, l, hinv', htail⟩, htotal⟩, hle⟩, rfl, fun a ha x hx hx' => if_pos ?_, fun b hb => ?_⟩
  · obtain ⟨b, hb, hh⟩ := hinv.placed a ha
    have hend := (hinv.linked.mem_bounds hb).2.1
    have hwithin := hh.within
    omega
  · rw [hinv.toSane.blockChain_eq, show blockChain (g.truncate n).manager.alloc = bs from hinv'.toSane.blockChain_eq]

theorem unchanged (h : SegmentInv live g) {r : Outcome Thrown Bool} (hr : r ≠ .hang) : AllOrNothing live g (r, g) :=
  ⟨hr, h, .refl _, fun _ => rfl⟩

/-- Every way out of `grow` leaves the segment as before in a file that holds it, or grown. -/
theorem grow (h : SegmentInv live g) (hk : 4 ≤ k) (hk' : k < 63) {outcome : ℕ → TruncateOutcome} {extra : ℕ}
    (hmap : 0 < extra → g.fileSize+extra+2^k ≤ 2^64 → outcome 0 = .done →
      g.manager.alloc.segmentBegin+roundUp (g.fileSize+extra) (2^k)+48 ≤ 2^64 ∧ roundUp (g.fileSize+extra) (2^k) < 2^63) :
    AllOrNothing live g ((ManagedSharedMemory.grow (2^k) outcome extra).run g) := by
  have hfile := h.file
  unfold ManagedSharedMemory.grow
  by_cases h0 : extra = 0
  · rw [if_pos h0]
    exact h.unchanged (by simp)
  rw [if_neg h0, run_get_bind]
  dsimp only
  by_cases hover : 2^64-1-g.fileSize < extra
  · rw [if_pos hover]
    exact h.unchanged (by simp)
  rw [if_neg hover]
  by_cases hover' : 2^64 < g.fileSize+extra+2^k
  · rw [run_bind_error (run_alignSize_overflow hk' hover')]
    exact h.unchanged (by simp)
  rw [run_bind_ok (run_alignSize hk' (not_lt.mp hover'))]
  obtain ⟨hle, h16⟩ := roundUp_spec (g.fileSize+extra) hk
  rw [if_neg (by omega)]
  generalize hnew : roundUp (g.fileSize+extra) (2^k) = new at *
  cases ho : outcome 0 with
  | refused => exact h.unchanged (by simp)
  | failed => exact h.unchanged (by simp)
  | done =>
    obtain ⟨hroom, hlt⟩ := hmap (by omega) (not_lt.mp hover') ho
    obtain ⟨h₁, hcar₁⟩ := h.truncate (n := new) (by omega)
    obtain ⟨changed, m', hrun, hinv', hcar', hyes, hno⟩ := h₁.manager.growToSize h16 hroom hlt
    rw [run_bind_ok (show (ManagedSharedMemory.tryTruncate .done new).run g = (.ok true, g.truncate new) from rfl),
      if_neg (by simp), run_bind, run_attempt]
    unfold ManagedSharedMemory.growMapped
    rw [run_bind, run_onManager, hrun]
    cases changed with
    | true =>
      have htotal := hyes rfl
      exact ⟨by simp, ⟨hinv', htotal.le⟩, hcar₁.trans hcar', fun hne => absurd rfl hne⟩
    | false =>
      obtain ⟨rfl, -⟩ := hno rfl
      -- the manager is as before; the file goes back to its old size, or stays longer
      obtain ⟨h₂, hcar₂⟩ := h₁.truncate (n := g.fileSize) hfile
      have hback := AllOrNothing.mk (g := g) (x := (.ok false, (g.truncate new).truncate g.fileSize)) (by simp) h₂
        (hcar₁.trans hcar₂) fun _ => rfl
      have hback' := AllOrNothing.mk (g := g) (x := (.error .systemError, (g.truncate new).truncate g.fileSize)) (by simp) h₂
        (hcar₁.trans hcar₂) fun _ => rfl
      have hstay : ∀ r, r ≠ .hang → AllOrNothing live g (r, g.truncate new) := fun r hr => ⟨hr, h₁, hcar₁, fun _ => rfl⟩
      cases ho₁ : outcome 1 with
      | done => exact hback
      | refused => exact hstay _ (by simp)
      | failed =>
        cases ho₂ : outcome 2 with
        | done => exact hback'
        | refused => exact hstay _ (by simp)
        | failed => exact hstay _ (by simp)

/-- Every way out of `shrink_to_fit` but the one through a truncate that is done grows the manager back. -/
theorem shrinkToFit (h : SegmentInv live g) (hk : 4 ≤ k) (hk' : k < 63) (outcome : TruncateOutcome) :
    AllOrNothing live g ((ManagedSharedMemory.shrinkToFit (2^k) outcome).run g) := by
  have hfile := h.file
  obtain ⟨m', hrun, hinv', hcar', hle, hroom⟩ := h.manager.shrinkToFit
  -- where the file cannot follow, `grow_to_size` takes the manager back
  obtain ⟨changed, m'', hback, hinv'', hcar'', htotal⟩ := h.manager.restore hinv' hcar' hle hroom
  have hlt : m'.totalSize < 2^63 := by
    obtain ⟨bs, l, hinv, -⟩ := hinv'.heap
    rw [hinv'.total]
    exact hinv.linked.geometry.size_lt
  have hpow : 2^k ≤ 2^62 := Nat.pow_le_pow_right (by omega) (by omega)
  have hrestored : ∀ r : Outcome Thrown Bool, r ≠ .hang → AllOrNothing live g (r, { g with manager := m'' }) := fun r hr =>
    ⟨hr, ⟨hinv'', by dsimp only; omega⟩, hcar'', fun _ => htotal⟩
  have hgrow : (ManagedSharedMemory.onManager (Manager.growToSize g.manager.totalSize)).run { g with manager := m' } =
      (.ok changed, { g with manager := m'' }) := by rw [run_onManager, hback]
  unfold ManagedSharedMemory.shrinkToFit
  rw [run_get_bind]
  dsimp only
  rw [run_bind, run_onManager, hrun]
  dsimp only
  rw [run_bind_ok (run_alignSize hk' (by omega))]
  have hround := (roundUp_spec m'.totalSize hk).1
  generalize hnew : roundUp m'.totalSize (2^k) = new at *
  by_cases hstay : g.manager.totalSize ≤ m'.totalSize ∧ g.fileSize ≤ new
  · rw [if_pos hstay, run_pure]
    exact ⟨by simp, ⟨hinv', by dsimp only; omega⟩, hcar', fun _ => by dsimp only; omega⟩
  rw [if_neg hstay]
  by_cases hpage : g.fileSize ≤ new
  · rw [if_pos hpage, run_bind_ok hgrow]
    exact hrestored _ (by simp)
  rw [if_neg hpage, run_bind, run_attempt]
  have hinv₁ : SegmentInv live { g with manager := m' } := ⟨hinv', by dsimp only; omega⟩
  unfold ManagedSharedMemory.shrinkMapped
  -- what `ftruncate` may have done, as far as the caller sees
  cases outcome with
  | done =>
    obtain ⟨h₂, hcar₂⟩ := hinv₁.truncate (n := new) hround
    have hcut : AllOrNothing live g (.ok true, SharedSegment.truncate new { g with manager := m' }) :=
      ⟨by simp, h₂, hcar'.trans hcar₂, fun hne => absurd rfl hne⟩
    exact hcut
  | refused =>
    rw [run_bind_ok (show (ManagedSharedMemory.tryTruncate .refused new).run _ = (.ok false, { g with manager := m' }) from rfl),
      if_neg (by simp), run_bind_ok hgrow]
    exact hrestored (.ok false) (by simp)
  | failed =>
    rw [run_bind_error (show (ManagedSharedMemory.tryTruncate .failed new).run _ = (.error .systemError, { g with manager := m' })
      from rfl)]
    dsimp only
    rw [run_bind, run_attempt, hgrow]
    exact hrestored (.error .systemError) (by simp)

end SegmentInv

/-! Runs of a segment whose users allocate, free and resize. -/

/-- The segment beside the allocations its users hold and the payloads they have freed. -/
structure SharedHeap where
  segment : SharedSegment
  live : List LiveAlloc
  freed : List ℕ

namespace SharedHeap

def heap (g : SharedHeap) : Heap := ⟨g.segment.manager.alloc, g.live, g.freed⟩

def withHeap (g : SharedHeap) (h : Heap) : SharedHeap :=
  ⟨{ g.segment with manager := { g.segment.manager with alloc := h.alloc } }, h.live, h.freed⟩

end SharedHeap

/-- A resize and what its truncates answer. -/
inductive Resize where
  | grow (outcome : ℕ → TruncateOutcome) (extraBytes : ℕ)
  | shrinkToFit (outcome : TruncateOutcome)

def Resize.run (pageSize : ℕ) (g : SharedSegment) : Resize → Outcome Thrown Bool × SharedSegment
  | .grow outcome extraBytes => (ManagedSharedMemory.grow pageSize outcome extraBytes).run g
  | .shrinkToFit outcome => (ManagedSharedMemory.shrinkToFit pageSize outcome).run g

/-- A grown file can be mapped: it ends below the top of the address space. -/
def Resize.Maps (pageSize : ℕ) (g : SharedSegment) : Resize → Prop
  | .grow outcome extraBytes => 0 < extraBytes → g.fileSize+extraBytes+pageSize ≤ 2^64 → outcome 0 = .done →
      g.manager.alloc.segmentBegin+roundUp (g.fileSize+extraBytes) pageSize+48 ≤ 2^64 ∧
        roundUp (g.fileSize+extraBytes) pageSize < 2^63
  | .shrinkToFit _ => True

/-- The states users bring about by allocator operations of a kind, and by the two resizes. -/
inductive SharedRun (promised : Heap → Call → Prop) (pageSize : ℕ) : SharedHeap → Prop
  | created {s c : Allocator} {base headerSize totalSize fileSize : ℕ} (hs : FreshSegment s base headerSize totalSize)
      (hrun : (initializeAllocator base headerSize totalSize).run s = (.ok (), c)) (hfile : totalSize ≤ fileSize) :
      SharedRun promised pageSize ⟨⟨⟨c, totalSize⟩, fileSize⟩, [], []⟩
  | call {g : SharedHeap} {h : Heap} (call : Call) (hg : SharedRun promised pageSize g) (hgrow : ∀ n, call ≠ .grow n)
      (hshrink : call ≠ .shrinkToFit) (ha : promised g.heap call) (he : g.heap.exec call = some h) :
      SharedRun promised pageSize (g.withHeap h)
  | resize {g : SharedHeap} (op : Resize) (hg : SharedRun promised pageSize g) (hm : op.Maps pageSize g.segment) :
      SharedRun promised pageSize { g with segment := (op.run pageSize g.segment).2 }

/-- No layout that is asked for wraps. -/
abbrev SharedReachable : ℕ → SharedHeap → Prop := SharedRun Heap.Admissible

theorem SegmentInv.resize (h : SegmentInv live g) (hk : 4 ≤ k) (hk' : k < 63) {op : Resize} (hm : op.Maps (2^k) g) :
    AllOrNothing live g (op.run (2^k) g) := by
  cases op with
  | grow outcome extraBytes => exact h.grow hk hk' hm
  | shrinkToFit outcome => exact h.shrinkToFit hk hk' outcome

theorem SharedReachable.inv {g : SharedHeap} (h : SharedReachable (2^k) g) (hk : 4 ≤ k) (hk' : k < 63) :
    SegmentInv g.live g.segment := by
  induction h with
  | @created s c base headerSize totalSize fileSize hs hrun hfile =>
    obtain ⟨bs, l, hinv⟩ := (Reachable.fresh hs hrun).inv
    obtain ⟨-, _, c', hrun', hc⟩ := ShmNext.runs_initialize hs.base_pos hs.self_ge hs.self_below hs.header_fits hs.end_room hs.size_lt
    rw [hrun] at hrun'
    obtain rfl := (Prod.ext_iff.mp hrun').2
    refine ⟨⟨⟨bs, l, hinv, fun b hb hf => ?_⟩, hc.size_eq.symm⟩, hfile⟩
    -- nothing is allocated in a new segment
    rcases hinv.owned b hb hf with hl | ⟨a, ha, -⟩
    · exact hl.elim
    · cases ha
  | @call g h call _ hgrow hshrink hadm hexec ih =>
    obtain ⟨bs, l, hinv, htail⟩ := ih.manager.heap
    obtain ⟨hplace, hsize⟩ := Heap.exec_fields hexec hgrow hshrink
    obtain ⟨bs', l', hinv'⟩ := (HeapInv.step (g := g.heap) hinv hadm hexec).1
    obtain ⟨bs'', l'', hwf, htail'⟩ := Roomy.exec (g := g.heap) ⟨bs, l, hinv.toWellFormed, htail⟩ hinv hadm hexec hgrow hshrink
    obtain rfl := hwf.toSane.chain_unique hinv'.toSane
    exact ⟨⟨⟨_, l', hinv', htail'⟩, ih.manager.total.trans hsize.symm⟩, ih.file⟩
  | resize op _ hm ih => exact (ih.resize hk hk' hm).inv

/-- After any resize the file holds the segment the manager announces, the allocator invariant holds
and every live block is where it was with its contents. A resize that returns false or throws leaves
the size, the block chain and the free list as they were; so do the manager's `shrink_to_fit` and a
`grow_to_size` back. -/
theorem resize_all_or_nothing {g : SharedHeap} (h : SharedReachable (2^k) g) (hk : 4 ≤ k) (hk' : k < 63) :
    (∀ op : Resize, op.Maps (2^k) g.segment → ∃ r g', op.run (2^k) g.segment = (r, g') ∧ r ≠ .hang ∧
      g'.manager.totalSize ≤ g'.fileSize ∧ g'.manager.totalSize = g'.manager.alloc.segmentSize ∧
      (∃ bs l, HeapInv (fun _ => False) g'.manager.alloc g.live bs l) ∧
      (∀ a ∈ g.live, SamePayload a g.segment.manager.alloc.mem g'.manager.alloc.mem) ∧
      (∀ b : Block, b.free = false → (b ∈ blockChain g'.manager.alloc ↔ b ∈ blockChain g.segment.manager.alloc)) ∧
      (r ≠ .ok true → g'.manager.totalSize = g.segment.manager.totalSize ∧
        blockChain g'.manager.alloc = blockChain g.segment.manager.alloc ∧
        freeList g'.manager.alloc = freeList g.segment.manager.alloc)) ∧
    ∃ n m r m', Manager.shrinkToFit.run g.segment.manager = (.ok n, m) ∧
      (Manager.growToSize g.segment.manager.totalSize).run m = (.ok r, m') ∧
      m'.totalSize = g.segment.manager.totalSize ∧ blockChain m'.alloc = blockChain g.segment.manager.alloc ∧
      freeList m'.alloc = freeList g.segment.manager.alloc := by
  have hinv := h.inv hk hk'
  refine ⟨fun op hm => ?_, ?_⟩
  · obtain ⟨hret, hinv', hcar, hno⟩ := hinv.resize hk hk' hm
    obtain ⟨bs, l, hheap, -⟩ := hinv'.manager.heap
    exact ⟨_, _, rfl, hret, hinv'.file, hinv'.manager.total, ⟨bs, l, hheap⟩, hcar.payloads, hcar.blocks,
      fun hr => ⟨hno hr, hinv.manager.unchanged hinv'.manager hcar (hno hr)⟩⟩
  · obtain ⟨m, hrun, hm, hcar, hle, hroom⟩ := hinv.manager.shrinkToFit
    obtain ⟨r, m', hrun', hm', hcar', htotal⟩ := hinv.manager.restore hm hcar hle hroom
    exact ⟨_, m, r, m', hrun, hrun', htotal, hinv.manager.unchanged hm' hcar' htotal⟩

/-- The small segment in a file of its own size, with one allocation. -/
def smallShared : SharedHeap := ⟨⟨⟨smallHeap.alloc, 4096⟩, 4096⟩, [], []⟩

def sharedHeap : SharedHeap :=
  smallShared.withHeap ((smallShared.heap.exec (.allocate 16 64)).get (by decide +kernel))

theorem smallShared_run (promised : Heap → Call → Prop) : SharedRun promised (2^12) smallShared := by
  have hs : FreshSegment smallSegment 4096 112 4096 :=
    ⟨by decide, by decide, by decide, by decide, by decide, by decide, by decide, by decide, by decide⟩
  exact .created hs (Prod.ext (by decide +kernel) rfl) le_rfl

theorem sharedHeap_reachable : SharedReachable (2^12) sharedHeap := by
  have hcreated := smallShared_run Heap.Admissible
  exact hcreated.call (.allocate 16 64) (by simp) (by simp) (by decide +kernel) (Option.some_get _).symm

/-- A refused truncate at the end of a shrink, and a failed one after a grow. -/
theorem resize_all_or_nothing_sharedHeap :
    (∃ r g', (Resize.shrinkToFit .refused).run (2^12) sharedHeap.segment = (r, g') ∧
      (r ≠ .ok true → freeList g'.manager.alloc = freeList sharedHeap.segment.manager.alloc)) ∧
    ∃ r g', (Resize.grow (fun _ => .failed) 1).run (2^12) sharedHeap.segment = (r, g') ∧
      (r ≠ .ok true → blockChain g'.manager.alloc = blockChain sharedHeap.segment.manager.alloc) := by
  obtain ⟨hall, -⟩ := resize_all_or_nothing sharedHeap_reachable (by decide) (by decide)
  obtain ⟨r, g', hrun, -, -, -, -, -, -, hno⟩ := hall (.shrinkToFit .refused) trivial
  obtain ⟨r', g'', hrun', -, -, -, -, -, -, hno'⟩ := hall (.grow (fun _ => .failed) 1) fun _ _ h => by cases h
  exact ⟨⟨r, g', hrun, fun hr => (hno hr).2.2⟩, r', g'', hrun', fun hr => (hno' hr).2.1⟩

/-- What callers keep to, whatever their layouts come to: sizes are 64-bit, alignments are powers of two, and they expand
what they hold. -/
def Heap.Promised (g : Heap) : Call → Prop
  | .allocate size al | .allocateMany size _ al => size < 2^64 ∧ ∃ k < 64, al = 2^k
  | .tryExpand p newSize al => g.Holds p ∧ newSize < 2^64 ∧ ∃ k < 64, al = 2^k
  | call => g.Admissible call

/-- The small segment after an allocation whose layout wraps to sixteen bytes. -/
def wrappedShared : SharedHeap := smallShared.withHeap ((smallShared.heap.exec (.allocate (2^64-63) 16)).getD smallShared.heap)

theorem wrappedShared_run : SharedRun Heap.Promised (2^12) wrappedShared := by
  have hsome : (smallShared.heap.exec (.allocate (2^64-63) 16)).isSome = true := by decide +kernel
  obtain ⟨g, hg⟩ := Option.isSome_iff_exists.mp hsome
  have hnext := (smallShared_run Heap.Promised).call (.allocate (2^64-63) 16) (by simp) (by simp) ⟨by decide, 4, by decide, rfl⟩ hg
  unfold wrappedShared
  rw [hg]
  exact hnext

/-- After a layout that has wrapped, a `grow` returns true and leaves a segment without the invariant. -/
theorem grow_after_wrapped_layout : ((Resize.grow (fun _ => .done) 1).run (2^12) wrappedShared.segment).1 = .ok true ∧
    ¬ ∀ g : SharedHeap, SharedRun Heap.Promised (2^12) g → ∀ op : Resize, op.Maps (2^12) g.segment →
      ∃ bs l, HeapInv (fun _ => False) (op.run (2^12) g.segment).2.manager.alloc g.live bs l := by
  refine ⟨by decide +kernel, fun hall => ?_⟩
  have hinsane : checkSanity ((Resize.grow (fun _ => .done) 1).run (2^12) wrappedShared.segment).2.manager.alloc = false := by
    decide +kernel
  obtain ⟨bs, l, hinv⟩ := hall wrappedShared wrappedShared_run (.grow (fun _ => .done) 1) fun _ _ _ => by decide +kernel
  rw [hinv.toSane.checkSanity_eq_true] at hinsane
  cases hinsane

end ShmNext
