import ShmNext.AllocatorRuns

/-! The allocator as a state machine: `initialize` on a mapped segment, then any calls. -/
namespace ShmNext
open Prog

variable {s c : Allocator} {b : Block} {a : LiveAlloc} {bs l : List Block} {live : List LiveAlloc}
  {n al A base headerSize totalSize : ℕ} {ps : List ℕ} {lost : ℕ → Prop}

/-- The segment `initialize` is called on: 16-aligned, of a size that is a multiple of 16,
with the allocator object inside the manager header, mapped below the top of the address space. -/
structure FreshSegment (s : Allocator) (base headerSize totalSize : ℕ) : Prop where
  base_pos : 0 < base
  base_aligned : base%16 = 0
  total_aligned : totalSize%16 = 0
  self_aligned : s.self%8 = 0
  self_ge : base ≤ s.self
  self_below : s.self+112 ≤ base+alignUp headerSize alignment
  header_fits : alignUp headerSize alignment+blockHeaderSize ≤ totalSize
  end_room : base+totalSize+48 ≤ 2^64
  size_lt : totalSize < 2^63

/-- One free block over all of the segment, alone on the free list. -/
theorem Geometry.oneFree (h : Geometry s) (hroom : s.first+32 ≤ s.segmentBegin+s.segmentSize) (hhead : s.head = s.first)
    (hsize : blockSize s.mem s.first = s.segmentBegin+s.segmentSize-s.first) (hfree : isFreeByte s.mem s.first = boolByte true)
    (hnext : nextFree s.mem s.first = 0) :
    ∃ b : Block, b.free = true ∧ WellFormed s [b] [b] := by
  have h1 := h.begin_aligned
  have h2 := h.size_aligned
  have h3 := h.first_aligned
  have h4 := h.self_below
  refine ⟨⟨s.first, s.segmentBegin+s.segmentSize-s.first, true⟩, rfl, ⟨⟨h, ?_, le_rfl, ?_, ?_, ?_⟩, ?_⟩, ?_, ?_⟩
  · rw [Tiles.cons_iff, Tiles.nil_iff]
    refine ⟨rfl, ?_, ?_, ?_⟩ <;> (dsimp only; omega)
  · intro b hb
    rw [List.mem_singleton.mp hb]
    exact ⟨hsize, hfree⟩
  · rw [List.map_singleton, LinkedFrom.cons_iff, LinkedFrom.nil_iff]
    exact ⟨hhead, by dsimp only; omega, hnext⟩
  · exact fun b hb => ⟨hb, by rw [List.mem_singleton.mp hb]⟩
  · exact fun b hb _ => hb
  · exact List.pairwise_singleton _ _
  · exact List.isChain_singleton _

/-- Writing the header of a new free block. -/
theorem runs_freeHeader {block size : ℕ} (hsize : size < 2^64) {k : Op Unit} {Q : Unit → Allocator → Prop}
    (hk : ∀ m, HeaderAt m ⟨block, size, true⟩ → nextFree m block = 0 → k.Runs { s with mem := m } (fun _ => True) Q) :
    (do setSize block size
        setIsFree block true
        setNextFree block 0
        k : Op Unit).Runs s (fun _ => True) Q := by
  let m := ((s.mem.store64 block size).store8 (block+8) true.toNat).store64 (block+16) offsetPtrNull
  have hheader : HeaderAt m ⟨block, size, true⟩ :=
    (headerAt_fresh s.mem block hsize true).congr fun x _ hx => Mem.store64_of_outside _ (by simp only at hx; omega)
  have hnext : nextFree m block = 0 := by
    unfold nextFree
    rw [Mem.load64_store64 _ _ _ (by decide), getPointer_null]
  refine runs_store_bind trivial (runs_store_bind trivial ?_)
  unfold setNextFree storePointer
  rw [setPointer_null]
  exact runs_store_bind trivial (hk m hheader hnext)

theorem runs_setFreeListHead_word {ptr w : ℕ} (hw : setPointer (s.self+24) ptr = some w) :
    (setFreeListHead ptr).Runs s (fun _ => True) fun _ c => c = { s with freeListHead := w } := by
  unfold setFreeListHead
  refine runs_get_bind ?_
  rw [hw]
  exact runs_store trivial rfl

/-- What `initialize` leaves behind a header of `header` bytes: one block over the rest. -/
structure Initialized (s c : Allocator) (base header totalSize : ℕ) : Prop where
  self : c.self = s.self
  begin_eq : c.segmentBegin = base
  size_eq : c.segmentSize = totalSize
  first_eq : c.first = base+header
  head_eq : c.head = base+header
  block : HeaderAt c.mem ⟨base+header, totalSize-header, true⟩
  next : nextFree c.mem (base+header) = 0

/-- `initialize` of any region that is large enough, whatever its size is a multiple of. -/
theorem runs_initialize (h1 : 0 < base) (h5 : base ≤ s.self) (h6 : s.self+112 ≤ base+alignUp headerSize alignment)
    (h7 : alignUp headerSize alignment+blockHeaderSize ≤ totalSize) (h8 : base+totalSize+48 ≤ 2^64) (h9 : totalSize < 2^63) :
    (initializeAllocator base headerSize totalSize).Runs s (fun _ => True) fun _ c =>
      Initialized s c base (alignUp headerSize alignment) totalSize := by
  unfold initializeAllocator
  generalize alignUp headerSize alignment = header at *
  unfold blockHeaderSize at *
  have hadd : add64 header 32 = header+32 := by unfold add64; omega
  have hfirst : add64 base header = base+header := by unfold add64; omega
  have hsub : sub64 totalSize header = totalSize-header := by unfold sub64; omega
  obtain ⟨w₁, hw₁, -, hg₁⟩ := @setPointer_near s.self base (by omega) (by omega)
    (by unfold maxOffset; omega) (by unfold maxOffset; omega) (by omega)
  obtain ⟨w₂, hw₂, -, hg₂⟩ := @setPointer_near (s.self+16) (base+header) (by omega) (by omega)
    (by unfold maxOffset; omega) (by unfold maxOffset; omega) (by omega)
  obtain ⟨w₃, hw₃, -, hg₃⟩ := @setPointer_near (s.self+24) (base+header) (by omega) (by omega)
    (by unfold maxOffset; omega) (by unfold maxOffset; omega) (by omega)
  refine runs_get_bind ?_
  simp only [hadd, hfirst, hsub]
  rw [if_neg (by omega)]
  refine runs_freeHeader (show totalSize-header < 2^64 by omega) fun m hheader hnext => ?_
  rw [hw₁]
  refine runs_store_bind trivial (runs_store_bind trivial ?_)
  rw [hw₂]
  refine runs_store_bind trivial ?_
  refine Runs.bind (runs_setFreeListHead_word (w := w₃) ?_) fun _ d hd => runs_count fun c hc => ⟨trivial, ?_⟩
  · exact hw₃
  obtain ⟨k, rfl⟩ := hc
  subst hd
  refine ⟨rfl, ?_, rfl, ?_, ?_, hheader, hnext⟩
  · exact hg₁
  · exact hg₂
  · exact hg₃

theorem alignUp_aligned (n : ℕ) : alignUp n alignment%16 = 0 := by
  rw [show alignment = 2^4 from rfl, alignUp_eq (by omega), show (2 : ℕ)^4 = 16 from rfl]
  exact Nat.mul_mod_left _ _

/-- `initialize` leaves one free block over all of the segment behind the header. -/
theorem FreshSegment.runs_initialize (h : FreshSegment s base headerSize totalSize) :
    (initializeAllocator base headerSize totalSize).Runs s (fun _ => True) fun _ c =>
      ∃ b : Block, b.free = true ∧ WellFormed c [b] [b] := by
  obtain ⟨h1, h2, h3, h4, h5, h6, h7, h8, h9⟩ := h
  have h16 := alignUp_aligned headerSize
  refine (ShmNext.runs_initialize h1 h5 h6 h7 h8 h9).mono (fun _ _ => trivial) fun _ c hc => ?_
  obtain ⟨hself, hbegin, hsize, hfirst, hhead, hheader, hnext⟩ := hc
  unfold blockHeaderSize at h7
  have hgeo : Geometry c := ⟨by omega, by omega, by omega, by omega, by omega, by omega, by omega, by omega, by omega⟩
  refine hgeo.oneFree (by omega) (hhead.trans hfirst.symm) ?_ (by rw [hfirst, hheader.2]) (by rw [hfirst, hnext])
  rw [hfirst, hheader.1, hbegin, hsize]
  dsimp only
  omega

/-- What callers do: a member call, or a store of their own. -/
inductive Call where
  | allocate (size requestedAlignment : ℕ)
  | allocateMany (size count requestedAlignment : ℕ)
  | deallocate (ptr : ℕ)
  | deallocateMany (ptrs : List ℕ)
  | tryExpand (ptr newSize requestedAlignment : ℕ)
  | grow (newSegmentSize : ℕ)
  | shrinkToFit
  | zeroFreeMemory
  | userWrite (address : ℕ) (value : UInt8)

/-- The allocator beside the allocations its callers hold and the payloads they have freed. -/
structure Heap where
  alloc : Allocator
  live : List LiveAlloc
  freed : List ℕ

/-- The allocations callers hold once a call has handed out the payloads `ps`. -/
def newAllocs (m : Mem) (size requestedAlignment : ℕ) (ps : List ℕ) : List LiveAlloc :=
  (ps.filter (· ≠ 0)).map fun p => ⟨headerBlock m p, p, size, (normalizeAlignment requestedAlignment).getD 0⟩

/-- The bytes below `ptr` read as the header of an allocated block: `deallocate` and
`try_expand` go ahead. -/
def TrustsHeader (s : Allocator) (ptr : ℕ) : Prop :=
  hasAllocationHeader s ptr = true ∧ isValidPayload s ptr (headerBlock s.mem ptr) = true ∧
    blockIsFree s.mem (headerBlock s.mem ptr) = false

instance (s : Allocator) (ptr : ℕ) : Decidable (TrustsHeader s ptr) := inferInstanceAs (Decidable (_ ∧ _))

namespace Heap

def Holds (g : Heap) (p : ℕ) : Prop := ∃ a ∈ g.live, a.payload = p

instance (g : Heap) (p : ℕ) : Decidable (g.Holds p) := inferInstanceAs (Decidable (∃ a ∈ g.live, a.payload = p))

/-- The callers have given back the payloads `ps`. -/
def release (g : Heap) (s : Allocator) (ps : List ℕ) : Heap :=
  { alloc := s
    live := g.live.filter (·.payload ∉ ps)
    freed := (g.live.filter (·.payload ∈ ps)).map LiveAlloc.payload ++ g.freed }

/-- One call. `none`: it does not come back, or `deallocate_many` throws half way. -/
def exec (g : Heap) : Call → Option Heap
  | .allocate size al =>
    match (ShmNext.allocate size al).run g.alloc with
    | (.ok p, s) => some { g with alloc := s, live := newAllocs s.mem size al [p] ++ g.live }
    | (.error _, s) => some { g with alloc := s }
    | (.hang, _) => none
  | .allocateMany size count al =>
    match (ShmNext.allocateMany size count al).run g.alloc with
    | (.ok (out, _), s) => some { g with alloc := s, live := newAllocs s.mem size al out.reverse ++ g.live }
    | _ => none
  | .deallocate p =>
    match (ShmNext.deallocate p).run g.alloc with
    | (.ok (), s) => some (g.release s [p])
    | (.error _, s) => some { g with alloc := s }
    | (.hang, _) => none
  | .deallocateMany ps =>
    match (ShmNext.deallocateMany ps).run g.alloc with
    | (.ok (), s) => some (g.release s ps)
    | _ => none
  | .tryExpand p newSize al =>
    match (ShmNext.tryExpand p newSize al).run g.alloc with
    | (.ok true, s) => some { g with alloc := s, live := resized g.live p newSize }
    | (.ok false, s) => some { g with alloc := s }
    | (.error _, s) => some { g with alloc := s }
    | (.hang, _) => none
  | .grow newSegmentSize =>
    match (ShmNext.grow newSegmentSize).run g.alloc with
    | (.hang, _) => none
    | (_, s) => some { g with alloc := s }
  | .shrinkToFit =>
    match ShmNext.shrinkToFit.run g.alloc with
    | (.hang, _) => none
    | (_, s) => some { g with alloc := s }
  | .zeroFreeMemory =>
    match ShmNext.zeroFreeMemory.run g.alloc with
    | (.hang, _) => none
    | (_, s) => some { g with alloc := s }
  | .userWrite x v => some { g with alloc := { g.alloc with mem := Function.update g.alloc.mem x v } }

/-- What callers keep to: sizes are 64-bit and the layouts do not wrap; they free null,
what they hold, or a pointer that is refused; a larger segment has been mapped; they
write into their payloads only. -/
def Admissible (g : Heap) : Call → Prop
  | .allocate size al => size < 2^64 ∧ AllocateFits g.alloc size al
  | .allocateMany size n al => size < 2^64 ∧
      ManyFits size al n ((count fun c => { c with allocateManyCalls := add64 c.allocateManyCalls 1 }).run g.alloc).2
  | .deallocate p => p = 0 ∨ g.Holds p ∨ ¬ TrustsHeader g.alloc p
  | .deallocateMany ps => (∀ p ∈ ps, p ≠ 0 → g.Holds p) ∧ (ps.filter (· ≠ 0)).Nodup
  | .tryExpand p newSize al => newSize < 2^64 ∧ ExpandFits g.alloc p newSize al
  | .grow n => g.alloc.segmentBegin+n+48 ≤ 2^64 ∧ n < 2^63
  | .shrinkToFit => True
  | .zeroFreeMemory => True
  | .userWrite x _ => ∃ a ∈ g.live, a.payload ≤ x ∧ x < a.payload+a.size

instance (g : Heap) : (call : Call) → Decidable (g.Admissible call)
  | .allocate _ _ | .allocateMany _ _ _ | .deallocateMany _ | .tryExpand _ _ _ | .grow _ =>
    inferInstanceAs (Decidable (_ ∧ _))
  | .deallocate _ => inferInstanceAs (Decidable (_ ∨ _))
  | .shrinkToFit | .zeroFreeMemory => inferInstanceAs (Decidable True)
  | .userWrite x _ => inferInstanceAs (Decidable (∃ a ∈ g.live, a.payload ≤ x ∧ x < a.payload+a.size))

/-- A sequence of calls, `none` where one is not admissible or does not come back. -/
def runCalls (g : Heap) : List Call → Option Heap
  | [] => some g
  | call :: calls => if g.Admissible call then (g.exec call).bind fun g' => g'.runCalls calls else none

end Heap

/-- The states the callers can bring about on an initialised segment. -/
inductive Reachable : Heap → Prop
  | fresh {s c : Allocator} {base headerSize totalSize : ℕ} (hs : FreshSegment s base headerSize totalSize)
      (hrun : (initializeAllocator base headerSize totalSize).run s = (.ok (), c)) : Reachable ⟨c, [], []⟩
  | step {g g' : Heap} (call : Call) (hg : Reachable g) (ha : g.Admissible call) (he : g.exec call = some g') :
      Reachable g'

theorem Reachable.runCalls {g g' : Heap} {calls : List Call} (h : Reachable g) (hrun : g.runCalls calls = some g') :
    Reachable g' := by
  induction calls generalizing g with
  | nil => exact Option.some.inj hrun ▸ h
  | cons call calls ih =>
    unfold Heap.runCalls at hrun
    split at hrun
    · rename_i hadm
      obtain ⟨d, hd, hrest⟩ := Option.bind_eq_some_iff.mp hrun
      exact ih (h.step call hadm hd) hrest
    · cases hrun

/-- The allocations a call itself ends. -/
def Call.Frees : Call → ℕ → Prop
  | .deallocate p, q => q = p
  | .deallocateMany ps, q => q ∈ ps
  | _, _ => False

instance : (call : Call) → (q : ℕ) → Decidable (call.Frees q)
  | .deallocate p, q => inferInstanceAs (Decidable (q = p))
  | .deallocateMany ps, q => inferInstanceAs (Decidable (q ∈ ps))
  | .allocate _ _, _ | .allocateMany _ _ _, _ | .tryExpand _ _ _, _ | .grow _, _ | .shrinkToFit, _
  | .zeroFreeMemory, _ | .userWrite _ _, _ => inferInstanceAs (Decidable False)

/-- A `try_expand` that goes through changes no payload byte by recording the new size below
its pointer, as none that is for a held payload does. -/
def ExpandsApart (s : Allocator) (live : List LiveAlloc) (p n al : ℕ) : Prop :=
  n ≠ 0 → TrustsHeader s p → ∀ A ∈ normalizeAlignment al, CanExpand s (headerBlock s.mem p) p n A → RecordsApart live s p n

/-- The condition under which a member call leaves all other payloads alone. -/
def Heap.Isolating (g : Heap) : Call → Prop
  | .tryExpand p n al => ExpandsApart g.alloc g.live p n al
  | .userWrite _ _ => False
  | _ => True

/-- A caller's own store is not a call of a member function. -/
def Call.Member : Call → Prop
  | .userWrite _ _ => False
  | _ => True

/-- What one call keeps. -/
def StepKeeps (lost : ℕ → Prop) (g : Heap) (call : Call) (g' : Heap) : Prop :=
  (∃ bs l, HeapInv lost g'.alloc g'.live bs l) ∧
    (g.Isolating call → ∀ a ∈ g.live, ¬ call.Frees a.payload → SamePayload a g.alloc.mem g'.alloc.mem)

/-- With an alignment that does not normalise, the call counter is the only store. -/
theorem allocate_hang (hn : n ≠ 0) (ha : normalizeAlignment al = none) :
    ∃ d, CountersOnly s d ∧ (allocate n al).run s = (.hang, d) ∧ (allocate n al).trace s = [d] := by
  unfold allocate
  rw [if_neg hn, ha]
  exact ⟨_, ⟨_, rfl⟩, rfl, rfl⟩

@[simp] theorem newAllocs_null (m : Mem) : newAllocs m n al [0] = [] := rfl

theorem newAllocs_one (m : Mem) {p : ℕ} (hp : p ≠ 0) (ha : normalizeAlignment al = some A) :
    newAllocs m n al [p] = [⟨headerBlock m p, p, n, A⟩] := by
  simp [newAllocs, hp, ha]

theorem newAllocs_nulls (m : Mem) {ps : List ℕ} (h : ∀ p ∈ ps, p = 0) : newAllocs m n al ps = [] := by
  unfold newAllocs
  rw [List.filter_eq_nil_iff.mpr fun p hp => by simp [h p hp], List.map_nil]

namespace HeapInv
variable {g g' : Heap}

/-- The payloads handed out name the new allocations. -/
theorem newAllocs_eq {news : List LiveAlloc} (h : HeapInv lost s (news ++ live) bs l)
    (ha : normalizeAlignment al = some A) (hnew : ∀ a ∈ news, a.size = n ∧ a.align = A) :
    newAllocs s.mem n al (news.map LiveAlloc.payload) = news := by
  unfold newAllocs
  rw [List.filter_eq_self.mpr, List.map_map, ha]
  · refine (List.map_congr_left fun a hal => ?_).trans (List.map_id _)
    obtain ⟨b, _, hh⟩ := h.placed a (List.mem_append_left _ hal)
    obtain ⟨block, payload, size, align⟩ := a
    obtain ⟨rfl, rfl⟩ := hnew _ hal
    simp [hh.header.block_eq]
  · intro p hp
    obtain ⟨a, hal, rfl⟩ := List.mem_map.mp hp
    exact decide_eq_true (h.payload_pos (List.mem_append_left _ hal))

theorem step_allocate (h : HeapInv lost g.alloc g.live bs l) (hadm : g.Admissible (.allocate n al))
    (hexec : g.exec (.allocate n al) = some g') : StepKeeps lost g (.allocate n al) g' := by
  unfold Heap.exec at hexec
  dsimp only at hexec
  by_cases hn : n = 0
  · subst hn
    rw [Sane.allocate_zero] at hexec
    obtain rfl := Option.some.inj hexec
    exact ⟨⟨bs, l, h.counters ⟨_, rfl⟩⟩, fun _ a _ _ => .refl a _⟩
  cases ha : normalizeAlignment al with
  | none =>
    obtain ⟨d, -, hrun, -⟩ := allocate_hang (s := g.alloc) hn ha
    rw [hrun] at hexec
    cases hexec
  | some A =>
    rcases h.run_allocate (Nat.pos_of_ne_zero hn) hadm.1 ha hadm.2 with
      ⟨p, c, hrun, hp, hinv, hbytes⟩ | ⟨c, hrun, hc⟩ <;> rw [hrun] at hexec <;> obtain rfl := Option.some.inj hexec
    · refine ⟨?_, fun _ a hal _ => hbytes a hal⟩
      rw [newAllocs_one _ hp ha]
      exact hinv
    · exact ⟨⟨bs, l, h.counters hc⟩, fun _ a _ _ => hc.mem_eq ▸ .refl a _⟩

/-- Zero-size requests of `allocate_many` only count. -/
theorem run_allocateManyLoop_zero (left : ℕ) (out : List ℕ) (s : Allocator) :
    ∃ c, (allocateManyLoop 0 al left out).run s = (.ok ((List.replicate left 0 ++ out).reverse, none), c) ∧
      CountersOnly s c := by
  induction left generalizing out s with
  | zero => exact ⟨s, rfl, .refl s⟩
  | succ left ih =>
    obtain ⟨c, hrun, hc⟩ := ih (0 :: out) { s with counters := { s.counters with
      allocateCalls := add64 s.counters.allocateCalls 1 } }
    have hstep : (allocate 0 al).attempt.run s = (.ok (.ok 0), { s with counters := { s.counters with
        allocateCalls := add64 s.counters.allocateCalls 1 } }) := by
      rw [run_attempt, Sane.allocate_zero]
    unfold allocateManyLoop
    refine ⟨c, (run_bind_ok hstep _).trans (hrun.trans ?_), .trans ⟨_, rfl⟩ hc⟩
    rw [List.replicate_succ', List.append_assoc, List.singleton_append]

theorem allocateManyLoop_hang {left : ℕ} {out : List ℕ} (hn : n ≠ 0) (ha : normalizeAlignment al = none) :
    ∃ d, (allocateManyLoop n al (left+1) out).run s = (.hang, d) := by
  obtain ⟨d, -, hrun, -⟩ := allocate_hang (s := s) hn ha
  refine ⟨d, ?_⟩
  unfold allocateManyLoop
  rw [run_bind, run_attempt, hrun]

theorem step_allocateMany {k : ℕ} (h : HeapInv lost g.alloc g.live bs l) (hadm : g.Admissible (.allocateMany n k al))
    (hexec : g.exec (.allocateMany n k al) = some g') : StepKeeps lost g (.allocateMany n k al) g' := by
  obtain ⟨hn', hfits⟩ := hadm
  unfold Heap.exec allocateMany at hexec
  dsimp only at hexec
  rw [run_count_bind] at hexec
  change ManyFits n al k { g.alloc with counters := _ } at hfits
  generalize hd : ({ g.alloc with counters := _ } : Allocator) = d at hexec hfits
  have hcd : CountersOnly g.alloc d := ⟨_, hd.symm⟩
  have hinv := h.counters hcd
  clear hd
  -- nothing is asked for: all entries are null and the alignment is not looked at
  by_cases hn : n = 0
  · subst hn
    obtain ⟨c, hrun, hc⟩ := @run_allocateManyLoop_zero al k [] d
    rw [hrun] at hexec
    obtain rfl := Option.some.inj hexec
    refine ⟨⟨bs, l, ?_⟩, fun _ a _ _ => (hcd.trans hc).mem_eq ▸ .refl a _⟩
    dsimp only
    rw [newAllocs_nulls _ fun p hp => List.eq_of_mem_replicate (by simpa using hp)]
    exact hinv.counters hc
  cases ha : normalizeAlignment al with
  | none =>
    cases k with
    | zero =>
      obtain rfl := Option.some.inj hexec
      exact ⟨⟨bs, l, hinv⟩, fun _ a _ _ => hcd.mem_eq ▸ .refl a _⟩
    | succ k =>
      -- an alignment that cannot be normalized: the first round never ends
      obtain ⟨e, hrun⟩ := @allocateManyLoop_hang d n al k [] hn ha
      rw [hrun] at hexec
      cases hexec
  | some A =>
    obtain ⟨r, c, hrun, hbytes, hres⟩ :=
      @run_allocateManyLoop d bs l g.live n al A lost [] k hinv (Nat.pos_of_ne_zero hn) hn' ha hfits
    rw [List.map_nil] at hrun
    rw [hrun] at hexec
    obtain rfl := Option.some.inj hexec
    refine ⟨?_, fun _ a hal _ => hcd.mem_eq ▸ hbytes a hal⟩
    -- either all are handed out, or those that were have been given back
    rcases hres with ⟨more, rfl, -, hall, bs', l', hc⟩ | ⟨j, rfl, bs', l', hc⟩
    · rw [List.append_nil] at hc
      refine ⟨bs', l', ?_⟩
      dsimp only
      rw [List.append_nil, List.reverse_reverse, hc.newAllocs_eq ha hall]
      exact hc
    · refine ⟨bs', l', ?_⟩
      dsimp only
      rw [newAllocs_nulls _ fun p hp => List.eq_of_mem_replicate (List.mem_reverse.mp hp)]
      exact hc

theorem trusts_iff (h : HeapInv lost s live bs l) {p : ℕ} :
    TrustsHeader s p ↔ ∃ b ∈ bs, b.free = false ∧ NamesBlock s.mem p b := by
  constructor
  · rintro ⟨h1, h2, h3⟩
    obtain ⟨b, hb, hp⟩ := h.toSane.valid_iff.mp ⟨h1, h2⟩
    rw [hp.2.2.1, (h.linked.headers b hb).isFree] at h3
    exact ⟨b, hb, h3, hp⟩
  · rintro ⟨b, hb, hf, hp⟩
    obtain ⟨h1, h2⟩ := h.toSane.valid_iff.mpr ⟨b, hb, hp⟩
    exact ⟨h1, h2, by rw [hp.2.2.1, (h.linked.headers b hb).isFree, hf]⟩

theorem filter_null (h : HeapInv lost s live bs l) : live.filter (·.payload ∉ [0]) = live := by
  rw [List.filter_eq_self]
  intro a ha
  simpa using h.payload_pos ha

theorem step_deallocate {p : ℕ} (h : HeapInv lost g.alloc g.live bs l) (hadm : g.Admissible (.deallocate p))
    (hexec : g.exec (.deallocate p) = some g') : StepKeeps lost g (.deallocate p) g' := by
  unfold Heap.exec at hexec
  dsimp only at hexec
  by_cases hp : p = 0
  · subst hp
    rw [deallocate_null] at hexec
    obtain rfl := Option.some.inj hexec
    refine ⟨⟨bs, l, ?_⟩, fun _ a _ _ => .refl a _⟩
    unfold Heap.release
    dsimp only
    rw [h.filter_null]
    exact h.counters ⟨_, rfl⟩
  rcases hadm.resolve_left hp with ⟨a, ha, rfl⟩ | hno
  · obtain ⟨-, _, c, hrun, hinv, hbytes⟩ := h.runs_deallocate ha
    rw [hrun] at hexec
    obtain rfl := Option.some.inj hexec
    have hfilter : g.live.filter (·.payload ∉ [a.payload]) = g.live.filter (·.payload ≠ a.payload) :=
      List.filter_congr fun a' _ => by simp
    refine ⟨?_, fun _ a' ha' hne => hbytes a' ha' hne⟩
    unfold Heap.release
    dsimp only
    rw [hfilter]
    exact hinv
  · obtain ⟨-, e, c, hrun, -, hc⟩ := h.toSane.throws_deallocate hp fun b hb hf hn => hno (h.trusts_iff.mpr ⟨b, hb, hf, hn⟩)
    rw [hrun] at hexec
    obtain rfl := Option.some.inj hexec
    exact ⟨⟨bs, l, h.counters hc⟩, fun _ a _ _ => hc.mem_eq ▸ .refl a _⟩

theorem step_deallocateMany (h : HeapInv lost g.alloc g.live bs l) (hadm : g.Admissible (.deallocateMany ps))
    (hexec : g.exec (.deallocateMany ps) = some g') : StepKeeps lost g (.deallocateMany ps) g' := by
  unfold Heap.exec deallocateMany at hexec
  dsimp only at hexec
  rw [run_count_bind] at hexec
  generalize hd : ({ g.alloc with counters := _ } : Allocator) = d at hexec
  have hcd : CountersOnly g.alloc d := ⟨_, hd.symm⟩
  obtain ⟨c, hrun, hinv, hbytes⟩ := (h.counters hcd).run_deallocateAll hadm.1 hadm.2
  rw [hrun] at hexec
  obtain rfl := Option.some.inj hexec
  exact ⟨hinv, fun _ a ha hne => hcd.mem_eq ▸ hbytes a ha hne⟩

/-- A `try_expand` at a pointer whose header is trusted, for a positive size. -/
theorem exec_tryExpand {p : ℕ} (h : HeapInv lost g.alloc g.live bs l) (hn : n ≠ 0) (hadm : g.Admissible (.tryExpand p n al))
    (htrust : TrustsHeader g.alloc p) (ha : normalizeAlignment al = some A)
    (hexec : g.exec (.tryExpand p n al) = some g') : ∃ r : Bool, (∃ bs' l', HeapInv lost g'.alloc g'.live bs' l') ∧
      (CanExpand g.alloc (headerBlock g.alloc.mem p) p n A ↔ r = true) ∧
      ∀ a ∈ g.live, SamePayload a (if r then g.alloc.recordSize p n else g.alloc).mem g'.alloc.mem := by
  obtain ⟨b, hb, hf, hnames⟩ := h.trusts_iff.mp htrust
  have hfit : LayoutFits b.addr n A := hnames.2.2.1 ▸ hadm.2 A ha htrust.2.1
  obtain ⟨-, r, c, hrun, hinv, hcan, hbytes⟩ := h.runs_tryExpand hb hf hnames (Nat.pos_of_ne_zero hn) hadm.1 ha hfit
  unfold Heap.exec at hexec
  dsimp only at hexec
  rw [hrun] at hexec
  have hg' : g'.alloc = c ∧ g'.live = if r then resized g.live p n else g.live := by
    cases r <;> obtain rfl := Option.some.inj hexec <;> exact ⟨rfl, rfl⟩
  exact ⟨r, by rw [hg'.1, hg'.2]; exact hinv, by rw [hnames.2.2.1]; exact hcan, by rw [hg'.1]; exact hbytes⟩

theorem step_tryExpand {p : ℕ} (h : HeapInv lost g.alloc g.live bs l) (hadm : g.Admissible (.tryExpand p n al))
    (hexec : g.exec (.tryExpand p n al) = some g') : StepKeeps lost g (.tryExpand p n al) g' := by
  have hrefused : (p = 0 ∨ n = 0 ∨ ∀ b ∈ bs, b.free = false → ¬ NamesBlock g.alloc.mem p b) →
      StepKeeps lost g (.tryExpand p n al) g' := by
    intro hno
    obtain ⟨-, r, c, hrun, rfl, hc⟩ := h.toSane.runs_tryExpand_refused (a := al) hno
    unfold Heap.exec at hexec
    dsimp only at hexec
    rw [hrun] at hexec
    obtain rfl := Option.some.inj hexec
    exact ⟨⟨bs, l, h.counters hc⟩, fun _ a _ _ => hc.mem_eq ▸ .refl a _⟩
  by_cases hn : n = 0
  · exact hrefused (Or.inr (Or.inl hn))
  by_cases htrust : TrustsHeader g.alloc p
  · cases ha : normalizeAlignment al with
    | none =>
      obtain ⟨b, hb, hf, hnames⟩ := h.trusts_iff.mp htrust
      obtain ⟨d, -, hrun, -⟩ := h.toSane.tryExpand_hang hb hf hnames (Nat.pos_of_ne_zero hn) ha
      unfold Heap.exec at hexec
      dsimp only at hexec
      rw [hrun] at hexec
      cases hexec
    | some A =>
      obtain ⟨r, hinv, hcan, hbytes⟩ := h.exec_tryExpand hn hadm htrust ha hexec
      refine ⟨hinv, fun hiso a hal _ => ?_⟩
      cases r with
      | false => exact hbytes a hal
      | true => exact (recordsApart_iff.mp (hiso hn htrust A ha (hcan.mpr rfl)) a hal).trans (hbytes a hal)
  · exact hrefused (Or.inr (Or.inr fun b hb hf hn => htrust (h.trusts_iff.mpr ⟨b, hb, hf, hn⟩)))

/-- Every admissible call keeps the invariant, and an isolating one the payloads it does not free. -/
theorem step {call : Call} (h : HeapInv lost g.alloc g.live bs l) (hadm : g.Admissible call)
    (hexec : g.exec call = some g') : StepKeeps lost g call g' := by
  cases call with
  | allocate n al => exact h.step_allocate hadm hexec
  | allocateMany n k al => exact h.step_allocateMany hadm hexec
  | deallocate p => exact h.step_deallocate hadm hexec
  | deallocateMany ps => exact h.step_deallocateMany hadm hexec
  | tryExpand p n al => exact h.step_tryExpand hadm hexec
  | grow n =>
    obtain ⟨-, r, c, hrun, hinv, hbytes⟩ := h.runs_grow hadm.1 hadm.2
    unfold Heap.exec at hexec
    dsimp only at hexec
    rw [hrun] at hexec
    obtain rfl := Option.some.inj hexec
    exact ⟨hinv, fun _ a ha _ => hbytes a ha⟩
  | shrinkToFit =>
    obtain ⟨-, r, c, hrun, hinv, hbytes⟩ := h.runs_shrinkToFit
    unfold Heap.exec at hexec
    dsimp only at hexec
    rw [hrun] at hexec
    obtain rfl := Option.some.inj hexec
    exact ⟨hinv, fun _ a ha _ => hbytes a ha⟩
  | zeroFreeMemory =>
    obtain ⟨-, r, c, hrun, hinv, hbytes⟩ := h.runs_zeroFreeMemory
    unfold Heap.exec at hexec
    dsimp only at hexec
    rw [hrun] at hexec
    obtain rfl := Option.some.inj hexec
    exact ⟨hinv, fun _ a ha _ => hbytes a ha⟩
  | userWrite x v =>
    obtain ⟨a, ha, h1, h2⟩ := hadm
    obtain rfl := Option.some.inj hexec
    exact ⟨⟨bs, l, h.userWrite ha h1 h2 v⟩, fun hiso => hiso.elim⟩

end HeapInv

/-- Every reachable state satisfies the allocator invariant. -/
theorem Reachable.inv {g : Heap} (h : Reachable g) : ∃ bs l, HeapInv (fun _ => False) g.alloc g.live bs l := by
  induction h with
  | fresh hs hrun =>
    obtain ⟨-, _, c, hrun', b, hb, hwf⟩ := hs.runs_initialize
    rw [hrun] at hrun'
    obtain rfl := (Prod.ext_iff.mp hrun').2
    refine ⟨[b], [b], hwf, by simp, fun d hd hdf => ?_, List.nodup_nil⟩
    rw [List.mem_singleton.mp hd, hb] at hdf
    cases hdf
  | step call _ hadm hexec ih =>
    obtain ⟨bs, l, h⟩ := ih
    exact (h.step hadm hexec).1

theorem Reachable.freed_pos {g : Heap} (h : Reachable g) {p : ℕ} (hp : p ∈ g.freed) : p ≠ 0 := by
  induction h with
  | fresh => cases hp
  | @step g g' call hg hadm hexec ih =>
    obtain ⟨bs, l, hinv⟩ := hg.inv
    have hrelease : ∀ s ps, p ∈ (g.release s ps).freed → p ≠ 0 := by
      intro s ps hp
      rcases List.mem_append.mp hp with hp | hp
      · obtain ⟨a, ha, rfl⟩ := List.mem_map.mp hp
        exact hinv.payload_pos (List.mem_filter.mp ha).1
      · exact ih hp
    unfold Heap.exec at hexec
    cases call <;> dsimp only at hexec <;> (try split at hexec) <;> first
      | (obtain rfl := Option.some.inj hexec; exact ih hp)
      | (obtain rfl := Option.some.inj hexec; exact hrelease _ _ hp)
      | cases hexec

end ShmNext
