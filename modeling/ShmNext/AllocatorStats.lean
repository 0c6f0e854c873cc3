import ShmNext.CanonicalState
import ShmNext.SanityCheck

/-! `get_stats` on arbitrary memory: what it counts, when it calls a segment sane, and which headers it dereferences. -/
namespace ShmNext

structure SharedMemoryAllocatorStats where
  segmentSize : ℕ
  managedBytes : ℕ
  allocatedBlockBytes : ℕ
  freeBlockBytes : ℕ
  freePayloadBytes : ℕ
  largestFreeBlock : ℕ
  largestFreePayload : ℕ
  blockCount : ℕ
  allocatedBlockCount : ℕ
  freeBlockCount : ℕ
  freeListCount : ℕ
  sane : Bool
  totals : Counters
  deriving DecidableEq, Repr

namespace SharedMemoryAllocatorStats

def zero : SharedMemoryAllocatorStats := ⟨0, 0, 0, 0, 0, 0, 0, 0, 0, 0, 0, false, .zero⟩

/-- The counts for one block of the physical walk. -/
def countBlock (st : SharedMemoryAllocatorStats) (b : Block) : SharedMemoryAllocatorStats :=
  if b.free then
    { st with
      blockCount := st.blockCount+1
      freeBlockCount := st.freeBlockCount+1
      freeBlockBytes := add64 st.freeBlockBytes b.size
      freePayloadBytes := add64 st.freePayloadBytes (sub64 b.size blockHeaderSize)
      largestFreeBlock := if st.largestFreeBlock < b.size then b.size else st.largestFreeBlock
      largestFreePayload := if st.largestFreePayload < sub64 b.size blockHeaderSize then sub64 b.size blockHeaderSize
        else st.largestFreePayload }
  else
    { st with
      blockCount := st.blockCount+1
      allocatedBlockCount := st.allocatedBlockCount+1
      allocatedBlockBytes := add64 st.allocatedBlockBytes b.size }

end SharedMemoryAllocatorStats

/-- Where the physical walk goes on, with the sum that it compares; `none` where it breaks off. -/
def statsNext (s : Allocator) (current : ℕ) : Option ℕ :=
  let size := blockSize s.mem current
  if !isAlignedAddress current || decide (size < blockHeaderSize) || size%alignment != 0 ||
      decide (s.segmentEnd < add64 current size) then none
  else some (add64 current size)

/-- The physical walk, with `left` rounds to go: whether it is sane, the counts, and the headers read. -/
def statsWalk (s : Allocator) : ℕ → ℕ → SharedMemoryAllocatorStats → Bool × SharedMemoryAllocatorStats × List ℕ
  | left, current, st =>
    if current < s.segmentEnd then
      match left with
      | 0 => (false, st, [])
      | left+1 =>
        let looks := if isAlignedAddress current then [current] else []
        match statsNext s current with
        | none => (false, st, looks)
        | some next =>
          let r := statsWalk s left next (st.countBlock (blockAt s.mem current))
          (r.1, r.2.1, looks ++ r.2.2)
    else (decide (left ≠ 0) && current == s.segmentEnd, st, [])

/-- The count of the free list, with `left` rounds to go, and the headers read. -/
def freeListWalk (m : Mem) : ℕ → ℕ → ℕ × List ℕ
  | left, curr =>
    if curr = 0 then (0, [])
    else match left with
      | 0 => (0, [])
      | left+1 =>
        let r := freeListWalk m left (nextFree m curr)
        (r.1+1, curr :: r.2)

/-- The counts before the physical walk. -/
def startStats (s : Allocator) : SharedMemoryAllocatorStats :=
  { SharedMemoryAllocatorStats.zero with
    segmentSize := s.segmentSize
    managedBytes := if s.first < s.segmentEnd then s.segmentEnd-s.first else 0 }

/-- `get_stats`, and the headers that its own loops read. -/
def getStatsLooks (s : Allocator) : SharedMemoryAllocatorStats × List ℕ :=
  if s.segmentBegin = 0 ∨ s.segmentSize = 0 ∨ s.first = 0 then ({ SharedMemoryAllocatorStats.zero with segmentSize := s.segmentSize }, [])
  else
    let walk := statsWalk s s.maxBlocks s.first (startStats s)
    let list := freeListWalk s.mem s.maxBlocks s.head
    ({ walk.2.1 with
        freeListCount := list.1
        sane := walk.1 && decide (list.1 < s.maxBlocks) && checkSanity s
        totals := s.counters }, walk.2.2 ++ list.2)

def getStats (s : Allocator) : SharedMemoryAllocatorStats := (getStatsLooks s).1

variable {m : Mem} {s : Allocator} {st : SharedMemoryAllocatorStats} {a left fuel acc : ℕ} {bs xs : List Block} {b : Block} {as : List ℕ}

/-! What is counted. -/

/-- The counts so far are those of the blocks `bs`. -/
structure SharedMemoryAllocatorStats.Counts (st : SharedMemoryAllocatorStats) (bs : List Block) : Prop where
  blocks : st.blockCount = bs.length
  allocated : st.allocatedBlockCount+st.freeBlockCount = bs.length
  free : st.freeBlockCount = (bs.filter Block.free).length
  bytes : st.allocatedBlockBytes+st.freeBlockBytes = (bs.map Block.size).sum
  payload : st.freePayloadBytes = ((bs.filter Block.free).map fun b => b.size-32).sum
  payload_bytes : st.freePayloadBytes+st.freeBlockCount*32 = st.freeBlockBytes
  largest : st.largestFreeBlock = ((bs.filter Block.free).map Block.size).foldl max 0

/-- One block more is counted. -/
theorem SharedMemoryAllocatorStats.Counts.step (h : st.Counts bs) (h32 : 32 ≤ b.size) (hlt : ((bs ++ [b]).map Block.size).sum < 2^64) :
    (st.countBlock b).Counts (bs ++ [b]) := by
  rw [List.map_append, List.sum_append, List.map_singleton, List.sum_singleton] at hlt
  have hbytes := h.bytes
  have hpayload := h.payload_bytes
  have hsum : ((bs ++ [b]).map Block.size).sum = (bs.map Block.size).sum+b.size := by simp
  have hsub : sub64 b.size blockHeaderSize = b.size-32 := by
    unfold sub64 blockHeaderSize
    omega
  -- no sum wraps, for together the blocks are less than `2^64` bytes
  unfold countBlock
  cases hf : b.free with
  | true =>
    have hfilter : (bs ++ [b]).filter Block.free = bs.filter Block.free ++ [b] := by simp [hf]
    have hadd : add64 st.freeBlockBytes b.size = st.freeBlockBytes+b.size := by
      unfold add64
      omega
    have haddp : add64 st.freePayloadBytes (b.size-32) = st.freePayloadBytes+(b.size-32) := by
      unfold add64
      omega
    rw [if_pos rfl, hsub, hadd, haddp]
    refine ⟨?_, ?_, ?_, ?_, ?_, ?_, ?_⟩
    · simp [h.blocks]
    · simp [← h.allocated]
      omega
    · simp [hfilter, h.free]
    · rw [hsum]
      dsimp only
      omega
    · simp [hfilter, h.payload]
    · dsimp only
      omega
    · rw [hfilter, List.map_append, List.foldl_append, ← h.largest]
      dsimp only [List.map, List.foldl]
      split <;> omega
  | false =>
    have hfilter : (bs ++ [b]).filter Block.free = bs.filter Block.free := by simp [hf]
    have hadd : add64 st.allocatedBlockBytes b.size = st.allocatedBlockBytes+b.size := by
      unfold add64
      omega
    rw [if_neg Bool.false_ne_true, hadd]
    refine ⟨?_, ?_, ?_, ?_, ?_, ?_, ?_⟩
    · simp [h.blocks]
    · simp [← h.allocated]
      omega
    · rw [hfilter, ← h.free]
    · rw [hsum]
      dsimp only
      omega
    · rw [hfilter, ← h.payload]
    · exact hpayload
    · rw [hfilter, ← h.largest]

/-- The blocks of a tiling are as long together as what they tile. -/
theorem Tiles.sum_size {e : ℕ} (h : Tiles a e bs) : a+(bs.map Block.size).sum = e := by
  induction bs generalizing a with
  | nil => exact h
  | cons b bs ih =>
    obtain ⟨-, -, -, hrest⟩ := h
    rw [List.map_cons, List.sum_cons, ← ih hrest]
    omega

theorem statsNext_of_header (h : HeaderAt s.mem b) (ha : b.addr%16 = 0) (h32 : 32 ≤ b.size) (h16 : b.size%16 = 0)
    (hstop : b.stop ≤ s.segmentEnd) (hlt : s.segmentEnd < 2^64) : statsNext s b.addr = some b.stop := by
  unfold Block.stop at *
  have hadd : add64 b.addr b.size = b.addr+b.size := by
    unfold add64
    omega
  unfold statsNext
  rw [h.1]
  dsimp only
  rw [hadd, decide_eq_false (by unfold blockHeaderSize; omega : ¬b.size < blockHeaderSize)]
  simp [isAlignedAddress, alignment, ha, h16, hstop]

/-- On a tiled rest of the segment the walk counts its blocks, and keeps the other members. -/
theorem statsWalk_tiles (ht : Tiles a s.segmentEnd bs) (hh : ∀ b ∈ bs, HeaderAt s.mem b) (ha : a%16 = 0) (hlt : s.segmentEnd < 2^64)
    (hl : bs.length < left) : statsWalk s left a st = (true, bs.foldl SharedMemoryAllocatorStats.countBlock st, bs.map Block.addr) := by
  induction bs generalizing a left st with
  | nil =>
    have hend : a = s.segmentEnd := ht
    unfold statsWalk
    rw [if_neg (by omega), hend, List.length_nil] at *
    rw [decide_eq_true (by omega), beq_self_eq_true]
    rfl
  | cons b bs ih =>
    have hb := ht.bounds List.mem_cons_self
    have hheader := hh b List.mem_cons_self
    obtain ⟨rfl, h32, h16, hrest⟩ := ht
    obtain ⟨n, rfl⟩ : ∃ n, left = n+1 := ⟨left-1, by omega⟩
    have hnext := statsNext_of_header hheader ha h32 h16 hb.2.1 hlt
    have hstop : b.stop%16 = 0 := by
      unfold Block.stop
      omega
    have hshort : bs.length < n := by simpa using hl
    have hrec := @ih (st.countBlock b) b.stop n hrest (fun c hc => hh c (List.mem_cons_of_mem _ hc)) hstop hshort
    unfold statsWalk
    rw [if_pos (by unfold Block.stop at hb; omega), hnext]
    dsimp only
    rw [← hheader.eq_blockAt, hrec]
    simp [isAlignedAddress, alignment, ha]

theorem Counts_foldl (h : st.Counts xs) (h32 : ∀ b ∈ bs, 32 ≤ b.size) (hlt : ((xs ++ bs).map Block.size).sum < 2^64) :
    (bs.foldl SharedMemoryAllocatorStats.countBlock st).Counts (xs ++ bs) := by
  induction bs generalizing xs st with
  | nil => rwa [List.append_nil]
  | cons b bs ih =>
    have hsplit : xs ++ b :: bs = xs ++ [b] ++ bs := by simp
    rw [hsplit] at hlt ⊢
    have hstep := h.step (b := b) (h32 b List.mem_cons_self) (by
      rw [List.map_append, List.sum_append] at hlt
      omega)
    exact ih hstep (fun c hc => h32 c (List.mem_cons_of_mem _ hc)) hlt

/-- Counting leaves the members alone that are set before the walk. -/
theorem foldl_countBlock_managedBytes :
    (bs.foldl SharedMemoryAllocatorStats.countBlock st).managedBytes = st.managedBytes := by
  induction bs generalizing st with
  | nil => rfl
  | cons b bs ih =>
    rw [List.foldl_cons, ih]
    unfold SharedMemoryAllocatorStats.countBlock
    split <;> rfl

theorem freeListWalk_linked (hc : LinkedFrom (nextFree m) a as) (hl : as.length ≤ left) : freeListWalk m left a = (as.length, as) := by
  induction as generalizing a left with
  | nil =>
    rw [LinkedFrom.nil_iff.mp hc]
    unfold freeListWalk
    rw [if_pos rfl]
    rfl
  | cons c as ih =>
    obtain ⟨rfl, h0, hrest⟩ := hc
    obtain ⟨n, rfl⟩ : ∃ n, left = n+1 := ⟨left-1, by rw [List.length_cons] at hl; omega⟩
    unfold freeListWalk
    rw [if_neg h0]
    dsimp only
    rw [ih hrest (by simpa using hl)]
    rfl

/-- `get_free_memory` adds up the payload sizes along the list. -/
theorem freeMemoryLoop_linked (hc : LinkedFrom (nextFree m) a as) (hl : as.length ≤ fuel) (h32 : ∀ c ∈ as, 32 ≤ blockSize m c)
    (hlt : acc+(as.map fun c => blockSize m c-32).sum < 2^64) :
    freeMemoryLoop m fuel a acc = some (acc+(as.map fun c => blockSize m c-32).sum) := by
  induction as generalizing a acc fuel with
  | nil =>
    rw [LinkedFrom.nil_iff.mp hc]
    unfold freeMemoryLoop
    rw [if_pos rfl]
    rfl
  | cons c as ih =>
    obtain ⟨rfl, h0, hrest⟩ := hc
    obtain ⟨n, rfl⟩ : ∃ n, fuel = n+1 := ⟨fuel-1, by rw [List.length_cons] at hl; omega⟩
    rw [List.map_cons, List.sum_cons] at hlt ⊢
    have hsize := h32 a List.mem_cons_self
    have hbound := m.load64_lt a
    have hadd : add64 acc (sub64 (blockSize m a) blockHeaderSize) = acc+(blockSize m a-32) := by
      unfold add64 sub64 blockHeaderSize
      unfold blockSize at *
      omega
    unfold freeMemoryLoop
    rw [if_neg h0]
    dsimp only
    rw [hadd, ih hrest (by simpa using hl) (fun c hc => h32 c (List.mem_cons_of_mem _ hc)) (by omega), add_assoc]

/-- The sum of the payload sizes of blocks is no more than that of the blocks. -/
theorem sum_payload_le (bs : List Block) : ((bs.filter Block.free).map fun b => b.size-32).sum ≤ (bs.map Block.size).sum := by
  induction bs with
  | nil => exact le_refl _
  | cons b bs ih =>
    rw [List.filter_cons, List.map_cons, List.sum_cons]
    split
    · rw [List.map_cons, List.sum_cons]
      omega
    · omega

/-- What the free list of a sane segment lists are the blocks marked free, in some order. -/
theorem freeList_perm {e : ℕ} (ht : Tiles a e bs) (hnd : as.Nodup) (hmem : ∀ c, c ∈ as ↔ ∃ b ∈ bs, b.free = true ∧ b.addr = c) :
    as.Perm ((bs.filter Block.free).map Block.addr) := by
  refine (List.perm_ext_iff_of_nodup hnd ?_).mpr fun c => ?_
  · refine (ht.nodup.filter _).map_on fun b hb b' hb' heq => ?_
    exact ht.eq_of_addr (List.mem_filter.mp hb).1 (List.mem_filter.mp hb').1 heq
  · rw [hmem, List.mem_map]
    simp only [List.mem_filter, and_assoc]

/-- `get_stats` calls a segment sane exactly when `check_sanity` does, and its numbers are then those of the blocks. -/
theorem get_stats_agrees (hle : s.segmentBegin ≤ s.first) (h16 : s.first%16 = 0) (hlt : s.segmentBegin+s.segmentSize < 2^64) :
    (getStats s).sane = checkSanity s ∧
    ((getStats s).sane = true → ∃ bs, Tiles s.first s.segmentEnd bs ∧ (∀ b ∈ bs, HeaderAt s.mem b) ∧
      (getStats s).blockCount = bs.length ∧
      (getStats s).blockCount = (getStats s).allocatedBlockCount+(getStats s).freeBlockCount ∧
      (getStats s).allocatedBlockBytes+(getStats s).freeBlockBytes = (getStats s).managedBytes ∧
      (getStats s).managedBytes = s.segmentEnd-s.first ∧
      (getStats s).freeListCount = (getStats s).freeBlockCount ∧
      getFreeMemory s = some (getStats s).freePayloadBytes ∧
      (getStats s).freePayloadBytes = (getStats s).freeBlockBytes-(getStats s).freeBlockCount*blockHeaderSize ∧
      (getStats s).largestFreeBlock = ((bs.filter Block.free).map Block.size).foldl max 0) := by
  have hend := segmentEnd_of_lt hlt
  by_cases hnull : s.segmentBegin = 0 ∨ s.segmentSize = 0 ∨ s.first = 0
  · have hstats : getStats s = { SharedMemoryAllocatorStats.zero with segmentSize := s.segmentSize } := by
      unfold getStats getStatsLooks
      rw [if_pos hnull]
    have hcheck : checkSanity s = false := by
      unfold checkSanity
      rw [if_pos hnull]
    rw [hstats, hcheck]
    exact ⟨rfl, fun hsane => (by cases hsane)⟩
  have hstats : getStats s = { (statsWalk s s.maxBlocks s.first (startStats s)).2.1 with
      freeListCount := (freeListWalk s.mem s.maxBlocks s.head).1
      sane := (statsWalk s s.maxBlocks s.first (startStats s)).1 &&
        decide ((freeListWalk s.mem s.maxBlocks s.head).1 < s.maxBlocks) && checkSanity s
      totals := s.counters } := by
    unfold getStats getStatsLooks
    rw [if_neg hnull]
  cases hcheck : checkSanity s with
  | false =>
    rw [hstats, hcheck, Bool.and_false]
    exact ⟨rfl, fun hcon => (by cases hcon)⟩
  | true =>
    obtain ⟨bs, as, ht, hh, hchain, hlisted, hblocks⟩ := checkSanity_sound hlt hcheck
    rw [← hend] at ht
    have hmem : ∀ c, c ∈ as ↔ ∃ b ∈ bs, b.free = true ∧ b.addr = c := by
      intro c
      constructor
      · intro hc
        obtain ⟨b, hb, rfl⟩ := hblocks c hc
        exact ⟨b, hb, (hlisted b hb).mpr hc, rfl⟩
      · rintro ⟨b, hb, hf, rfl⟩
        exact (hlisted b hb).mp hf
    have hperm := freeList_perm ht hchain.nodup hmem
    have hlenas : as.length = (bs.filter Block.free).length := by rw [hperm.length_eq, List.length_map]
    have hlefree : (bs.filter Block.free).length ≤ bs.length := List.length_filter_le _ _
    have hsizes : ∀ b ∈ bs, 32 ≤ b.size := fun b hb => (ht.bounds hb).2.2.1
    have hsum := ht.sum_size
    -- a walk over the blocks ends before its bound, and so does one over the list
    have hlen := ht.length_le
    have hbound : bs.length < s.maxBlocks := by
      unfold Allocator.maxBlocks alignment
      omega
    have hstart : (startStats s).Counts [] := ⟨rfl, rfl, rfl, rfl, rfl, rfl, rfl⟩
    have hcounts := Counts_foldl hstart hsizes (by rw [List.nil_append]; omega)
    have hmanaged : (bs.foldl SharedMemoryAllocatorStats.countBlock (startStats s)).managedBytes = (startStats s).managedBytes :=
      foldl_countBlock_managedBytes
    rw [hstats, hcheck, statsWalk_tiles ht hh h16 (by omega) hbound, freeListWalk_linked hchain (by omega), Bool.and_true,
      decide_eq_true (show as.length < s.maxBlocks by omega)]
    rw [List.nil_append] at hcounts
    refine ⟨rfl, fun _ => ⟨bs, ht, hh, hcounts.blocks, hcounts.blocks.trans hcounts.allocated.symm, ?_, ?_, hlenas.trans hcounts.free.symm,
      ?_, ?_, hcounts.largest⟩⟩
    · rw [hcounts.bytes, hmanaged]
      unfold startStats
      dsimp only
      split <;> omega
    · rw [hmanaged]
      unfold startStats
      dsimp only
      split <;> omega
    · have hpayload : (as.map fun c => blockSize s.mem c-32).sum = ((bs.filter Block.free).map fun b => b.size-32).sum := by
        rw [(hperm.map _).sum_nat, List.map_map]
        refine congrArg List.sum (List.map_congr_left fun b hb => ?_)
        change blockSize s.mem b.addr-32 = b.size-32
        rw [(hh b (List.mem_filter.mp hb).1).1]
      have hle' := sum_payload_le bs
      have hlong : as.length ≤ walkFuel := by
        unfold walkFuel
        omega
      have hfree := freeMemoryLoop_linked hchain hlong (fun c hc => ?_) (show 0+_ < 2^64 by omega)
      · unfold getFreeMemory
        rw [hfree, hpayload, Nat.zero_add, ← hcounts.payload]
      · obtain ⟨b, hb, -, rfl⟩ := (hmem c).mp hc
        rw [(hh b hb).1]
        exact hsizes b hb
    · have hbytes := hcounts.payload_bytes
      unfold blockHeaderSize
      dsimp only
      omega

/-- Two allocated blocks between two free ones. -/
theorem get_stats_agrees_holedHeap : (getStats holedHeap.alloc).sane = true ∧ (getStats holedHeap.alloc).allocatedBlockCount = 2 ∧
    (getStats holedHeap.alloc).freeBlockCount = 2 ∧
    (∃ bs, Tiles holedHeap.alloc.first holedHeap.alloc.segmentEnd bs ∧ bs.length = 4) ∧
    getFreeMemory holedHeap.alloc = some (getStats holedHeap.alloc).freePayloadBytes := by
  have hagrees := get_stats_agrees (s := holedHeap.alloc) (by decide +kernel) (by decide +kernel) (by decide +kernel)
  have hsane : (getStats holedHeap.alloc).sane = true := hagrees.1.trans (by decide +kernel)
  have hcount : (getStats holedHeap.alloc).blockCount = 4 := by decide +kernel
  obtain ⟨bs, ht, -, hlen, -, -, -, -, hfree, -⟩ := hagrees.2 hsane
  exact ⟨hsane, by decide +kernel, by decide +kernel, ⟨bs, ht, hlen.symm.trans hcount⟩, hfree⟩

/-! Which headers are looked at. -/

/-- The address after the block at `a`, as the walk computes it. -/
def statsStep (s : Allocator) (a : ℕ) : ℕ := add64 a (blockSize s.mem a)

/-- The walk goes on from the block at `a`. -/
def GoesOn (s : Allocator) (a : ℕ) : Prop := a < s.segmentEnd ∧ (statsNext s a).isSome = true

instance (s : Allocator) (a : ℕ) : Decidable (GoesOn s a) := inferInstanceAs (Decidable (_ ∧ _))

/-- No block that the physical walk passes before its last round has a stored size that wraps its end below the segment; and the stored
links of the free list lead to null or into the segment, as far as they are counted. -/
structure LeadsInside (s : Allocator) : Prop where
  sizes : ∀ k, k+1 < s.maxBlocks → (∀ j ≤ k, GoesOn s ((statsStep s)^[j] s.first)) →
    (statsStep s)^[k] s.first+blockSize s.mem ((statsStep s)^[k] s.first) < 2^64 ∨
      s.segmentBegin+2^64 ≤ (statsStep s)^[k] s.first+blockSize s.mem ((statsStep s)^[k] s.first)
  links : ∀ k < s.maxBlocks, (∀ j ≤ k, (nextFree s.mem)^[j] s.head ≠ 0) →
    s.segmentBegin ≤ (nextFree s.mem)^[k] s.head ∧ (nextFree s.mem)^[k] s.head < s.segmentEnd

/-- The next address lies in or above the segment unless the stored size wraps the end of the block below it. -/
theorem begin_le_statsStep_iff (ha : s.segmentBegin ≤ a) (hlt : a < 2^64) : s.segmentBegin ≤ statsStep s a ↔
    a+blockSize s.mem a < 2^64 ∨ s.segmentBegin+2^64 ≤ a+blockSize s.mem a := by
  have hsize : blockSize s.mem a < 2^64 := s.mem.load64_lt a
  unfold statsStep add64
  omega

/-- As long as no size wraps, the walk stays above the beginning of the segment. -/
theorem LeadsInside.begin_le (h : LeadsInside s) (hle : s.segmentBegin ≤ s.first) (hend : s.segmentEnd < 2^64) {k : ℕ} (hk : k < s.maxBlocks)
    (hgo : ∀ j < k, GoesOn s ((statsStep s)^[j] s.first)) : s.segmentBegin ≤ (statsStep s)^[k] s.first := by
  induction k with
  | zero => exact hle
  | succ k ih =>
    have hbefore := ih (by omega) fun j hj => hgo j (by omega)
    have hlast := (hgo k (Nat.lt_succ_self k)).1
    rw [Function.iterate_succ_apply', begin_le_statsStep_iff hbefore (by omega)]
    exact h.sizes k hk fun j hj => hgo j (by omega)

theorem statsNext_some {next : ℕ} (h : statsNext s a = some next) : next = statsStep s a ∧ blockSize s.mem a%16 = 0 ∧ next ≤ s.segmentEnd := by
  unfold statsNext at h
  dsimp only at h
  split at h
  · cases h
  · rename_i hcond
    simp only [Bool.or_eq_true, Bool.not_eq_true', decide_eq_true_iff, bne_iff_ne, not_or, not_not, not_lt] at hcond
    have hnext := Option.some.inj h
    exact ⟨hnext.symm, hcond.1.2, hnext ▸ hcond.2⟩

/-- The headers of the physical walk are those of its rounds. -/
theorem mem_statsWalk {x : ℕ} : x ∈ (statsWalk s left a st).2.2 ↔ ∃ k < left, (∀ j < k, GoesOn s ((statsStep s)^[j] a)) ∧
    (statsStep s)^[k] a < s.segmentEnd ∧ isAlignedAddress ((statsStep s)^[k] a) = true ∧ x = (statsStep s)^[k] a := by
  -- the header looked at in round `k` is `k` steps of `statsStep` away
  induction left generalizing a st with
  | zero =>
    have hnil : (statsWalk s 0 a st).2.2 = [] := by
      unfold statsWalk
      split <;> rfl
    rw [hnil]
    simp
  | succ n ih =>
    unfold statsWalk
    by_cases hend : a < s.segmentEnd
    · rw [if_pos hend]
      dsimp only
      have hlook : x ∈ (if isAlignedAddress a = true then [a] else []) ↔ isAlignedAddress a = true ∧ x = a := by
        split
        · rename_i ha
          simp [ha]
        · rename_i ha
          simp [ha]
      cases hnext : statsNext s a with
      | none =>
        dsimp only
        rw [hlook]
        constructor
        · intro h
          exact ⟨0, Nat.zero_lt_succ n, fun j hj => absurd hj (Nat.not_lt_zero j), hend, h.1, h.2⟩
        · rintro ⟨k, -, hgo, -, ha, hx⟩
          cases k with
          | zero => exact ⟨ha, hx⟩
          | succ k =>
            -- the walk has stopped here, so there is no later round
            have hfirst : (statsNext s a).isSome = true := (hgo 0 (Nat.zero_lt_succ k)).2
            rw [hnext] at hfirst
            cases hfirst
      | some next =>
        obtain ⟨hstep, -, -⟩ := statsNext_some hnext
        have hgoes : GoesOn s a := ⟨hend, by rw [hnext]; rfl⟩
        dsimp only
        rw [List.mem_append, hlook, ih, hstep]
        constructor
        · rintro (h | ⟨k, hk, hgo, h⟩)
          · exact ⟨0, Nat.zero_lt_succ n, fun j hj => absurd hj (Nat.not_lt_zero j), hend, h.1, h.2⟩
          · refine ⟨k+1, Nat.succ_lt_succ hk, fun j hj => ?_, h⟩
            cases j with
            | zero => exact hgoes
            | succ j => exact hgo j (Nat.lt_of_succ_lt_succ hj)
        · rintro ⟨k, hk, hgo, hlt, ha, hx⟩
          cases k with
          | zero => exact Or.inl ⟨ha, hx⟩
          | succ k => exact Or.inr ⟨k, Nat.lt_of_succ_lt_succ hk, fun j hj => hgo (j+1) (Nat.succ_lt_succ hj), hlt, ha, hx⟩
    · rw [if_neg hend]
      constructor
      · intro h
        cases h
      · rintro ⟨k, -, hgo, hlt, -⟩
        cases k with
        | zero => exact absurd hlt hend
        | succ k => exact absurd (hgo 0 (Nat.zero_lt_succ k)).1 hend

/-- The headers of the count are those of its rounds. -/
theorem mem_freeListWalk {x : ℕ} : x ∈ (freeListWalk m left a).2 ↔ ∃ k < left, (∀ j ≤ k, (nextFree m)^[j] a ≠ 0) ∧ x = (nextFree m)^[k] a := by
  induction left generalizing a with
  | zero =>
    have hnil : (freeListWalk m 0 a).2 = [] := by
      unfold freeListWalk
      split <;> rfl
    rw [hnil]
    simp
  | succ n ih =>
    unfold freeListWalk
    by_cases h0 : a = 0
    · rw [if_pos h0]
      constructor
      · intro h
        cases h
      · rintro ⟨k, -, hne, -⟩
        exact absurd h0 (hne 0 (Nat.zero_le k))
    · rw [if_neg h0]
      dsimp only
      rw [List.mem_cons, ih]
      constructor
      · rintro (hx | ⟨k, hk, hne, hx⟩)
        · refine ⟨0, Nat.zero_lt_succ n, fun j hj => ?_, hx⟩
          rw [Nat.le_zero.mp hj]
          exact h0
        · refine ⟨k+1, Nat.succ_lt_succ hk, fun j hj => ?_, hx⟩
          cases j with
          | zero => exact h0
          | succ j => exact hne j (Nat.le_of_succ_le_succ hj)
      · rintro ⟨k, hk, hne, hx⟩
        cases k with
        | zero => exact Or.inl hx
        | succ k => exact Or.inr ⟨k, Nat.lt_of_succ_lt_succ hk, fun j hj => hne (j+1) (Nat.succ_le_succ hj), hx⟩

/-- The addresses of the walk stay on the 16-byte grid. -/
theorem statsStep_aligned (ha : a%16 = 0) {k : ℕ} (hgo : ∀ j < k, GoesOn s ((statsStep s)^[j] a)) : (statsStep s)^[k] a%16 = 0 := by
  induction k with
  | zero => exact ha
  | succ k ih =>
    have hk := ih fun j hj => hgo j (by omega)
    obtain ⟨next, hnext⟩ := Option.isSome_iff_exists.mp (hgo k (Nat.lt_succ_self k)).2
    obtain ⟨-, hsize, -⟩ := statsNext_some hnext
    rw [Function.iterate_succ_apply']
    generalize (statsStep s)^[k] a = c at hk hsize
    unfold statsStep add64
    omega

/-- The loops of `get_stats` read headers inside the segment alone, exactly where sizes and links lead nowhere else. -/
theorem get_stats_reads_inside_iff (hbegin : 0 < s.segmentBegin) (hsize : 0 < s.segmentSize) (hle : s.segmentBegin ≤ s.first)
    (h16 : s.first%16 = 0) (hlt : s.segmentBegin+s.segmentSize < 2^64) :
    (∀ x ∈ (getStatsLooks s).2, s.segmentBegin ≤ x ∧ x < s.segmentEnd) ↔ LeadsInside s := by
  have hend := segmentEnd_of_lt hlt
  have hlooks : (getStatsLooks s).2 = (statsWalk s s.maxBlocks s.first (startStats s)).2.2 ++ (freeListWalk s.mem s.maxBlocks s.head).2 := by
    unfold getStatsLooks
    rw [if_neg (by omega)]
  simp only [hlooks, List.mem_append, mem_statsWalk, mem_freeListWalk]
  constructor
  · intro h
    refine ⟨fun k hk hgo => ?_, fun k hk hne => h _ (Or.inr ⟨k, hk, hne, rfl⟩)⟩
    have hgo' : ∀ j < k, GoesOn s ((statsStep s)^[j] s.first) := fun j hj => hgo j (by omega)
    have hlow := (hgo k le_rfl).1
    have haligned := statsStep_aligned h16 hgo'
    have hhere := (h _ (Or.inl ⟨k, by omega, hgo', hlow, by simpa [isAlignedAddress, alignment] using haligned, rfl⟩)).1
    have hnext : s.segmentBegin ≤ (statsStep s)^[k+1] s.first := by
      by_cases hpast : (statsStep s)^[k+1] s.first < s.segmentEnd
      · have hgo'' : ∀ j < k+1, GoesOn s ((statsStep s)^[j] s.first) := fun j hj => hgo j (by omega)
        have haligned' := statsStep_aligned h16 hgo''
        exact (h _ (Or.inl ⟨k+1, hk, hgo'', hpast, by simpa [isAlignedAddress, alignment] using haligned', rfl⟩)).1
      · omega
    rwa [Function.iterate_succ_apply', begin_le_statsStep_iff hhere (by omega)] at hnext
  · rintro hinside x (⟨k, hk, hgo, hlow, -, rfl⟩ | ⟨k, hk, hne, rfl⟩)
    · exact ⟨hinside.begin_le hle (by omega) hk hgo, hlow⟩
    · exact hinside.links k hk hne

theorem get_stats_reads_inside_holedHeap : LeadsInside holedHeap.alloc := by
  apply (get_stats_reads_inside_iff (by decide +kernel) (by decide +kernel) (by decide +kernel) (by decide +kernel) (by decide +kernel)).mp
  decide +kernel

/-- A segment at 4096 whose one block at 4208 claims a size that wraps to 4048. -/
def wrappingSegment : Allocator := ⟨Mem.store64 (fun _ => 0) 4208 (2^64-160), 4096, 0, 4096, 96, 1, Counters.zero⟩

/-- `get_stats` follows the size below the segment, where `check_sanity` does not. -/
theorem get_stats_reads_outside : wrappingSegment.segmentBegin = 4096 ∧ wrappingSegment.segmentSize = 4096 ∧ wrappingSegment.first = 4208 ∧
    (¬∀ x ∈ (getStatsLooks wrappingSegment).2, wrappingSegment.segmentBegin ≤ x ∧ x < wrappingSegment.segmentEnd) ∧
    4048 ∈ (getStatsLooks wrappingSegment).2 ∧ (checkSanityLooks wrappingSegment).2 = [4208] := by
  decide +kernel

end ShmNext
