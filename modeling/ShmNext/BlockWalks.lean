import ShmNext.FreeListOps

/-! What the bounded walks over blocks and free list answer: on a tiled segment, and,
for the walks of `check_sanity`, on any bytes at all. -/
namespace ShmNext

variable {m : Mem} {s : Allocator} {a e limit left target : ℕ} {b : Block} {bs l xs ys : List Block}

/-- The block the header bytes at `a` describe. -/
def blockAt (m : Mem) (a : ℕ) : Block := ⟨a, blockSize m a, blockIsFree m a⟩

theorem HeaderAt.eq_blockAt (h : HeaderAt m b) : b = blockAt m b.addr := by
  unfold blockAt
  rw [h.1, h.isFree]

theorem HeaderAt.unique {b' : Block} (h : HeaderAt m b) (h' : HeaderAt m b') (heq : b.addr = b'.addr) :
    b = b' := by
  rw [h.eq_blockAt, h'.eq_blockAt, heq]

theorem blockAfter_of_header (h : HeaderAt m b) (h32 : 32 ≤ b.size) (h16 : b.size%16 = 0)
    (hlim : b.stop ≤ limit) (hlt : limit < 2^64) : blockAfter m limit b.addr = some b.stop := by
  unfold Block.stop at *
  unfold blockAfter add64 blockHeaderSize alignment
  simp only [h.1]
  rw [if_neg (by omega), if_neg (by omega), Nat.mod_eq_of_lt (by omega)]

/-- A passed step proves a block of legal size that does not wrap. -/
theorem blockAfter_some {next : ℕ} (h : blockAfter m limit a = some next) (ha : a < 2^64) :
    32 ≤ blockSize m a ∧ blockSize m a%16 = 0 ∧ next = a+blockSize m a ∧ next ≤ limit := by
  have hsz := m.load64_lt a
  unfold blockAfter add64 blockHeaderSize alignment at h
  simp only at h
  split_ifs at h with h1 h2
  have hn := Option.some.inj h
  unfold blockSize at *
  omega

/-! On a tiled range. -/

theorem lastBlockBefore_tiles {prev : ℕ} (ht : Tiles a limit bs) (hh : ∀ b ∈ bs, HeaderAt m b)
    (hlt : limit < 2^64) (hl : bs.length ≤ left) :
    lastBlockBefore m limit left a prev = (prev :: bs.map Block.addr).getLast (List.cons_ne_nil _ _) := by
  induction bs generalizing a prev left with
  | nil =>
    rw [Tiles.nil_iff.mp ht]
    unfold lastBlockBefore
    rw [if_neg (lt_irrefl _), if_pos rfl]
    rfl
  | cons b bs ih =>
    have hb := ht.bounds List.mem_cons_self
    obtain ⟨rfl, h32, h16, hrest⟩ := ht
    obtain ⟨n, rfl⟩ : ∃ n, left = n+1 := ⟨left-1, by simp only [List.length_cons] at hl; omega⟩
    unfold lastBlockBefore
    rw [if_pos (by unfold Block.stop at hb; omega),
      blockAfter_of_header (hh b List.mem_cons_self) h32 h16 hb.2.1 hlt]
    simp only [Block.stop]
    rw [ih hrest (fun c hc => hh c (List.mem_cons_of_mem _ hc)) (by simpa using hl)]
    simp

theorem isBlockInChainLoop_prefix (ht : Tiles a e bs) (hh : ∀ b ∈ bs, HeaderAt m b) (he : e ≤ limit)
    (hlt : limit < 2^64) (hl : bs.length ≤ left) (hb : b ∈ bs) :
    isBlockInChainLoop m b.addr limit left a = true := by
  induction bs generalizing a left with
  | nil => exact (List.not_mem_nil hb).elim
  | cons c bs ih =>
    have hc := ht.bounds List.mem_cons_self
    obtain ⟨rfl, h32, h16, hrest⟩ := ht
    obtain ⟨n, rfl⟩ : ∃ n, left = n+1 := ⟨left-1, by simp only [List.length_cons] at hl; omega⟩
    unfold isBlockInChainLoop
    rw [if_pos (by unfold Block.stop at hc; omega)]
    rcases List.mem_cons.mp hb with rfl | hb
    · rw [if_pos rfl]
    · have := (hrest.bounds hb).1
      rw [if_neg (by omega), blockAfter_of_header (hh c List.mem_cons_self) h32 h16 (by omega) hlt]
      exact ih hrest (fun d hd => hh d (List.mem_cons_of_mem _ hd)) (by simpa using hl) hb

/-- The walk only says yes at the start of a block it has reached by legal steps. -/
theorem isBlockInChainLoop_sound (h : isBlockInChainLoop m target limit left a = true) (ha : a < 2^64)
    (hlt : limit < 2^64) :
    target < limit ∧ ∃ xs, Tiles a target xs ∧ ∀ b ∈ xs, b = blockAt m b.addr := by
  induction left generalizing a with
  | zero =>
    unfold isBlockInChainLoop at h
    split_ifs at h with h1 h2
    · exact ⟨h2 ▸ h1, [], h2, by simp⟩
    · cases hn : blockAfter m limit a <;> simp [hn] at h
  | succ n ih =>
    unfold isBlockInChainLoop at h
    split_ifs at h with h1 h2
    · exact ⟨h2 ▸ h1, [], h2, by simp⟩
    · cases hn : blockAfter m limit a with
      | none => simp [hn] at h
      | some next =>
        simp only [hn] at h
        obtain ⟨h32, h16, hnext, hle⟩ := blockAfter_some hn ha
        obtain ⟨hlt', xs, hx, hh⟩ := ih h (by omega)
        refine ⟨hlt', blockAt m a :: xs, ⟨rfl, h32, h16, by rw [hnext] at hx; exact hx⟩, ?_⟩
        intro c hc
        rcases List.mem_cons.mp hc with rfl | hc
        · rfl
        · exact hh c hc

theorem isInFreeListLoop_linked {as : List ℕ} (hc : LinkedFrom (nextFree m) a as) (hl : as.length ≤ left) :
    isInFreeListLoop m target left a = decide (target ∈ as) := by
  induction as generalizing a left with
  | nil =>
    rw [LinkedFrom.nil_iff.mp hc]
    unfold isInFreeListLoop
    simp
  | cons c as ih =>
    obtain ⟨rfl, h0, hrest⟩ := hc
    obtain ⟨n, rfl⟩ : ∃ n, left = n+1 := ⟨left-1, by simp only [List.length_cons] at hl; omega⟩
    unfold isInFreeListLoop
    rw [if_neg h0]
    by_cases ht : a = target
    · simp [ht]
    · rw [if_neg ht]
      simp only
      rw [ih hrest (by simpa using hl)]
      simp [Ne.symm ht]

theorem isValidFreeListLoop_sound (h : isValidFreeListLoop s left a = true) :
    ∃ as, LinkedFrom (nextFree s.mem) a as ∧ as.length ≤ left ∧
      ∀ c ∈ as, isAddressInSegment s c = true ∧ isAlignedAddress c = true ∧ blockIsFree s.mem c = true ∧
        isBlockInChain s c = true := by
  induction left generalizing a with
  | zero =>
    unfold isValidFreeListLoop at h
    split_ifs at h with h0
    exact ⟨[], h0, Nat.zero_le _, by simp⟩
  | succ n ih =>
    unfold isValidFreeListLoop at h
    split_ifs at h with h0 h1
    · exact ⟨[], h0, Nat.zero_le _, by simp⟩
    · obtain ⟨as, hc, hl, hall⟩ := ih h
      refine ⟨a :: as, ⟨rfl, h0, hc⟩, by simpa using hl, ?_⟩
      intro c hc
      rcases List.mem_cons.mp hc with rfl | hc
      · simpa [and_assoc] using h1
      · exact hall c hc

theorem isValidFreeListLoop_complete {as : List ℕ} (hc : LinkedFrom (nextFree s.mem) a as)
    (hl : as.length ≤ left)
    (hall : ∀ c ∈ as, isAddressInSegment s c = true ∧ isAlignedAddress c = true ∧
      blockIsFree s.mem c = true ∧ isBlockInChain s c = true) : isValidFreeListLoop s left a = true := by
  induction as generalizing a left with
  | nil =>
    rw [LinkedFrom.nil_iff.mp hc]
    unfold isValidFreeListLoop
    simp
  | cons c as ih =>
    obtain ⟨rfl, h0, hrest⟩ := hc
    obtain ⟨n, rfl⟩ : ∃ n, left = n+1 := ⟨left-1, by simp only [List.length_cons] at hl; omega⟩
    obtain ⟨h1, h2, h3, h4⟩ := hall a List.mem_cons_self
    unfold isValidFreeListLoop
    rw [if_neg h0, if_neg (by simp [h1, h2, h3, h4])]
    exact ih hrest (by simpa using hl) (fun d hd => hall d (List.mem_cons_of_mem _ hd))

/-- What one accepted round of the `check_sanity` loop has checked. -/
theorem checkSanityLoop_cases (h : checkSanityLoop s left a = true) : a = s.segmentEnd ∨
    (a < s.segmentEnd ∧ isAlignedAddress a = true ∧ ∃ n next, left = n+1 ∧
      blockAfter s.mem s.segmentEnd a = some next ∧ isFreeByte s.mem a = boolByte (isInFreeList s a) ∧
      checkSanityLoop s n next = true) := by
  unfold checkSanityLoop at h
  by_cases h1 : a < s.segmentEnd
  · rw [if_pos h1] at h
    cases ha : isAlignedAddress a with
    | false => simp [ha] at h
    | true =>
      cases hn : blockAfter s.mem s.segmentEnd a with
      | none => simp [ha, hn] at h
      | some next =>
        simp only [ha, hn, Bool.not_true, Bool.false_eq_true, if_false] at h
        by_cases hf : isFreeByte s.mem a = boolByte (isInFreeList s a)
        · rw [hf, bne_self_eq_false, if_neg Bool.false_ne_true] at h
          match left, h with
          | n+1, h => exact Or.inr ⟨h1, rfl, n, next, rfl, rfl, hf, h⟩
        · rw [if_pos (by simpa using hf)] at h
          exact absurd h Bool.false_ne_true
  · rw [if_neg h1] at h
    exact Or.inl (by simpa using h)

theorem checkSanityLoop_sound (h : checkSanityLoop s left a = true) (ha : a < 2^64) :
    ∃ bs, Tiles a s.segmentEnd bs ∧
      ∀ b ∈ bs, HeaderAt s.mem b ∧ b.free = isInFreeList s b.addr := by
  have hend : s.segmentEnd < 2^64 := by unfold Allocator.segmentEnd add64; omega
  induction left generalizing a with
  | zero =>
    rcases checkSanityLoop_cases h with heq | ⟨_, _, n, _, hn, _⟩
    · exact ⟨[], heq, by simp⟩
    · omega
  | succ n ih =>
    rcases checkSanityLoop_cases h with heq | ⟨_, _, k, next, hk, hn, hflag, hrest⟩
    · exact ⟨[], heq, by simp⟩
    · obtain rfl : k = n := by omega
      obtain ⟨h32, h16, hnext, hle⟩ := blockAfter_some hn ha
      obtain ⟨bs, ht, hall⟩ := ih hrest (by omega)
      refine ⟨⟨a, blockSize s.mem a, isInFreeList s a⟩ :: bs, ⟨rfl, h32, h16, by rw [hnext] at ht; exact ht⟩, ?_⟩
      intro c hc
      rcases List.mem_cons.mp hc with rfl | hc
      · exact ⟨⟨rfl, hflag⟩, rfl⟩
      · exact hall c hc

theorem checkSanityLoop_complete (ht : Tiles a s.segmentEnd bs) (ha : a%16 = 0)
    (hlt : s.segmentEnd < 2^64) (hl : bs.length ≤ left)
    (hall : ∀ b ∈ bs, HeaderAt s.mem b ∧ b.free = isInFreeList s b.addr) :
    checkSanityLoop s left a = true := by
  induction bs generalizing a left with
  | nil =>
    have ha' : a = s.segmentEnd := ht
    unfold checkSanityLoop
    rw [if_neg (by omega)]
    simpa using ha'
  | cons b bs ih =>
    have hb := ht.bounds List.mem_cons_self
    obtain ⟨rfl, h32, h16, hrest⟩ := ht
    obtain ⟨n, rfl⟩ : ∃ n, left = n+1 := ⟨left-1, by simp only [List.length_cons] at hl; omega⟩
    obtain ⟨hh, hf⟩ := hall b List.mem_cons_self
    unfold checkSanityLoop
    rw [if_pos (by unfold Block.stop at hb; omega), if_neg (by simp [isAlignedAddress, alignment, ha]),
      blockAfter_of_header hh h32 h16 hb.2.1 hlt]
    simp only
    rw [if_neg (by rw [hh.2, hf]; simp)]
    exact ih (a := b.stop) hrest (by unfold Block.stop; omega) (by simpa using hl)
      (fun c hc => hall c (List.mem_cons_of_mem _ hc))

/-- `check_sanity` on any bytes below legal header fields: what it accepts is tiled, and
its free list visits exactly the blocks that are marked free. -/
theorem checkSanity_sound (hlt : s.segmentBegin+s.segmentSize < 2^64) (h : checkSanity s = true) :
    ∃ bs as, Tiles s.first (s.segmentBegin+s.segmentSize) bs ∧ (∀ b ∈ bs, HeaderAt s.mem b) ∧
      LinkedFrom (nextFree s.mem) s.head as ∧ (∀ b ∈ bs, b.free = true ↔ b.addr ∈ as) ∧
      ∀ a ∈ as, ∃ b ∈ bs, b.addr = a := by
  have hend : s.segmentEnd = s.segmentBegin+s.segmentSize := by
    unfold Allocator.segmentEnd add64
    omega
  have hfirst : s.first < 2^64 := getPointer_lt _ _
  unfold checkSanity at h
  split_ifs at h with h0 h1
  obtain ⟨as, hchain, hlen, hvalid⟩ := isValidFreeListLoop_sound (s := s) (a := s.head)
    (by simpa [isValidFreeList] using h1)
  obtain ⟨bs, ht, hall⟩ := checkSanityLoop_sound h hfirst
  have hfree : ∀ b ∈ bs, b.free = true ↔ b.addr ∈ as := by
    intro b hb
    rw [(hall b hb).2, isInFreeList, isInFreeListLoop_linked hchain hlen, decide_eq_true_iff]
  refine ⟨bs, as, hend ▸ ht, fun b hb => (hall b hb).1, hchain, hfree, ?_⟩
  intro a ha
  obtain ⟨htarget, xs, hx, hxh⟩ := isBlockInChainLoop_sound (hvalid a ha).2.2.2 hfirst (by omega)
  obtain ⟨ys, rfl, hy⟩ := hx.prefix_unique ht (by omega)
    (fun b hb c hc heq => by rw [hxh b hb, (hall c hc).1.eq_blockAt, heq])
  cases ys with
  | nil => have := Tiles.nil_iff.mp hy; omega
  | cons y ys => exact ⟨y, by simp, hy.1⟩

/-- What `check_sanity` accepts of any bytes: a tiled segment whose free list visits exactly
the blocks marked free. No bound of the walks is too small for that. -/
theorem checkSanity_complete {as : List ℕ} (hbegin : 0 < s.segmentBegin) (hsize : 0 < s.segmentSize)
    (hle : s.segmentBegin ≤ s.first) (h16 : s.first%16 = 0) (hlt : s.segmentBegin+s.segmentSize < 2^64)
    (ht : Tiles s.first (s.segmentBegin+s.segmentSize) bs) (hh : ∀ b ∈ bs, HeaderAt s.mem b)
    (hchain : LinkedFrom (nextFree s.mem) s.head as)
    (hfree : ∀ a, a ∈ as ↔ ∃ b ∈ bs, b.free = true ∧ b.addr = a) : checkSanity s = true := by
  have hend : s.segmentEnd = s.segmentBegin+s.segmentSize := by
    unfold Allocator.segmentEnd add64
    omega
  have hlen : bs.length ≤ s.maxBlocks := by
    have := ht.length_le
    unfold Allocator.maxBlocks alignment
    omega
  -- the list visits each block at most once, so it is no longer than the chain
  have hlen' : as.length ≤ s.maxBlocks := by
    have hsub : as ⊆ bs.map Block.addr := fun a ha => by
      obtain ⟨b, hb, -, rfl⟩ := (hfree a).mp ha
      exact List.mem_map_of_mem hb
    have := (hchain.nodup.subperm hsub).length_le
    rw [List.length_map] at this
    omega
  unfold checkSanity
  rw [if_neg (by omega), if_neg]
  · refine checkSanityLoop_complete (hend ▸ ht) h16 (hend ▸ hlt) hlen fun b hb => ⟨hh b hb, ?_⟩
    rw [isInFreeList, isInFreeListLoop_linked hchain hlen', Bool.eq_iff_iff, decide_eq_true_iff, hfree]
    constructor
    · exact fun hf => ⟨b, hb, hf, rfl⟩
    · rintro ⟨c, hc, hf, heq⟩
      exact ht.eq_of_addr hc hb heq ▸ hf
  · rw [Bool.not_eq_true, Bool.not_eq_false']
    refine isValidFreeListLoop_complete hchain hlen' fun a ha => ?_
    obtain ⟨b, hb, hf, rfl⟩ := (hfree a).mp ha
    have hbb := ht.bounds hb
    have hb16 := ht.aligned h16 hb
    refine ⟨?_, by simp [isAlignedAddress, alignment, hb16], (hh b hb).isFree.trans hf,
      isBlockInChainLoop_prefix ht hh hend.ge (hend ▸ hlt) hlen hb⟩
    unfold Block.stop at hbb
    simp only [isAddressInSegment, hend, Bool.and_eq_true, decide_eq_true_iff]
    omega

namespace Linked

theorem end_lt (h : Linked s e bs l) : e < 2^64 := by
  have := h.le_end
  have := h.geometry.end_lt
  omega

theorem first_pos (h : Linked s e bs l) : 0 < s.first := by
  have := h.geometry.self_below
  omega

/-- A sane state agrees with what is known of it: the rest of the segment holds
allocated blocks only, and no known free block is off the list. -/
theorem sane_extends (h : Linked s e bs l) (hs : checkSanity s = true) :
    (∀ b ∈ bs, b.free = true → b ∈ l) ∧ ∃ gs, Tiles e (s.segmentBegin+s.segmentSize) gs ∧
      ∀ g ∈ gs, HeaderAt s.mem g ∧ g.free = false := by
  obtain ⟨cs, as, ht, hh, hchain, hfree, hcover⟩ := checkSanity_sound h.geometry.end_lt hs
  obtain rfl := h.chain.unique hchain
  obtain ⟨gs, rfl, hg⟩ := h.tiles.prefix_unique ht h.le_end
    (fun b hb c hc heq => (h.headers b hb).unique (hh c hc) heq)
  have hmem : ∀ b ∈ bs ++ gs, b.free = true → b ∈ l := by
    intro b hb hf
    obtain ⟨c, hc, heq⟩ := List.mem_map.mp ((hfree b hb).mp hf)
    rw [ht.eq_of_addr hb (List.mem_append_left gs (h.listed c hc).1) heq.symm]
    exact hc
  refine ⟨fun b hb hf => hmem b (List.mem_append_left _ hb) hf, gs, hg, ?_⟩
  intro g hgm
  refine ⟨hh g (List.mem_append_right _ hgm), ?_⟩
  by_contra hf
  have hgl := hmem g (List.mem_append_right _ hgm) (by simpa using hf)
  have h1 := (h.tiles.bounds (h.listed g hgl).1).2.1
  have h2 := hg.bounds hgm
  unfold Block.stop at h1
  omega

theorem not_sane (h : Linked s e bs l) (hb : b ∈ bs) (hf : b.free = true) (hl : b ∉ l) :
    checkSanity s = false := by
  rw [← Bool.not_eq_true]
  exact fun hs => hl ((h.sane_extends hs).1 b hb hf)

theorem wellFormed_of_sane (h : Linked s e bs l) (hsort : l.Pairwise Block.SizeAddrLt) (hco : Coalesced bs)
    (hs : checkSanity s = true) : ∃ gs, WellFormed s (bs ++ gs) l := by
  obtain ⟨hfree, gs, hg, hgs⟩ := h.sane_extends hs
  refine ⟨gs, ⟨⟨h.geometry, h.tiles.append hg, le_rfl, ?_, h.chain,
    fun b hb => ⟨List.mem_append_left _ (h.listed b hb).1, (h.listed b hb).2⟩⟩, ?_⟩, hsort,
    hco.append_allocated fun g hgm => (hgs g hgm).2⟩
  · intro b hb
    exact (List.mem_append.mp hb).elim (h.headers b) fun hgm => (hgs b hgm).1
  · intro b hb hf
    rcases List.mem_append.mp hb with hb | hgm
    · exact hfree b hb hf
    · simp [(hgs b hgm).2] at hf

theorem isBlockInChain_of_mem (h : Linked s e bs l) (hb : b ∈ bs) : isBlockInChain s b.addr = true :=
  isBlockInChainLoop_prefix h.tiles h.headers (h.geometry.segmentEnd_eq ▸ h.le_end)
    (h.geometry.segmentEnd_eq ▸ h.geometry.end_lt) h.length_lt.1 hb

theorem physicalPrevious_eq {p : ℕ} (h : Linked s e (xs ++ ys) l) (hx : Tiles s.first p xs)
    (hy : Tiles p e ys) : physicalPrevious s p = lastAddr xs := by
  have hlen := h.length_lt.1
  rw [List.length_append] at hlen
  exact lastBlockBefore_tiles hx (fun b hb => h.headers b (List.mem_append_left _ hb))
    (by have := hy.le; have := h.end_lt; omega) (by omega)

/-- The block before the end of a known prefix, which `grow` and `shrink_to_fit` look for. -/
theorem lastBlockBefore_end (h : Linked s e bs l) (hl : bs.length ≤ left) :
    lastBlockBefore s.mem e left s.first 0 = lastAddr bs :=
  lastBlockBefore_tiles h.tiles h.headers h.end_lt hl

theorem physicalNext_eq (h : Linked s (s.segmentBegin+s.segmentSize) (xs ++ b :: ys) l) :
    physicalNext s b.addr = headAddr ys := by
  have hb := h.tiles.bounds (show b ∈ xs ++ b :: ys by simp)
  have hlt := h.geometry.end_lt
  obtain ⟨_, hy⟩ := h.tiles.middle
  unfold Block.stop at hb hy
  have hnext : add64 b.addr (blockSize s.mem b.addr) = b.addr+b.size := by
    rw [(h.headers b (by simp)).1]
    unfold add64
    omega
  unfold physicalNext
  simp only [hnext, h.geometry.segmentEnd_eq]
  cases ys with
  | nil =>
    have := Tiles.nil_iff.mp hy
    rw [if_pos (by omega)]
    rfl
  | cons y ys =>
    have hyb := hy.bounds List.mem_cons_self
    rw [if_neg (by unfold Block.stop at hyb; omega)]
    exact hy.1.symm

end Linked

/-- The header below `p` reads as the `AllocationHeader` of a payload of `b` that starts at `p`. -/
def NamesBlock (m : Mem) (p : ℕ) (b : Block) : Prop :=
  b.addr+48 ≤ p ∧ p < b.stop ∧ headerBlock m p = b.addr ∧ headerRequestedSize m p ≤ b.stop-p

namespace Sane

theorem lastBlock_eq (h : Sane s bs l) : lastBlock s = lastAddr bs := by
  unfold lastBlock
  rw [h.linked.geometry.segmentEnd_eq]
  exact h.linked.lastBlockBefore_end h.linked.length_lt.1

theorem checkSanity_eq_true (h : Sane s bs l) : checkSanity s = true := by
  have hl := h.linked
  have hg := hl.geometry
  have hself := hg.self_below
  have hbegin := hg.self_ge
  have hle := hl.first_le
  refine checkSanity_complete hg.begin_pos (by omega) (by omega) hg.first_aligned hg.end_lt hl.tiles hl.headers hl.chain
    fun a => ?_
  constructor
  · intro ha
    obtain ⟨b, hb, rfl⟩ := List.mem_map.mp ha
    exact ⟨b, (hl.listed b hb).1, (hl.listed b hb).2, rfl⟩
  · rintro ⟨b, hb, hf, rfl⟩
    exact List.mem_map_of_mem (h.exact b hb hf)

theorem isBlockInChain_iff (h : Sane s bs l) {a : ℕ} :
    isBlockInChain s a = true ↔ ∃ b ∈ bs, b.addr = a := by
  have hl := h.linked
  constructor
  · intro hc
    obtain ⟨hlt, xs, hx, hh⟩ := isBlockInChainLoop_sound hc (getPointer_lt _ _)
      (hl.geometry.segmentEnd_eq ▸ hl.geometry.end_lt)
    rw [hl.geometry.segmentEnd_eq] at hlt
    obtain ⟨ys, rfl, hy⟩ := hx.prefix_unique hl.tiles hlt.le
      (fun b hb c hc heq => by rw [hh b hb, (hl.headers c hc).eq_blockAt, heq])
    cases ys with
    | nil => have := Tiles.nil_iff.mp hy; omega
    | cons y ys => exact ⟨y, by simp, hy.1⟩
  · rintro ⟨b, hb, rfl⟩
    exact hl.isBlockInChain_of_mem hb

/-- The validity checks of `deallocate` and `try_expand` are a reading of the sixteen bytes
below the pointer, whoever wrote them. -/
theorem valid_iff (h : Sane s bs l) {p : ℕ} :
    (hasAllocationHeader s p = true ∧ isValidPayload s p (headerBlock s.mem p) = true) ↔
      ∃ b ∈ bs, NamesBlock s.mem p b := by
  have hl := h.linked
  have hg := hl.geometry
  have hend := hg.segmentEnd_eq
  have h1 := hg.self_below
  have h2 := hg.self_ge
  have h3 := hg.end_room
  have hpay : ∀ b ∈ bs, add64 (add64 b.addr blockHeaderSize) allocationHeaderSize = b.addr+48 := by
    intro b hb
    have hb' := hl.mem_bounds hb
    unfold add64 blockHeaderSize allocationHeaderSize Block.stop at *
    omega
  have hstop : ∀ b ∈ bs, add64 b.addr (blockSize s.mem b.addr) = b.stop := by
    intro b hb
    have hb' := hl.mem_bounds hb
    rw [(hl.headers b hb).1]
    unfold add64 Block.stop at *
    omega
  -- what is checked is that the block is in the chain and that the payload lies in it behind both headers
  constructor
  · rintro ⟨hhas, hvalid⟩
    unfold isValidPayload at hvalid
    split_ifs at hvalid with hv1 hv2
    simp only [Bool.or_eq_true, Bool.not_eq_true', not_or, Bool.not_eq_false] at hv2
    obtain ⟨b, hb, hbaddr⟩ := h.isBlockInChain_iff.mp hv2.2
    rw [← hbaddr, hstop b hb, hpay b hb] at hvalid
    simp only [Bool.and_eq_true, decide_eq_true_iff] at hvalid
    obtain ⟨⟨hv3, hv4⟩, hv5⟩ := hvalid
    have hb' := hl.mem_bounds hb
    refine ⟨b, hb, hv3, hv4, hbaddr.symm, ?_⟩
    unfold sub64 at hv5
    omega
  · rintro ⟨b, hb, hp1, hp2, hp3, hp4⟩
    have hb' := hl.mem_bounds hb
    have hhas : hasAllocationHeader s p = true := by
      unfold hasAllocationHeader owns isRangeInSegment isAddressInSegment sub64 allocationHeaderSize
      rw [hend]
      simp only [Bool.and_eq_true, Bool.not_eq_true', decide_eq_true_iff, decide_eq_false_iff_not,
        bne_iff_ne]
      omega
    refine ⟨hhas, ?_⟩
    unfold isValidPayload
    rw [hp3, hstop b hb, hpay b hb, if_neg, if_neg]
    · unfold sub64
      simp only [Bool.and_eq_true, decide_eq_true_iff]
      omega
    · simp only [isAddressInSegment, hend, isAlignedAddress, alignment, hl.isBlockInChain_of_mem hb,
        Bool.not_true, Bool.or_false, Bool.or_eq_true, Bool.not_eq_true', Bool.and_eq_false_iff,
        decide_eq_false_iff_not, beq_eq_false_iff_ne]
      unfold Block.stop at hb'
      omega
    · simp only [hhas, Bool.not_true, Bool.false_or, beq_iff_eq]
      omega

end Sane

end ShmNext
