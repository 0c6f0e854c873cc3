import ShmNext.BlockWalks

/-! `check_sanity` on arbitrary memory: which states it accepts, and which headers it
dereferences on the way. -/
namespace ShmNext

variable {m : Mem} {s : Allocator} {a limit left lo target : ℕ} {bs : List Block} {as : List ℕ}

/-! The walks once more, now with the addresses of the headers they dereference, in order. -/

/-- The answer `r`, after a look at the header at `block`. -/
def lookAt (block : ℕ) (r : Bool × List ℕ) : Bool × List ℕ := (r.1, block :: r.2)

/-- The answer `k`, after the looks that `r` took. -/
def afterLooks (r : Bool × List ℕ) (k : Bool × List ℕ) : Bool × List ℕ := (k.1, r.2 ++ k.2)

@[simp] theorem lookAt_fst (block : ℕ) (r : Bool × List ℕ) : (lookAt block r).1 = r.1 := rfl

@[simp] theorem lookAt_snd (block : ℕ) (r : Bool × List ℕ) : (lookAt block r).2 = block :: r.2 := rfl

@[simp] theorem afterLooks_fst (r k : Bool × List ℕ) : (afterLooks r k).1 = k.1 := rfl

@[simp] theorem afterLooks_snd (r k : Bool × List ℕ) : (afterLooks r k).2 = r.2 ++ k.2 := rfl

def isBlockInChainLooks (m : Mem) (target limit : ℕ) : ℕ → ℕ → Bool × List ℕ
  | left, current =>
    if current < limit then
      if current = target then (true, [])
      else lookAt current (match blockAfter m limit current with
        | none => (false, [])
        | some next =>
          match left with
          | 0 => (false, [])
          | left+1 => isBlockInChainLooks m target limit left next)
    else (false, [])

def isInFreeListLooks (m : Mem) (target : ℕ) : ℕ → ℕ → Bool × List ℕ
  | left, curr =>
    if curr = 0 then (false, [])
    else if curr = target then (true, [])
    else lookAt curr (match left with
      | 0 => (false, [])
      | left+1 => isInFreeListLooks m target left (nextFree m curr))

def isValidFreeListLooks (s : Allocator) : ℕ → ℕ → Bool × List ℕ
  | left, curr =>
    if curr = 0 then (true, [])
    else if !isAddressInSegment s curr || !isAlignedAddress curr then (false, [])
    else if !blockIsFree s.mem curr then lookAt curr (false, [])
    else
      let r := lookAt curr (isBlockInChainLooks s.mem curr s.segmentEnd s.maxBlocks s.first)
      if !r.1 then r
      else afterLooks r (lookAt curr (match left with
        | 0 => (false, [])
        | left+1 => isValidFreeListLooks s left (nextFree s.mem curr)))

def checkSanityLoopLooks (s : Allocator) : ℕ → ℕ → Bool × List ℕ
  | left, current =>
    if current < s.segmentEnd then
      if !isAlignedAddress current then (false, [])
      else lookAt current (match blockAfter s.mem s.segmentEnd current with
        | none => (false, [])
        | some next =>
          let r := isInFreeListLooks s.mem current s.maxBlocks s.head
          if isFreeByte s.mem current != boolByte r.1 then (false, r.2)
          else afterLooks r (match left with
            | 0 => (false, [])
            | left+1 => checkSanityLoopLooks s left next))
    else (current == s.segmentEnd, [])

def checkSanityLooks (s : Allocator) : Bool × List ℕ :=
  if s.segmentBegin = 0 ∨ s.segmentSize = 0 ∨ s.first = 0 then (false, [])
  else
    let r := isValidFreeListLooks s s.maxBlocks s.head
    if !r.1 then r else afterLooks r (checkSanityLoopLooks s s.maxBlocks s.first)

/-! Keeping the looks does not change an answer. -/

theorem isBlockInChainLooks_fst : (isBlockInChainLooks m target limit left a).1 = isBlockInChainLoop m target limit left a := by
  induction left generalizing a with
  | zero =>
    unfold isBlockInChainLooks isBlockInChainLoop
    cases blockAfter m limit a <;> split_ifs <;> rfl
  | succ n ih =>
    unfold isBlockInChainLooks isBlockInChainLoop
    cases blockAfter m limit a with
    | none => split_ifs <;> rfl
    | some next => split_ifs <;> first | rfl | exact ih

theorem isInFreeListLooks_fst : (isInFreeListLooks m target left a).1 = isInFreeListLoop m target left a := by
  induction left generalizing a with
  | zero =>
    unfold isInFreeListLooks isInFreeListLoop
    split_ifs <;> rfl
  | succ n ih =>
    unfold isInFreeListLooks isInFreeListLoop
    split_ifs <;> first | rfl | exact ih

theorem isValidFreeListLooks_fst : (isValidFreeListLooks s left a).1 = isValidFreeListLoop s left a := by
  have hchain : (isBlockInChainLooks s.mem a s.segmentEnd s.maxBlocks s.first).1 = isBlockInChain s a :=
    isBlockInChainLooks_fst
  induction left generalizing a with
  | zero =>
    unfold isValidFreeListLooks isValidFreeListLoop
    simp only [lookAt_fst, hchain]
    by_cases h0 : a = 0
    · rw [if_pos h0, if_pos h0]
    · rw [if_neg h0, if_neg h0]
      cases isAddressInSegment s a <;> cases isAlignedAddress a <;> cases blockIsFree s.mem a <;>
        cases hb : isBlockInChain s a <;> simp [hchain, hb]
  | succ n ih =>
    unfold isValidFreeListLooks isValidFreeListLoop
    simp only [lookAt_fst, hchain]
    by_cases h0 : a = 0
    · rw [if_pos h0, if_pos h0]
    · rw [if_neg h0, if_neg h0]
      cases isAddressInSegment s a <;> cases isAlignedAddress a <;> cases blockIsFree s.mem a <;>
        cases hb : isBlockInChain s a <;> simp [hchain, hb, ih isBlockInChainLooks_fst]

theorem checkSanityLoopLooks_fst : (checkSanityLoopLooks s left a).1 = checkSanityLoop s left a := by
  have hin : (isInFreeListLooks s.mem a s.maxBlocks s.head).1 = isInFreeList s a := isInFreeListLooks_fst
  induction left generalizing a with
  | zero =>
    unfold checkSanityLoopLooks checkSanityLoop
    simp only [hin]
    cases isAlignedAddress a <;> cases blockAfter s.mem s.segmentEnd a <;>
      cases isFreeByte s.mem a != boolByte (isInFreeList s a) <;> split_ifs <;> simp_all
  | succ n ih =>
    unfold checkSanityLoopLooks checkSanityLoop
    simp only [hin]
    cases isAlignedAddress a <;> cases blockAfter s.mem s.segmentEnd a <;>
      cases isFreeByte s.mem a != boolByte (isInFreeList s a) <;> split_ifs <;> simp_all [ih isInFreeListLooks_fst]

theorem checkSanityLooks_fst : (checkSanityLooks s).1 = checkSanity s := by
  unfold checkSanityLooks checkSanity isValidFreeList
  simp only [isValidFreeListLooks_fst]
  split_ifs with h1 h2
  · rfl
  · rw [isValidFreeListLooks_fst]
    simpa using h2
  · exact checkSanityLoopLooks_fst

/-! Which headers are looked at. -/

/-- A header may be read at `x`: 16-aligned and inside the segment. -/
def HeaderPlace (s : Allocator) (x : ℕ) : Prop :=
  x%16 = 0 ∧ s.segmentBegin ≤ x ∧ x < s.segmentBegin+s.segmentSize

/-- The chain walk only steps by multiples of 16, upwards and below the limit. -/
theorem isBlockInChainLooks_mem (h16 : a%16 = 0) (hlo : lo ≤ a) (hlt : limit < 2^64) {x : ℕ}
    (hx : x ∈ (isBlockInChainLooks m target limit left a).2) : x%16 = 0 ∧ lo ≤ x ∧ x < limit := by
  induction left generalizing a with
  | zero =>
    unfold isBlockInChainLooks at hx
    split_ifs at hx with h1 h2
    · simp at hx
    · cases hn : blockAfter m limit a <;> simp only [hn, lookAt_snd, List.mem_singleton] at hx <;> subst hx <;>
        exact ⟨h16, hlo, h1⟩
    · simp at hx
  | succ n ih =>
    unfold isBlockInChainLooks at hx
    split_ifs at hx with h1 h2
    · simp at hx
    · cases hn : blockAfter m limit a with
      | none =>
        simp only [hn, lookAt_snd, List.mem_singleton] at hx
        exact hx ▸ ⟨h16, hlo, h1⟩
      | some next =>
        simp only [hn, lookAt_snd, List.mem_cons] at hx
        obtain ⟨-, hsize, hnext, -⟩ := blockAfter_some hn (by omega)
        rcases hx with rfl | hx
        · exact ⟨h16, hlo, h1⟩
        · exact ih (by omega) (by omega) hx
    · simp at hx

/-- The search in a list that ends only looks at its nodes. -/
theorem isInFreeListLooks_mem (hc : LinkedFrom (nextFree m) a as) {x : ℕ}
    (hx : x ∈ (isInFreeListLooks m target left a).2) : x ∈ as := by
  induction as generalizing a left with
  | nil =>
    unfold isInFreeListLooks at hx
    rw [if_pos (LinkedFrom.nil_iff.mp hc)] at hx
    simp at hx
  | cons c as ih =>
    obtain ⟨rfl, h0, hrest⟩ := hc
    unfold isInFreeListLooks at hx
    rw [if_neg h0] at hx
    split_ifs at hx with h1
    · simp at hx
    · cases left with
      | zero => simpa using Or.inl hx
      | succ n =>
        rcases List.mem_cons.mp hx with rfl | hx
        · exact List.mem_cons_self
        · exact List.mem_cons_of_mem _ (ih hrest hx)

/-- One round of the list check: the node passes the address checks first, and what is looked
at is the node, the chain or a later node. -/
theorem isValidFreeListLooks_cases {x : ℕ} (hx : x ∈ (isValidFreeListLooks s left a).2) :
    isAddressInSegment s a = true ∧ isAlignedAddress a = true ∧ (x = a ∨
      x ∈ (isBlockInChainLooks s.mem a s.segmentEnd s.maxBlocks s.first).2 ∨
      ∃ n, left = n+1 ∧ x ∈ (isValidFreeListLooks s n (nextFree s.mem a)).2) := by
  unfold isValidFreeListLooks at hx
  dsimp only at hx
  split_ifs at hx with h0 h1 h2 h3
  · simp at hx
  · simp at hx
  all_goals
    simp only [Bool.or_eq_true, Bool.not_eq_true', not_or, Bool.not_eq_false] at h1
    refine ⟨h1.1, h1.2, ?_⟩
  · exact Or.inl (by simpa using hx)
  · exact (List.mem_cons.mp hx).imp id Or.inl
  · simp only [afterLooks_snd, lookAt_snd, List.mem_append, List.mem_cons] at hx
    rcases hx with (hx | hx) | hx | hx
    · exact Or.inl hx
    · exact Or.inr (Or.inl hx)
    · exact Or.inl hx
    · cases left with
      | zero => simp at hx
      | succ n => exact Or.inr (Or.inr ⟨n, rfl, hx⟩)

/-- One round of the main loop of `check_sanity`, in the same way. -/
theorem checkSanityLoopLooks_cases {x : ℕ} (hx : x ∈ (checkSanityLoopLooks s left a).2) :
    a < s.segmentEnd ∧ isAlignedAddress a = true ∧ (x = a ∨
      x ∈ (isInFreeListLooks s.mem a s.maxBlocks s.head).2 ∨
      ∃ n next, left = n+1 ∧ blockAfter s.mem s.segmentEnd a = some next ∧ x ∈ (checkSanityLoopLooks s n next).2) := by
  unfold checkSanityLoopLooks at hx
  split_ifs at hx with h1 h2
  · simp at hx
  · refine ⟨h1, by simpa using h2, ?_⟩
    cases hn : blockAfter s.mem s.segmentEnd a with
    | none => exact Or.inl (by simpa [hn] using hx)
    | some next =>
      simp only [hn, lookAt_snd, List.mem_cons] at hx
      rcases hx with hx | hx
      · exact Or.inl hx
      · split_ifs at hx with h3
        · exact Or.inr (Or.inl hx)
        · rw [afterLooks_snd, List.mem_append] at hx
          cases left with
          | zero => exact Or.inr (Or.inl (by simpa using hx))
          | succ n => exact Or.inr (hx.imp id fun hx => ⟨n, next, rfl, rfl, hx⟩)
  · simp at hx

section Segment
variable (hle : s.segmentBegin ≤ s.first) (h16 : s.first%16 = 0) (hlt : s.segmentBegin+s.segmentSize < 2^64)
include hlt

theorem segmentEnd_of_lt : s.segmentEnd = s.segmentBegin+s.segmentSize := by
  unfold Allocator.segmentEnd add64
  omega

theorem headerPlace_of_checked (h1 : isAddressInSegment s a = true) (h2 : isAlignedAddress a = true) : HeaderPlace s a := by
  have hend := segmentEnd_of_lt hlt
  unfold isAddressInSegment at h1
  unfold isAlignedAddress alignment at h2
  simp only [Bool.and_eq_true, decide_eq_true_iff, beq_iff_eq] at h1 h2
  exact ⟨h2, h1.1, by omega⟩

/-- The main loop runs after the free list has been found valid, so it ends with its nodes `as`. -/
theorem checkSanityLoopLooks_mem (hle : s.segmentBegin ≤ a) (hc : LinkedFrom (nextFree s.mem) s.head as)
    (has : ∀ c ∈ as, HeaderPlace s c) {x : ℕ} (hx : x ∈ (checkSanityLoopLooks s left a).2) : HeaderPlace s x := by
  have hend := segmentEnd_of_lt hlt
  induction left generalizing a with
  | zero =>
    obtain ⟨h1, h2, rfl | hx | ⟨n, _, hn, -⟩⟩ := checkSanityLoopLooks_cases hx
    · exact ⟨by simpa [isAlignedAddress, alignment] using h2, hle, hend ▸ h1⟩
    · exact has x (isInFreeListLooks_mem hc hx)
    · omega
  | succ n ih =>
    obtain ⟨h1, h2, rfl | hx | ⟨k, next, hk, hnext, hx⟩⟩ := checkSanityLoopLooks_cases hx
    · exact ⟨by simpa [isAlignedAddress, alignment] using h2, hle, hend ▸ h1⟩
    · exact has x (isInFreeListLooks_mem hc hx)
    · obtain rfl : n = k := by omega
      have := blockAfter_some hnext (by omega)
      exact ih (by omega) hx

include hle h16

theorem isValidFreeListLooks_mem {x : ℕ} (hx : x ∈ (isValidFreeListLooks s left a).2) : HeaderPlace s x := by
  have hend := segmentEnd_of_lt hlt
  have hchain : ∀ {a}, x ∈ (isBlockInChainLooks s.mem a s.segmentEnd s.maxBlocks s.first).2 → HeaderPlace s x := by
    intro a hx
    have := isBlockInChainLooks_mem h16 hle (by omega) hx
    exact ⟨this.1, this.2.1, hend ▸ this.2.2⟩
  induction left generalizing a with
  | zero =>
    obtain ⟨h1, h2, rfl | hx | ⟨n, hn, -⟩⟩ := isValidFreeListLooks_cases hx
    · exact headerPlace_of_checked hlt h1 h2
    · exact hchain hx
    · omega
  | succ n ih =>
    obtain ⟨h1, h2, rfl | hx | ⟨k, hk, hx⟩⟩ := isValidFreeListLooks_cases hx
    · exact headerPlace_of_checked hlt h1 h2
    · exact hchain hx
    · obtain rfl : n = k := by omega
      exact ih hx

/-- `check_sanity` never looks for a header outside the segment or off the 16-byte grid. -/
theorem checkSanityLooks_mem {x : ℕ} (hx : x ∈ (checkSanityLooks s).2) : HeaderPlace s x := by
  unfold checkSanityLooks at hx
  dsimp only at hx
  split_ifs at hx with h0 h1
  · simp at hx
  · exact isValidFreeListLooks_mem hle h16 hlt hx
  · rw [afterLooks_snd, List.mem_append] at hx
    rcases hx with hx | hx
    · exact isValidFreeListLooks_mem hle h16 hlt hx
    · rw [isValidFreeListLooks_fst, Bool.not_eq_true, Bool.not_eq_false'] at h1
      obtain ⟨as, hchain, -, hvalid⟩ := isValidFreeListLoop_sound h1
      exact checkSanityLoopLooks_mem hlt hle hchain (fun c hc => headerPlace_of_checked hlt (hvalid c hc).1 (hvalid c hc).2.1) hx

end Segment

/-- On arbitrary memory, `check_sanity` accepts exactly when the blocks from `first_block` tile the
segment, each `is_free` byte of theirs is the 0 or the 1 of a `bool`, and the free list is finite and visits every
block marked free once and nothing else; the headers it looks at are 16-aligned and inside the segment. -/
theorem check_sanity_decides (hbegin : 0 < s.segmentBegin) (hsize : 0 < s.segmentSize)
    (hle : s.segmentBegin ≤ s.first) (h16 : s.first%16 = 0) (hlt : s.segmentBegin+s.segmentSize < 2^64) :
    (checkSanity s = true ↔ ∃ bs as, Tiles s.first s.segmentEnd bs ∧ (∀ b ∈ bs, HeaderAt s.mem b) ∧
      LinkedFrom (nextFree s.mem) s.head as ∧ as.Nodup ∧ ∀ a, a ∈ as ↔ ∃ b ∈ bs, b.free = true ∧ b.addr = a) ∧
    (checkSanityLooks s).1 = checkSanity s ∧
    ∀ x ∈ (checkSanityLooks s).2, x%16 = 0 ∧ s.segmentBegin ≤ x ∧ x < s.segmentEnd := by
  have hend := segmentEnd_of_lt hlt
  rw [hend]
  refine ⟨⟨fun h => ?_, ?_⟩, checkSanityLooks_fst, fun x hx => checkSanityLooks_mem hle h16 hlt hx⟩
  · obtain ⟨bs, as, ht, hh, hchain, hfree, hblocks⟩ := checkSanity_sound hlt h
    refine ⟨bs, as, ht, hh, hchain, hchain.nodup, fun a => ⟨fun ha => ?_, ?_⟩⟩
    · obtain ⟨b, hb, rfl⟩ := hblocks a ha
      exact ⟨b, hb, (hfree b hb).mpr ha, rfl⟩
    · rintro ⟨b, hb, hf, rfl⟩
      exact (hfree b hb).mp hf
  · rintro ⟨bs, as, ht, hh, hchain, -, hfree⟩
    exact checkSanity_complete hbegin hsize hle h16 hlt ht hh hchain hfree

/-- A segment of one block at 4208, with the stored bytes and words of its flag, its link and the list head. -/
def oneBlockSegment (flag link head : ℕ) : Allocator :=
  ⟨((Mem.store64 (fun _ => 0) 4208 3984).store8 4216 flag).store64 4224 link, 4096, 0, 4096, 96, head, Counters.zero⟩

/-- The free block is on the list, and its link leads back to itself. -/
def cyclicSegment : Allocator := oneBlockSegment 1 (2^64-16) 88

theorem check_sanity_decides_cyclic : nextFree cyclicSegment.mem cyclicSegment.head = cyclicSegment.head ∧
    ¬ ∃ bs as, Tiles cyclicSegment.first cyclicSegment.segmentEnd bs ∧ (∀ b ∈ bs, HeaderAt cyclicSegment.mem b) ∧
      LinkedFrom (nextFree cyclicSegment.mem) cyclicSegment.head as ∧ as.Nodup ∧
      ∀ a, a ∈ as ↔ ∃ b ∈ bs, b.free = true ∧ b.addr = a := by
  have hrefused : checkSanity cyclicSegment = false := by decide +kernel
  refine ⟨by decide +kernel, fun h => ?_⟩
  have haccepted := (check_sanity_decides (s := cyclicSegment) (by decide) (by decide) (by decide) (by decide) (by decide)).1.mpr h
  rw [hrefused] at haccepted
  cases haccepted

/-- Header fields of a segment: base and first block on the 16-byte grid, the first block inside
the segment, and no wrap. -/
structure SegmentFields (s : Allocator) : Prop where
  begin_pos : 0 < s.segmentBegin
  begin_aligned : s.segmentBegin%16 = 0
  first_aligned : s.first%16 = 0
  size_pos : 0 < s.segmentSize
  size_aligned : s.segmentSize%16 = 0
  begin_le : s.segmentBegin ≤ s.first
  first_le : s.first ≤ s.segmentEnd
  end_lt : s.segmentBegin+s.segmentSize < 2^64

theorem oneBlockSegment_end (flag link head : ℕ) : (oneBlockSegment flag link head).segmentEnd = 8192 := by
  have hbegin : (oneBlockSegment flag link head).segmentBegin = 4096 := rfl
  have hsize : (oneBlockSegment flag link head).segmentSize = 4096 := rfl
  unfold Allocator.segmentEnd add64
  omega

theorem oneBlockSegment_fields (flag link head : ℕ) : SegmentFields (oneBlockSegment flag link head) := by
  have hbegin : (oneBlockSegment flag link head).segmentBegin = 4096 := rfl
  have hfirst : (oneBlockSegment flag link head).first = 4208 := rfl
  have hsize : (oneBlockSegment flag link head).segmentSize = 4096 := rfl
  have hend := oneBlockSegment_end flag link head
  constructor <;> omega

theorem oneBlockSegment_tiled (flag link head : ℕ) (free : Bool) :
    Tiles (oneBlockSegment flag link head).first (oneBlockSegment flag link head).segmentEnd [⟨4208, 3984, free⟩] :=
  ⟨rfl, (by decide : 32 ≤ 3984), (by decide : 3984%16 = 0), (oneBlockSegment_end flag link head).symm⟩

/-- Tiling and an exact free list, where `marked` says which `is_free` bytes mark a block as free. -/
def ListsMarked (marked : UInt8 → Bool) (s : Allocator) : Prop :=
  ∃ bs as, Tiles s.first s.segmentEnd bs ∧
    (∀ b ∈ bs, blockSize s.mem b.addr = b.size ∧ marked (isFreeByte s.mem b.addr) = b.free) ∧
    LinkedFrom (nextFree s.mem) s.head as ∧ as.Nodup ∧ ∀ a, a ∈ as ↔ ∃ b ∈ bs, b.free = true ∧ b.addr = a

/-- A byte that stores no `bool` is refused whether it counts as a mark, on a block that is listed, or as none, on
one that is not. -/
theorem check_sanity_refuses_other_byte :
    (¬ ∀ s, SegmentFields s → (checkSanity s = true ↔ ListsMarked (fun byte => byte != 0) s)) ∧
    ¬ ∀ s, SegmentFields s → (checkSanity s = true ↔ ListsMarked (fun byte => byte == 1) s) := by
  constructor
  · intro hall
    have hrefused : checkSanity (oneBlockSegment 2 offsetPtrNull 88) = false := by decide +kernel
    have hheader : blockSize (oneBlockSegment 2 offsetPtrNull 88).mem 4208 = 3984 ∧
        (isFreeByte (oneBlockSegment 2 offsetPtrNull 88).mem 4208 != 0) = true := by decide +kernel
    have hlinked : LinkedFrom (nextFree (oneBlockSegment 2 offsetPtrNull 88).mem) (oneBlockSegment 2 offsetPtrNull 88).head [4208] :=
      ⟨by decide, by decide, LinkedFrom.nil_iff.mpr (by decide +kernel)⟩
    have haccepted := (hall _ (oneBlockSegment_fields 2 offsetPtrNull 88)).mpr
      ⟨_, _, oneBlockSegment_tiled 2 offsetPtrNull 88 true, by simpa only [List.forall_mem_singleton] using hheader, hlinked,
        List.nodup_singleton _, fun a => by simp only [List.mem_singleton, exists_eq_left, true_and, eq_comm]⟩
    rw [hrefused] at haccepted
    cases haccepted
  · intro hall
    have hrefused : checkSanity (oneBlockSegment 2 offsetPtrNull offsetPtrNull) = false := by decide +kernel
    have hheader : blockSize (oneBlockSegment 2 offsetPtrNull offsetPtrNull).mem 4208 = 3984 ∧
        (isFreeByte (oneBlockSegment 2 offsetPtrNull offsetPtrNull).mem 4208 == 1) = false := by decide +kernel
    have hlinked : LinkedFrom (nextFree (oneBlockSegment 2 offsetPtrNull offsetPtrNull).mem)
        (oneBlockSegment 2 offsetPtrNull offsetPtrNull).head [] := LinkedFrom.nil_iff.mpr (by decide +kernel)
    have haccepted := (hall _ (oneBlockSegment_fields 2 offsetPtrNull offsetPtrNull)).mpr
      ⟨_, _, oneBlockSegment_tiled 2 offsetPtrNull offsetPtrNull false, by simpa only [List.forall_mem_singleton] using hheader,
        hlinked, List.nodup_nil, fun a => by simp only [List.mem_singleton, exists_eq_left, List.not_mem_nil, Bool.false_eq_true, false_and]⟩
    rw [hrefused] at haccepted
    cases haccepted

end ShmNext
