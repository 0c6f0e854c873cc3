import ShmNext.TwoRuns
import ShmNext.TailRoom

/-! One segment mapped at two bases. What the allocator reads at one base it reads at the
other, with addresses moved by the difference, and its two list operations keep that so. -/
namespace ShmNext
open Prog

/-- The bytes `[base, base+cap)` and the allocator object of `s`, as `s'` has them at `base'`:
nothing that is stored differs. -/
structure SameView (base base' cap : ℕ) (s s' : Allocator) : Prop where
  self : s'.self+base = s.self+base'
  segmentBase : s'.segmentBase = s.segmentBase
  segmentSize : s'.segmentSize = s.segmentSize
  firstBlock : s'.firstBlock = s.firstBlock
  freeListHead : s'.freeListHead = s.freeListHead
  counters : s'.counters = s.counters
  bytes : ∀ o < cap, s'.mem (base'+o) = s.mem (base+o)

theorem SameView.symm {base base' cap : ℕ} {s s' : Allocator} (h : SameView base base' cap s s') :
    SameView base' base cap s' s :=
  ⟨h.self.symm, h.segmentBase.symm, h.segmentSize.symm, h.firstBlock.symm, h.freeListHead.symm, h.counters.symm,
    fun o ho => (h.bytes o ho).symm⟩

theorem SameView.trans {base base' base'' cap : ℕ} {s s' s'' : Allocator} (h : SameView base base' cap s s')
    (h' : SameView base' base'' cap s' s'') : SameView base base'' cap s s'' := by
  refine ⟨?_, h'.segmentBase.trans h.segmentBase, h'.segmentSize.trans h.segmentSize,
    h'.firstBlock.trans h.firstBlock, h'.freeListHead.trans h.freeListHead, h'.counters.trans h.counters,
    fun o ho => (h'.bytes o ho).trans (h.bytes o ho)⟩
  have h1 := h.self
  have h2 := h'.self
  omega

/-- A pointer into the segment after the move; null stays null. -/
def moved (δ p : ℕ) : ℕ := if p = 0 then 0 else p+δ

variable {lo cap δ : ℕ} {s s' c c' : Allocator} {m m' : Mem} {as us vs ws : List ℕ} {a n p x : ℕ}

@[simp] theorem moved_zero : moved δ 0 = 0 := rfl

theorem moved_of_ne_zero (h : p ≠ 0) : moved δ p = p+δ := if_neg h

theorem headD_moved (h : ∀ a ∈ as, a ≠ 0) : (as.map (·+δ)).headD 0 = moved δ (as.headD 0) := by
  cases as with
  | nil => rfl
  | cons a as => exact (moved_of_ne_zero (h a List.mem_cons_self)).symm

/-- The stored displacement depends on the distance only. -/
theorem setPointer_moved (self ptr : ℕ) : setPointer (self+δ) (moved δ ptr) = setPointer self ptr := by
  unfold setPointer
  by_cases h0 : ptr = 0
  · rw [h0, moved_zero, if_pos rfl, if_pos rfl]
  · rw [moved_of_ne_zero h0, if_neg h0, if_neg (by omega)]
    unfold tryMakeOffset
    simp only [Nat.add_le_add_iff_right, Nat.add_sub_add_right]

theorem setPointer_add (self : ℕ) {ptr : ℕ} (h : ptr ≠ 0) : setPointer (self+δ) (ptr+δ) = setPointer self ptr := by
  rw [← moved_of_ne_zero h, setPointer_moved]

theorem getPointer_moved {self w : ℕ} (h : getPointer self w = p) (h0 : p ≠ 0) (hp : p+δ < 2^64) :
    getPointer (self+δ) w = p+δ := by
  unfold getPointer at *
  split_ifs at * <;> omega

/-! The walks over blocks read sizes only. -/

theorem blockAfter_moved {limit : ℕ} (hs : blockSize m' (a+δ) = blockSize m a) (ha : a < limit)
    (hlim : limit+δ < 2^64) : blockAfter m' (limit+δ) (a+δ) = (blockAfter m limit a).map (·+δ) := by
  have hsz : blockSize m a < 2^64 := m.load64_lt a
  unfold blockAfter
  rw [hs]
  generalize blockSize m a = size at *
  unfold add64 blockHeaderSize alignment
  dsimp only
  by_cases h1 : size < 32 ∨ size%16 ≠ 0
  · rw [if_pos h1, if_pos h1]
    rfl
  rw [if_neg h1, if_neg h1]
  by_cases h2 : (a+size)%2^64 ≤ a ∨ limit < (a+size)%2^64
  · rw [if_pos h2, if_pos (by omega)]
    rfl
  · rw [if_neg h2, if_neg (by omega), Option.map_some]
    congr 1
    omega

/-- Sizes read the same at both bases, at every place a block below `limit` can have. -/
def SizesMoved (δ lo limit : ℕ) (m m' : Mem) : Prop :=
  ∀ a, lo ≤ a → a < limit → a%16 = 0 → blockSize m' (a+δ) = blockSize m a

theorem lastBlockBefore_moved {limit left prev : ℕ} (hs : SizesMoved δ lo limit m m') (hlim : limit+δ < 2^64)
    (hpos : 0 < lo) (hlo : lo ≤ a) (ha : a%16 = 0) :
    lastBlockBefore m' (limit+δ) left (a+δ) (moved δ prev) = moved δ (lastBlockBefore m limit left a prev) := by
  induction left generalizing a prev with
  | zero =>
    unfold lastBlockBefore
    by_cases h1 : a < limit
    · rw [if_pos h1, if_pos (by omega), blockAfter_moved (hs a hlo h1 ha) h1 hlim]
      cases blockAfter m limit a <;> rfl
    · rw [if_neg h1, if_neg (by omega)]
      by_cases h2 : a = limit
      · rw [if_pos h2, if_pos (by omega)]
      · rw [if_neg h2, if_neg (by omega)]
        rfl
  | succ left ih =>
    unfold lastBlockBefore
    by_cases h1 : a < limit
    · rw [if_pos h1, if_pos (by omega), blockAfter_moved (hs a hlo h1 ha) h1 hlim]
      cases hn : blockAfter m limit a with
      | none => rfl
      | some next =>
        obtain ⟨h32, h16, hnext, hle⟩ := blockAfter_some hn (by omega)
        have hstep := @ih next a (by omega) (by omega)
        rw [moved_of_ne_zero (by omega)] at hstep
        exact hstep
    · rw [if_neg h1, if_neg (by omega)]
      by_cases h2 : a = limit
      · rw [if_pos h2, if_pos (by omega)]
      · rw [if_neg h2, if_neg (by omega)]
        rfl

theorem isBlockInChainLoop_moved {limit left target : ℕ} (hs : SizesMoved δ lo limit m m') (hlim : limit+δ < 2^64)
    (hlo : lo ≤ a) (ha : a%16 = 0) :
    isBlockInChainLoop m' (target+δ) (limit+δ) left (a+δ) = isBlockInChainLoop m target limit left a := by
  induction left generalizing a with
  | zero =>
    unfold isBlockInChainLoop
    by_cases h1 : a < limit
    · rw [if_pos h1, if_pos (by omega), blockAfter_moved (hs a hlo h1 ha) h1 hlim]
      by_cases h2 : a = target
      · rw [if_pos h2, if_pos (by omega)]
      · rw [if_neg h2, if_neg (by omega)]
        cases blockAfter m limit a <;> rfl
    · rw [if_neg h1, if_neg (by omega)]
  | succ left ih =>
    unfold isBlockInChainLoop
    by_cases h1 : a < limit
    · rw [if_pos h1, if_pos (by omega), blockAfter_moved (hs a hlo h1 ha) h1 hlim]
      by_cases h2 : a = target
      · rw [if_pos h2, if_pos (by omega)]
      · rw [if_neg h2, if_neg (by omega)]
        cases hn : blockAfter m limit a with
        | none => rfl
        | some next =>
          obtain ⟨h32, h16, hnext, hle⟩ := blockAfter_some hn (by omega)
          exact @ih next (by omega) (by omega)
    · rw [if_neg h1, if_neg (by omega)]

/-! The walk over the free list. -/

/-- The nodes on which the list walk asks for `stop`. -/
inductive Tested (next : ℕ → ℕ) (stop : ℕ → Bool) : ℕ → ℕ → Prop
  | here {curr : ℕ} (h : curr ≠ 0) : Tested next stop curr curr
  | later {curr a : ℕ} (h : curr ≠ 0) (hs : stop curr = false) (ht : Tested next stop (next curr) a) :
      Tested next stop curr a

/-- Two chains whose nodes are moved are walked alike while the tests agree. -/
theorem scanChain_moved {next next' : ℕ → ℕ} {stop stop' : ℕ → Bool} {head head' prev prev' fuel : ℕ}
    (h : LinkedFrom next head as) (h' : LinkedFrom next' head' (as.map (·+δ)))
    (hstop : ∀ a ∈ as, Tested next stop head a → Tested next' stop' head' (a+δ) → stop' (a+δ) = stop a)
    (hf : as.length ≤ fuel) :
    ∃ us vs, as = us ++ vs ∧ (∀ b ∈ us, stop b = false) ∧
      (∀ b ∈ vs.head?, stop b = true ∧ Tested next stop head b ∧ Tested next' stop' head' (b+δ)) ∧
      scanChain next stop fuel prev head = some (us.getLastD prev, vs.headD 0) ∧
      scanChain next' stop' fuel prev' head' = some ((us.map (·+δ)).getLastD prev', (vs.map (·+δ)).headD 0) := by
  induction as generalizing head head' prev prev' fuel with
  | nil =>
    refine ⟨[], [], rfl, by simp, by simp, ?_, ?_⟩
    · rw [LinkedFrom.nil_iff.mp h]
      unfold scanChain
      rfl
    · rw [LinkedFrom.nil_iff.mp h']
      unfold scanChain
      rfl
  | cons a as ih =>
    obtain ⟨rfl, h0, ht⟩ := h
    obtain ⟨rfl, h0', ht'⟩ := h'
    have hsame := hstop head List.mem_cons_self (.here h0) (.here h0')
    unfold scanChain
    rw [if_neg h0, if_neg h0', hsame]
    -- the two walks stop at the same node, or both go on
    cases hs : stop head with
    | true =>
      refine ⟨[], head :: as, rfl, by simp, fun b hb => ?_, rfl, rfl⟩
      obtain rfl : head = b := by simpa using hb
      exact ⟨hs, .here h0, .here h0'⟩
    | false =>
      obtain ⟨k, rfl⟩ : ∃ k, fuel = k+1 := ⟨fuel-1, by simp only [List.length_cons] at hf; omega⟩
      rw [hs] at hsame
      obtain ⟨us, vs, rfl, hus, hvs, hl, hr⟩ := @ih _ _ head (head+δ) k ht ht'
        (fun b hb h1 h2 => hstop b (List.mem_cons_of_mem _ hb) (.later h0 hs h1) (.later h0' hsame h2))
        (by simpa using hf)
      refine ⟨head :: us, vs, rfl, by simpa [hs] using hus, fun b hb => ?_, ?_, ?_⟩
      · obtain ⟨h1, h2, h3⟩ := hvs b hb
        exact ⟨h1, .later h0 hs h2, .later h0' hsame h3⟩
      · rw [List.getLastD_cons]
        exact hl
      · rw [List.map_cons, List.getLastD_cons]
        exact hr

/-! Chains under stores. Nodes are 16-aligned, so that the link of one is not the link of another. -/

theorem nextFree_store_ne {b w : ℕ} (ha : a%16 = 0) (hb : b%16 = 0) (hne : b ≠ a) :
    nextFree (m.store64 (a+16) w) b = nextFree m b :=
  nextFree_congr fun x h1 h2 => Mem.store64_of_outside _ (by omega)

theorem chain_store_off {w head : ℕ} (h : LinkedFrom (nextFree m) head as) (hal : ∀ b ∈ as, b%16 = 0) (ha : a%16 = 0)
    (hoff : a ∉ as) : LinkedFrom (nextFree (m.store64 (a+16) w)) head as :=
  h.congr fun b hb => nextFree_store_ne ha (hal b hb) fun heq => hoff (heq ▸ hb)

theorem chain_relink {w head q : ℕ} (h : LinkedFrom (nextFree m) head (us ++ a :: vs))
    (hal : ∀ b ∈ us ++ a :: ws, b%16 = 0) (hnd : (us ++ a :: ws).Nodup) (hw : w < 2^64)
    (hq : getPointer (a+16) w = q) (hws : LinkedFrom (nextFree m) q ws) :
    LinkedFrom (nextFree (m.store64 (a+16) w)) head (us ++ a :: ws) := by
  rw [List.nodup_append, List.nodup_cons] at hnd
  have ha : a%16 = 0 := hal a (by simp)
  have hnext : nextFree (m.store64 (a+16) w) a = q := by
    unfold nextFree
    rw [Mem.load64_store64 _ _ _ hw, hq]
  apply h.relink
  · intro b hb
    exact nextFree_store_ne ha (hal b (by simp [hb])) (hnd.2.2 b hb a (by simp))
  · rw [hnext]
    exact chain_store_off hws (fun b hb => hal b (by simp [hb])) ha hnd.2.1.1

/-- A move by `δ` of a segment of at most `cap` bytes at `lo`, clear of the ends of the address space. -/
structure Shift (lo cap δ : ℕ) : Prop where
  pos : 0 < lo
  lo_aligned : lo%16 = 0
  aligned : δ%16 = 0
  room : lo+cap+δ+48 ≤ 2^64

/-- Two views of one segment in which the free list visits `as`, at both bases. -/
structure Twins (lo cap δ : ℕ) (s s' : Allocator) (as : List ℕ) : Prop where
  shift : Shift lo cap δ
  same : SameView lo (lo+δ) cap s s'
  geometry : Geometry s
  begin_eq : s.segmentBegin = lo
  size_le : s.segmentSize ≤ cap
  first_le : s.first ≤ s.segmentBegin+s.segmentSize
  chain : LinkedFrom (nextFree s.mem) s.head as
  chain' : LinkedFrom (nextFree s'.mem) s'.head (as.map (·+δ))
  nodes : ∀ a ∈ as, InArea s a

/-- No free node reaches into `[p, q)`. -/
def Clear (as : List ℕ) (p q : ℕ) : Prop := ∀ a ∈ as, a+32 ≤ p ∨ q ≤ a

/-- The links of the nodes. -/
def InLinks (as : List ℕ) (x : ℕ) : Prop := ∃ a ∈ as, a+16 ≤ x ∧ x < a+24

/-- The same store in both views. -/
theorem SameView.store (h : SameView lo (lo+δ) cap s s') (x k v : ℕ) :
    SameView lo (lo+δ) cap { s with mem := s.mem.storeLE x k v } { s' with mem := s'.mem.storeLE (x+δ) k v } := by
  refine ⟨h.self, h.segmentBase, h.segmentSize, h.firstBlock, h.freeListHead, h.counters, fun o ho => ?_⟩
  unfold Mem.storeLE
  dsimp only
  by_cases hin : x ≤ lo+o ∧ lo+o < x+k
  · rw [if_pos hin, if_pos (by omega), show lo+δ+o-(x+δ) = lo+o-x from by omega]
  · rw [if_neg hin, if_neg (by omega)]
    exact h.bytes o ho

namespace Twins

theorem bytes_eq (h : Twins lo cap δ s s' as) (h1 : lo ≤ x) (h2 : x < lo+cap) : s'.mem (x+δ) = s.mem x := by
  have := h.same.bytes (x-lo) (by omega)
  rw [show lo+δ+(x-lo) = x+δ from by omega, show lo+(x-lo) = x from by omega] at this
  exact this

theorem load64_eq (h : Twins lo cap δ s s' as) (h1 : lo ≤ x) (h2 : x+8 ≤ lo+cap) :
    s'.mem.load64 (x+δ) = s.mem.load64 x := by
  have hload : ∀ k, x ≤ x+k → ∀ y, x ≤ y → y+k ≤ x+8 → s'.mem.loadLE (y+δ) k = s.mem.loadLE y k := by
    intro k _
    induction k with
    | zero => exact fun _ _ _ => rfl
    | succ k ih =>
      intro y hy hk
      have hrest := ih (by omega) (y+1) (by omega) (by omega)
      rw [show y+1+δ = y+δ+1 from by omega] at hrest
      simp only [Mem.loadLE]
      rw [h.bytes_eq (by omega) (by omega), hrest]
  exact hload 8 (by omega) x le_rfl le_rfl

theorem blockSize_eq (h : Twins lo cap δ s s' as) (h1 : lo ≤ a) (h2 : a+8 ≤ lo+cap) :
    blockSize s'.mem (a+δ) = blockSize s.mem a :=
  h.load64_eq h1 h2

theorem blockIsFree_eq (h : Twins lo cap δ s s' as) (h1 : lo ≤ a) (h2 : a+9 ≤ lo+cap) :
    blockIsFree s'.mem (a+δ) = blockIsFree s.mem a := by
  unfold blockIsFree isFreeByte
  rw [show a+δ+8 = a+8+δ from by omega, h.bytes_eq (by omega) (by omega)]

theorem self_eq (h : Twins lo cap δ s s' as) : s'.self = s.self+δ := by
  have := h.same.self
  omega

theorem begin_moved (h : Twins lo cap δ s s' as) : s'.segmentBegin = s.segmentBegin+δ := by
  have hb := h.begin_eq
  have hroom := h.shift.room
  have hpos := h.shift.pos
  have hget : getPointer s.self s.segmentBase = lo := hb
  unfold Allocator.segmentBegin at hb ⊢
  rw [h.self_eq, h.same.segmentBase]
  exact hb ▸ getPointer_moved hb (by omega) (by omega)

theorem first_in (h : Twins lo cap δ s s' as) : lo ≤ s.first ∧ s.first ≤ lo+s.segmentSize ∧ s.first%16 = 0 := by
  have h1 := h.geometry.self_below
  have h2 := h.geometry.self_ge
  have h3 := h.begin_eq
  have h4 := h.first_le
  exact ⟨by omega, by omega, h.geometry.first_aligned⟩

theorem first_moved (h : Twins lo cap δ s s' as) : s'.first = s.first+δ := by
  have hin := h.first_in
  have hroom := h.shift.room
  have hpos := h.shift.pos
  have hsize := h.size_le
  unfold Allocator.first at *
  rw [h.self_eq, h.same.firstBlock, show s.self+δ+16 = s.self+16+δ from by omega]
  exact getPointer_moved rfl (by omega) (by omega)

theorem end_eq (h : Twins lo cap δ s s' as) : s.segmentEnd = lo+s.segmentSize := by
  rw [h.geometry.segmentEnd_eq, h.begin_eq]

theorem end_moved (h : Twins lo cap δ s s' as) : s'.segmentEnd = s.segmentEnd+δ := by
  have hroom := h.shift.room
  have hsize := h.size_le
  have hb := h.begin_moved
  have hb' := h.begin_eq
  rw [h.end_eq]
  unfold Allocator.segmentEnd add64
  rw [hb, h.same.segmentSize]
  omega

theorem maxBlocks_eq (h : Twins lo cap δ s s' as) : s'.maxBlocks = s.maxBlocks := by
  unfold Allocator.maxBlocks
  rw [h.same.segmentSize]

theorem node_in (h : Twins lo cap δ s s' as) (ha : InArea s a) :
    a%16 = 0 ∧ s.first ≤ a ∧ lo ≤ a ∧ a+32 ≤ lo+s.segmentSize ∧ a ≠ 0 := by
  obtain ⟨h1, h2, h3⟩ := ha
  have hf := h.first_in
  have hb := h.begin_eq
  have hpos := h.shift.pos
  exact ⟨h1, h2, by omega, by omega, by omega⟩

theorem ne_zero (h : Twins lo cap δ s s' as) : ∀ a ∈ as, a ≠ 0 := fun a ha => (h.node_in (h.nodes a ha)).2.2.2.2

theorem nodup (h : Twins lo cap δ s s' as) : as.Nodup := h.chain.nodup

theorem length_le (h : Twins lo cap δ s s' as) : as.length ≤ walkFuel := by
  have hsub : as ⊆ List.range (lo+cap) := fun a ha => by
    have := h.node_in (h.nodes a ha)
    have := h.size_le
    exact List.mem_range.mpr (by omega)
  have hlen := (h.nodup.subperm hsub).length_le
  have hroom := h.shift.room
  rw [List.length_range] at hlen
  unfold walkFuel
  omega

theorem sizesMoved (h : Twins lo cap δ s s' as) {limit : ℕ} (hl : limit%16 = 0) (hle : limit ≤ lo+cap) :
    SizesMoved δ lo limit s.mem s'.mem :=
  fun a h1 h2 h3 => h.blockSize_eq h1 (by omega)

theorem end_aligned (h : Twins lo cap δ s s' as) : s.segmentEnd%16 = 0 ∧ s.segmentEnd ≤ lo+cap ∧ s.segmentEnd+δ < 2^64 := by
  have h1 := h.end_eq
  have h2 := h.geometry.size_aligned
  have h3 := h.shift.lo_aligned
  have h4 := h.size_le
  have h5 := h.shift.room
  refine ⟨?_, ?_, ?_⟩ <;> omega

/-- Where `head` and `next` lead is the same place of the segment. -/
theorem nextFree_moved (h : Twins lo cap δ s s' (us ++ a :: vs)) :
    nextFree s.mem a = vs.headD 0 ∧ nextFree s'.mem (a+δ) = moved δ (vs.headD 0) := by
  have hc := h.chain.drop_append.head_eq
  have hc' := h.chain'
  rw [List.map_append, List.map_cons] at hc'
  refine ⟨hc, hc'.drop_append.head_eq.trans (headD_moved fun b hb => h.ne_zero b (by simp [hb]))⟩

theorem physicalPrevious_moved (h : Twins lo cap δ s s' as) (ha : a%16 = 0) (hle : a ≤ lo+cap) :
    physicalPrevious s' (a+δ) = moved δ (physicalPrevious s a) := by
  have hf := h.first_in
  have hroom := h.shift.room
  unfold physicalPrevious
  rw [h.maxBlocks_eq, h.first_moved, ← @moved_zero δ]
  exact lastBlockBefore_moved (h.sizesMoved ha hle) (by omega) h.shift.pos hf.1 hf.2.2

theorem lastBlock_moved (h : Twins lo cap δ s s' as) : lastBlock s' = moved δ (lastBlock s) := by
  have hf := h.first_in
  have hend := h.end_aligned
  unfold lastBlock
  rw [h.maxBlocks_eq, h.first_moved, h.end_moved, ← @moved_zero δ]
  exact lastBlockBefore_moved (h.sizesMoved hend.1 hend.2.1) hend.2.2 h.shift.pos hf.1 hf.2.2

theorem isBlockInChain_moved (h : Twins lo cap δ s s' as) : isBlockInChain s' (a+δ) = isBlockInChain s a := by
  have hf := h.first_in
  have hend := h.end_aligned
  unfold isBlockInChain
  rw [h.maxBlocks_eq, h.first_moved, h.end_moved]
  exact isBlockInChainLoop_moved (h.sizesMoved hend.1 hend.2.1) hend.2.2 hf.1 hf.2.2

/-- The successor of a block that ends within the segment. -/
theorem physicalNext_moved (h : Twins lo cap δ s s' as) (h1 : lo ≤ a) (h2 : a+8 ≤ lo+cap)
    (h3 : a+blockSize s.mem a ≤ lo+cap) : physicalNext s' (a+δ) = moved δ (physicalNext s a) := by
  have hroom := h.shift.room
  have hpos := h.shift.pos
  unfold physicalNext
  rw [h.blockSize_eq h1 h2, h.end_moved]
  generalize blockSize s.mem a = size at *
  have hnext : add64 a size = a+size := by unfold add64; omega
  have hnext' : add64 (a+δ) size = a+size+δ := by unfold add64; omega
  dsimp only
  rw [hnext, hnext']
  by_cases hend : s.segmentEnd ≤ a+size
  · rw [if_pos hend, if_pos (by omega), moved_zero]
  · rw [if_neg hend, if_neg (by omega), moved_of_ne_zero (by omega)]

/-! Stores at one place of the segment, in both views. -/

/-- Bytes that are no link of the list. -/
theorem write (h : Twins lo cap δ s s' as) {k : ℕ} (v : ℕ) (hoff : ∀ a ∈ as, x+k ≤ a+16 ∨ a+24 ≤ x) :
    Twins lo cap δ { s with mem := s.mem.storeLE x k v } { s' with mem := s'.mem.storeLE (x+δ) k v } as := by
  refine ⟨h.shift, h.same.store x k v, h.geometry.congr rfl rfl rfl rfl, h.begin_eq, h.size_le, h.first_le, ?_, ?_, h.nodes⟩
  · exact h.chain.congr fun a ha => nextFree_congr fun y h3 h4 =>
      Mem.storeLE_of_outside _ (by have := hoff a ha; omega)
  · refine h.chain'.congr fun a ha => nextFree_congr fun y h3 h4 => Mem.storeLE_of_outside _ ?_
    obtain ⟨b, hb, rfl⟩ := List.mem_map.mp ha
    have := hoff b hb
    omega

theorem counters (h : Twins lo cap δ s s' as) (f : Counters → Counters) :
    Twins lo cap δ { s with counters := f s.counters } { s' with counters := f s'.counters } as :=
  ⟨h.shift, ⟨h.same.self, h.same.segmentBase, h.same.segmentSize, h.same.firstBlock, h.same.freeListHead,
    congrArg f h.same.counters, h.same.bytes⟩, h.geometry.congr rfl rfl rfl rfl, h.begin_eq, h.size_le, h.first_le,
    h.chain, h.chain', h.nodes⟩

variable {E : Allocator → Allocator → Prop} {W : ℕ → Prop}

/-- A link is the same word at both bases, and leads to the same place. -/
theorem link_word (h : Twins lo cap δ s s' as) (ha : InArea s a) (hp : p = 0 ∨ InArea s p) : ∃ w, w < 2^64 ∧
    getPointer (a+16) w = p ∧ getPointer (a+δ+16) w = moved δ p ∧
    setNextFree a p = storeMem (fun m => m.store64 (a+16) w) ∧
    setNextFree (a+δ) (moved δ p) = storeMem (fun m => m.store64 (a+δ+16) w) := by
  have hroom := h.shift.room
  have hsize := h.size_le
  have hin := h.node_in ha
  have hb := h.begin_eq
  obtain ⟨h1, h2, h3⟩ := representable_of_inArea h.geometry (a := a) (k := 16) (by omega) (by omega) (by omega) hp
  obtain ⟨w, hw, hlt, hget⟩ := setPointer_representable h1 h2 h3
  have hw' : setPointer (a+δ+16) (moved δ p) = some w := by
    rw [show a+δ+16 = a+16+δ from by omega, setPointer_moved, hw]
  refine ⟨w, hlt, hget, ?_, ?_, ?_⟩
  · rcases hp with rfl | hp
    · rw [setPointer_null] at hw
      rw [← Option.some.inj hw, getPointer_null, moved_zero]
    · have hpin := h.node_in hp
      rw [show a+δ+16 = a+16+δ from by omega, moved_of_ne_zero hpin.2.2.2.2]
      exact getPointer_moved hget hpin.2.2.2.2 (by omega)
  · unfold setNextFree storePointer
    rw [hw]
  · unfold setNextFree storePointer
    rw [hw']

theorem paired_setNextFree (h : Twins lo cap δ s s' as) (ha : InArea s a) (hoff : a ∉ as) (hp : p = 0 ∨ InArea s p) :
    Paired E (setNextFree a p) (setNextFree (a+δ) (moved δ p)) s s' fun _ _ c c' => Twins lo cap δ c c' as ∧
      ChangesOnly (InLinks [a]) s c ∧ nextFree c.mem a = p ∧ nextFree c'.mem (a+δ) = moved δ p ∧
      ∀ b, b%16 = 0 → b ≠ a → nextFree c.mem b = nextFree s.mem b ∧ nextFree c'.mem (b+δ) = nextFree s'.mem (b+δ) := by
  have hin := h.node_in ha
  have hsize := h.size_le
  have hal := h.shift.aligned
  obtain ⟨w, hlt, hget, hget', hrun, hrun'⟩ := h.link_word ha hp
  have hwrite := @write _ _ _ _ _ _ (a+16) h 8 w fun b hb => by
    have := h.node_in (h.nodes b hb)
    have : b ≠ a := fun heq => hoff (heq ▸ hb)
    omega
  rw [show a+16+δ = a+δ+16 from by omega] at hwrite
  rw [hrun, hrun']
  refine paired_store ⟨hwrite, .of_mem fun x hx => Mem.store64_of_outside _ ?_, ?_, ?_, fun b hb hne => ⟨?_, ?_⟩⟩
  · by_contra hcon
    exact hx ⟨a, List.mem_singleton_self a, by omega, by omega⟩
  · unfold nextFree
    rw [Mem.load64_store64 _ _ _ hlt, hget]
  · unfold nextFree
    rw [Mem.load64_store64 _ _ _ hlt, hget']
  · exact nextFree_store_ne hin.1 hb hne
  · exact nextFree_store_ne (by omega) (by omega) (by omega)

theorem paired_setFreeListHead (h : Twins lo cap δ s s' as) (hp : p = 0 ∨ InArea s p)
    (hnodes : ∀ a ∈ ws, InArea s a) (hc : LinkedFrom (nextFree s.mem) p ws)
    (hc' : LinkedFrom (nextFree s'.mem) (moved δ p) (ws.map (·+δ))) :
    Paired E (setFreeListHead p) (setFreeListHead (moved δ p)) s s' fun _ _ c c' => Twins lo cap δ c c' ws ∧
      ChangesOnly (fun _ => False) s c := by
  have hroom := h.shift.room
  have hg := h.geometry
  have h1 := hg.self_below
  have h2 := hg.self_aligned
  have h3 := h.first_le
  have h4 := h.begin_eq
  have h5 := h.size_le
  obtain ⟨h6, h7, h8⟩ := representable_of_inArea hg (a := s.self) (k := 24) hg.self_ge (by omega) (by omega) hp
  obtain ⟨w, hw, hlt, hget⟩ := setPointer_representable h6 h7 h8
  have hself : s'.self+24 = s.self+24+δ := by rw [h.self_eq]; omega
  have hw' : setPointer (s'.self+24) (moved δ p) = some w := by rw [hself, setPointer_moved, hw]
  have hget' : getPointer (s'.self+24) w = moved δ p := by
    rcases hp with rfl | hp
    · rw [setPointer_null] at hw
      rw [← Option.some.inj hw, getPointer_null, moved_zero]
    · have hpin := h.node_in hp
      rw [hself, moved_of_ne_zero hpin.2.2.2.2]
      exact getPointer_moved hget hpin.2.2.2.2 (by omega)
  unfold setFreeListHead
  refine paired_get_bind ?_
  rw [hw, hw']
  refine paired_store ⟨⟨h.shift, ⟨h.same.self, h.same.segmentBase, h.same.segmentSize, h.same.firstBlock, rfl,
    h.same.counters, h.same.bytes⟩, hg.congr rfl rfl rfl rfl, h.begin_eq, h.size_le, h.first_le, ?_, ?_, hnodes⟩,
    ⟨rfl, rfl, rfl, rfl, fun _ _ => rfl⟩⟩
  · change LinkedFrom (nextFree s.mem) (getPointer (s.self+24) w) ws
    rw [hget]
    exact hc
  · change LinkedFrom (nextFree s'.mem) (getPointer (s'.self+24) w) (ws.map (·+δ))
    rw [hget']
    exact hc'

/-- Relinking the last node of the front part to another chain. -/
theorem paired_relink (h : Twins lo cap δ s s' (us ++ a :: vs)) (hnd : (us ++ a :: ws).Nodup)
    (hnodes : ∀ b ∈ ws, InArea s b) (hc : LinkedFrom (nextFree s.mem) (ws.headD 0) ws)
    (hc' : LinkedFrom (nextFree s'.mem) (moved δ (ws.headD 0)) (ws.map (·+δ))) :
    Paired E (setNextFree a (ws.headD 0)) (setNextFree (a+δ) (moved δ (ws.headD 0))) s s' fun _ _ c c' =>
      Twins lo cap δ c c' (us ++ a :: ws) ∧ ChangesOnly (InLinks [a]) s c := by
  have ha := h.nodes a (by simp)
  have hin := h.node_in ha
  have hsize := h.size_le
  have hal := h.shift.aligned
  have hp : ws.headD 0 = 0 ∨ InArea s (ws.headD 0) := by
    cases ws with
    | nil => exact Or.inl rfl
    | cons w ws => exact Or.inr (hnodes w List.mem_cons_self)
  -- the nodes that remain are nodes of the list as it was
  have hall : ∀ b ∈ us ++ a :: ws, InArea s b := by
    intro b hb
    simp only [List.mem_append, List.mem_cons] at hb
    rcases hb with hb | rfl | hb
    · exact h.nodes b (by simp [hb])
    · exact ha
    · exact hnodes b hb
  -- the stored word is an offset, which is the same at both bases
  obtain ⟨w, hlt, hget, hget', hrun, hrun'⟩ := h.link_word ha hp
  have hsame := h.same.store (a+16) 8 w
  rw [show a+16+δ = a+δ+16 from by omega] at hsame
  rw [hrun, hrun']
  refine paired_store ⟨⟨h.shift, hsame, h.geometry.congr rfl rfl rfl rfl, h.begin_eq, h.size_le, h.first_le, ?_, ?_,
    hall⟩, .of_mem fun x hx => Mem.store64_of_outside _ ?_⟩
  · exact chain_relink h.chain (fun b hb => (hall b hb).1) hnd hlt hget hc
  · have hmap : (us ++ a :: ws).map (·+δ) = us.map (·+δ) ++ (a+δ) :: ws.map (·+δ) := by
      rw [List.map_append, List.map_cons]
    have hchain := h.chain'
    rw [List.map_append, List.map_cons] at hchain
    rw [hmap]
    refine chain_relink hchain ?_ ?_ hlt hget' hc'
    · rw [← hmap]
      intro b hb
      obtain ⟨d, hd, rfl⟩ := List.mem_map.mp hb
      have := (hall d hd).1
      omega
    · rw [← hmap]
      exact hnd.map (add_left_injective δ)
  · by_contra hcon
    exact hx ⟨a, List.mem_singleton_self a, by omega, by omega⟩

theorem head_inArea (hnodes : ∀ b ∈ ws, InArea s b) : ws.headD 0 = 0 ∨ InArea s (ws.headD 0) := by
  cases ws with
  | nil => exact Or.inl rfl
  | cons w ws => exact Or.inr (hnodes w List.mem_cons_self)

/-- Directing the end of `us` to a chain `ws`, by whichever of the two stores does it. -/
theorem paired_direct (h : Twins lo cap δ s s' (us ++ vs)) (hnd : (us ++ ws).Nodup) (hnodes : ∀ b ∈ ws, InArea s b)
    (hc : LinkedFrom (nextFree s.mem) (ws.headD 0) ws)
    (hc' : LinkedFrom (nextFree s'.mem) (moved δ (ws.headD 0)) (ws.map (·+δ))) :
    Paired E (if us.getLastD 0 ≠ 0 then setNextFree (us.getLastD 0) (ws.headD 0) else setFreeListHead (ws.headD 0))
      (if (us.map (·+δ)).getLastD 0 ≠ 0 then setNextFree ((us.map (·+δ)).getLastD 0) (moved δ (ws.headD 0))
        else setFreeListHead (moved δ (ws.headD 0))) s s' fun _ _ c c' =>
      Twins lo cap δ c c' (us ++ ws) ∧ ChangesOnly (InLinks us) s c := by
  rcases List.eq_nil_or_concat us with rfl | ⟨us, a, rfl⟩
  · rw [if_neg (by simp), if_neg (by simp)]
    refine (h.paired_setFreeListHead (head_inArea hnodes) hnodes hc hc').mono fun _ _ c c' hcc => ?_
    exact ⟨hcc.1, hcc.2.mono fun _ hx => hx.elim⟩
  · rw [List.concat_eq_append] at *
    rw [List.append_assoc, List.cons_append, List.nil_append] at h hnd
    have hne := h.ne_zero a (by simp)
    rw [List.map_append, List.map_singleton, List.getLastD_concat, List.getLastD_concat, if_pos hne, if_pos (by omega)]
    refine (h.paired_relink hnd hnodes hc hc').mono fun _ _ c c' hcc => ?_
    rw [List.append_assoc, List.cons_append, List.nil_append]
    refine ⟨hcc.1, hcc.2.mono ?_⟩
    rintro x ⟨b, hb, hx⟩
    exact ⟨b, by simp [List.mem_singleton.mp hb], hx⟩

theorem area_of_changes (h : ChangesOnly W s c) (ha : InArea s a) : InArea c a := by
  unfold InArea at *
  rw [h.first_eq, h.limit_eq]
  exact ha

theorem paired_removeFreeBlockAfter (h : Twins lo cap δ s s' (us ++ a :: vs)) :
    Paired E (removeFreeBlockAfter (us.getLastD 0) a) (removeFreeBlockAfter ((us.map (·+δ)).getLastD 0) (a+δ)) s s'
      fun _ _ c c' => Twins lo cap δ c c' (us ++ vs) ∧ ChangesOnly (InLinks (us ++ a :: vs)) s c := by
  obtain ⟨hnext, hnext'⟩ := h.nextFree_moved
  have hsub : (us ++ vs).Sublist (us ++ a :: vs) := (List.sublist_cons_self a vs).append_left us
  have hnd : (us ++ vs).Nodup := h.nodup.sublist hsub
  have hoff : a ∉ us ++ vs := (List.nodup_cons.mp (List.nodup_middle.mp h.nodup)).1
  have ha := h.nodes a (by simp)
  have hrest : LinkedFrom (nextFree s.mem) (vs.headD 0) vs := hnext ▸ h.chain.drop_append
  have hrest' : LinkedFrom (nextFree s'.mem) (moved δ (vs.headD 0)) (vs.map (·+δ)) := by
    have hchain := h.chain'
    rw [List.map_append, List.map_cons] at hchain
    exact hnext' ▸ hchain.drop_append
  have hwhole := (h.paired_direct (E := E) hnd (fun b hb => h.nodes b (by simp [hb])) hrest hrest').bind
    (f := fun _ => setNextFree a 0) (g := fun _ => setNextFree (a+δ) 0)
    (R := fun _ _ c c' => Twins lo cap δ c c' (us ++ vs) ∧ ChangesOnly (InLinks (us ++ a :: vs)) s c)
    fun _ _ c c' hcc => by
      refine (hcc.1.paired_setNextFree (area_of_changes hcc.2 ha) hoff (Or.inl rfl)).mono fun _ _ d d' hdd => ⟨hdd.1, ?_⟩
      refine (hcc.2.mono ?_).trans (hdd.2.1.mono ?_)
      · rintro x ⟨b, hb, hx⟩
        exact ⟨b, by simp [hb], hx⟩
      · rintro x ⟨b, hb, hx⟩
        exact ⟨b, by simp [List.mem_singleton.mp hb], hx⟩
  unfold removeFreeBlockAfter
  refine paired_get_bind ?_
  rw [hnext, hnext']
  split_ifs at hwhole ⊢ <;> exact hwhole

/-- The block leaves the list, if it is there. -/
theorem paired_removeFreeBlock (h : Twins lo cap δ s s' as) (a : ℕ) (ha : a ≠ 0) :
    Paired E (removeFreeBlock a) (removeFreeBlock (a+δ)) s s'
      fun _ _ c c' => Twins lo cap δ c c' (as.erase a) ∧ ChangesOnly (InLinks as) s c := by
  have hstop : ∀ b ∈ as, ((b+δ == a+δ) : Bool) = (b == a) := by
    intro b _
    rw [Bool.eq_iff_iff, beq_iff_eq, beq_iff_eq]
    omega
  obtain ⟨us, vs, rfl, hus, hvs, hscan, hscan'⟩ := @scanChain_moved _ _ _ _ (· == a) (· == a+δ) _ _ 0 0 walkFuel h.chain
    h.chain' (fun b hb _ _ => hstop b hb) h.length_le
  have hau : a ∉ us := fun hm => by simpa using hus a hm
  unfold removeFreeBlock
  refine paired_get_bind ?_
  rw [hscan, hscan']
  cases vs with
  | nil =>
    have herase : (us ++ []).erase a = us ++ [] := List.erase_of_not_mem (by simpa using hau)
    refine paired_pure ⟨?_, .refl s⟩
    rw [herase]
    exact h
  | cons v vs =>
    obtain rfl : v = a := by simpa using (hvs v rfl).1
    have hne := h.ne_zero v (by simp)
    have herase : (us ++ v :: vs).erase v = us ++ vs := by
      rw [List.erase_append_right _ hau, List.erase_cons_head]
    have hne' : v+δ ≠ 0 := by omega
    dsimp only
    rw [if_neg (show (v :: vs).headD 0 ≠ 0 from hne), if_neg (show ((v :: vs).map (·+δ)).headD 0 ≠ 0 from hne'), herase]
    exact h.paired_removeFreeBlockAfter

/-- The block joins the list, at the same place in both views. -/
theorem paired_insertFreeBlock (h : Twins lo cap δ s s' as) (ha : InArea s a) (hoff : a ∉ as) :
    Paired E (insertFreeBlock a) (insertFreeBlock (a+δ)) s s' fun _ _ c c' =>
      (∃ us vs, as = us ++ vs ∧ Twins lo cap δ c c' (us ++ a :: vs)) ∧ ChangesOnly (InLinks (a :: as)) s c := by
  have hin := h.node_in ha
  have hsize := h.size_le
  have hsizes : ∀ b, InArea s b → blockSize s'.mem (b+δ) = blockSize s.mem b := fun b hb => by
    have := h.node_in hb
    exact h.blockSize_eq (by omega) (by omega)
  obtain ⟨us, vs, rfl, -, -, hscan, hscan'⟩ := @scanChain_moved _ _ _ _
    (fun curr => !(decide (blockSize s.mem curr < blockSize s.mem a) ||
      (blockSize s.mem curr == blockSize s.mem a && decide (curr < a))))
    (fun curr => !(decide (blockSize s'.mem curr < blockSize s'.mem (a+δ)) ||
      (blockSize s'.mem curr == blockSize s'.mem (a+δ) && decide (curr < a+δ))))
    _ _ 0 0 walkFuel h.chain h.chain' (fun b hb _ _ => by
      rw [hsizes b (h.nodes b hb), hsizes a ha]
      simp only [Nat.add_lt_add_iff_right]) h.length_le
  have hne : ∀ b ∈ us ++ vs, b ≠ 0 := h.ne_zero
  have hnd : (us ++ a :: vs).Nodup := List.nodup_middle.mpr (List.nodup_cons.mpr ⟨hoff, h.nodup⟩)
  have hal := h.shift.aligned
  unfold insertFreeBlock
  refine paired_get_bind ?_
  dsimp only
  rw [hscan, hscan']
  dsimp only
  rw [headD_moved fun b hb => hne b (by simp [hb])]
  refine (h.paired_setNextFree ha hoff (head_inArea fun b hb => h.nodes b (by simp [hb]))).bind ?_
  rintro _ _ c c' ⟨hcc, hch, hnext, hnext', hkeep⟩
  have hoff' : ∀ b ∈ vs, b ≠ a := fun b hb heq => hoff (heq ▸ (by simp [hb]))
  -- behind `a` the list goes on as before
  have htail : LinkedFrom (nextFree c.mem) a (a :: vs) := by
    obtain ⟨mid, -, hmid⟩ := LinkedFrom.append_iff.mp hcc.chain
    refine ⟨rfl, hin.2.2.2.2, ?_⟩
    rw [hnext, ← hmid.head_eq]
    exact hmid
  have htail' : LinkedFrom (nextFree c'.mem) (moved δ a) ((a :: vs).map (·+δ)) := by
    have hchain := hcc.chain'
    rw [List.map_append] at hchain
    obtain ⟨mid, -, hmid⟩ := LinkedFrom.append_iff.mp hchain
    refine ⟨moved_of_ne_zero hin.2.2.2.2, by dsimp only; omega, ?_⟩
    rw [hnext', ← headD_moved fun b hb => hne b (by simp [hb]), ← hmid.head_eq]
    exact hmid
  have hwhole := hcc.paired_direct (E := E) hnd ?_ htail htail'
  · rw [List.headD_cons, moved_of_ne_zero hin.2.2.2.2] at hwhole
    refine hwhole.mono fun _ _ d d' hdd => ⟨⟨us, vs, rfl, hdd.1⟩, (hch.mono ?_).trans (hdd.2.mono ?_)⟩
    · rintro x ⟨b, hb, hx⟩
      exact ⟨b, by simp [List.mem_singleton.mp hb], hx⟩
    · rintro x ⟨b, hb, hx⟩
      exact ⟨b, by simp [hb], hx⟩
  · intro b hb
    refine area_of_changes hch ?_
    rcases List.mem_cons.mp hb with rfl | hb
    · exact ha
    · exact h.nodes b (by simp [hb])

end Twins

end ShmNext
