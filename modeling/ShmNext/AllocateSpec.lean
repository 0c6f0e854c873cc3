import ShmNext.BlockOps
import ShmNext.Layout

/-! `allocate` on a sane segment: the first block of the free list that takes the
layout is cut, and at every crash point the segment is as before, as after, or
recognisably damaged. -/
namespace ShmNext
open Prog

variable {s : Allocator} {b t : Block} {bs l us vs xs ys : List Block} {n A : ℕ} {layout : AllocationLayout}

/-- The blocks after `b` has been handed out up to `used`. -/
def handedOut (xs : List Block) (b : Block) (used : ℕ) (ys : List Block) : List Block :=
  xs ++ lowPart ⟨b.addr, b.size, false⟩ used :: (restPart b used ++ ys)

/-- Neither an interrupted nor a finished operation may show `check_sanity` more than
the states `P` names, nor touch other bytes than those of `W`. -/
structure Guarded (W : ℕ → Prop) (P : Allocator → Prop) (s c : Allocator) : Prop where
  changes : ChangesOnly W s c
  sane : checkSanity c = true → P c

theorem ChangesOnly.guarded_of_linked {W : ℕ → Prop} {P : Allocator → Prop} {c : Allocator} {e : ℕ}
    (hch : ChangesOnly W s c) (h : Linked c e bs l) (hb : b ∈ bs) (hf : b.free = true) (hl : b ∉ l) :
    Guarded W P s c :=
  ⟨hch, fun hs => by rw [h.not_sane hb hf hl] at hs; cases hs⟩

/-- An allocation as its `AllocationHeader` records it. -/
structure HeaderNames (m : Mem) (payload block size : ℕ) : Prop where
  block_eq : headerBlock m payload = block
  size_eq : headerRequestedSize m payload = size

theorem HeaderNames.congr {m m' : Mem} {p a k : ℕ} (h : HeaderNames m p a k)
    (hm : ∀ x, p-16 ≤ x → x < p → m' x = m x) (hp : 16 ≤ p) : HeaderNames m' p a k := by
  refine ⟨?_, ?_⟩
  · rw [← h.block_eq]
    unfold headerBlock
    rw [Mem.load64_congr fun x h1 h2 => hm x h1 (by omega)]
  · rw [← h.size_eq]
    exact Mem.load64_congr fun x h1 h2 => hm x (by omega) (by omega)

theorem handedOut_exact {used : ℕ} (hex : ∀ c ∈ xs ++ ys, c.free = true → c ∈ l) {c : Block}
    (hc : c ∈ handedOut xs b used ys) (hf : c.free = true) : c ∈ relist b used l := by
  rw [mem_relist]
  unfold handedOut at hc
  simp only [List.mem_append, List.mem_cons] at hc
  rcases hc with hc | rfl | hc | hc
  · exact Or.inr (hex c (by simp [hc]) hf)
  · simp at hf
  · exact Or.inl hc
  · exact Or.inr (hex c (by simp [hc]) hf)

/-- A linked segment in which `b` has been handed out up to `used` keeps the free list
ordered and the blocks coalesced. -/
theorem wellFormed_handedOut {used : ℕ} {c : Allocator}
    (hc : Linked c (c.segmentBegin+c.segmentSize) (handedOut xs b used ys) (relist b used l))
    (hex : ∀ d ∈ xs ++ ys, d.free = true → d ∈ l) (hs : l.Pairwise Block.SizeAddrLt) (hx : Coalesced xs)
    (hy : Coalesced ys) (hhead : ∀ y ∈ ys.head?, y.free = false) :
    WellFormed c (handedOut xs b used ys) (relist b used l) := by
  refine ⟨⟨hc, fun d hd hf => handedOut_exact hex hd hf⟩, relist_sorted hs hc.chain.nodup, ?_⟩
  unfold handedOut
  refine (Coalesced.allocated_middle rfl).mpr ⟨hx, ?_⟩
  unfold restPart
  split_ifs
  · exact hy
  · exact (@Coalesced.free_middle _ [] _ rfl).mpr ⟨List.isChain_nil, hy, by simp, hhead⟩

namespace Sane

/-- Taking `b` off the list keeps the other free blocks on it. -/
theorem exact_beside (h : Sane s (xs ++ b :: ys) (us ++ b :: vs)) {c : Block} (hc : c ∈ xs ++ ys)
    (hf : c.free = true) : c ∈ us ++ vs := by
  have hnd := h.linked.tiles.nodup
  rw [List.nodup_middle, List.nodup_cons] at hnd
  have hl := h.exact c (by simp at hc ⊢; tauto) hf
  have hne : c ≠ b := fun heq => hnd.1 (heq ▸ hc)
  simp only [List.mem_append, List.mem_cons, hne, false_or] at hl ⊢
  exact hl

/-- The stores into an allocated block that make its `AllocationHeader`. -/
theorem runs_writeHeader {d : Allocator} {W : ℕ → Prop} (h : Sane d bs l) (hb : b ∈ bs) (hf : b.free = false)
    {p : ℕ} (hp : b.addr+48 ≤ p) (hp' : p < b.stop) (h16 : p%16 = 0) (hn : n < 2^64)
    (hch : ChangesOnly W s d) (hW : ∀ x, b.addr ≤ x → x < b.stop → W x) {C : Allocator → Prop}
    {Q : ℕ → Allocator → Prop} (hC : ∀ c, ChangesOnly W s c → Sane c bs l → C c)
    (hQ : ∀ c, ChangesOnly W s c → Sane c bs l → HeaderNames c.mem p b.addr n → Q p c) :
    (do
      setNextFree b.addr 0
      storePointer (p-16) b.addr
      storeMem fun m => m.store64 (p-16+8) n
      pure p : Op ℕ).Runs d C Q := by
  have hbb := h.linked.mem_bounds hb
  have hlt := h.linked.stop_lt hb
  have hg := h.linked.geometry
  -- every store lands behind the first nine bytes of the block, where `check_sanity` reads nothing of an allocated one
  have hin : ∀ {c : Allocator} {m : Mem}, Sane c bs l → ChangesOnly W s c →
      (∀ x, x < b.addr+9 ∨ b.stop ≤ x → m x = c.mem x) →
      Sane { c with mem := m } bs l ∧ ChangesOnly W s { c with mem := m } := by
    intro c m hc hch hm
    refine ⟨hc.inside hb hf hm, hch.trans (.of_mem fun x hx => hm x ?_)⟩
    by_contra hcon
    exact hx (hW x (by omega) (by omega))
  refine Runs.bind (Q := fun _ c => Sane c bs l ∧ ChangesOnly W s c) ?_ ?_
  · refine runs_setNextFree hg (h.linked.inArea hb) (Or.inl rfl) fun m _ hm => ?_
    obtain ⟨h1, h2⟩ := hin h hch fun x hx => hm x (by omega)
    exact ⟨hC _ h2 h1, h1, h2⟩
  rintro _ c ⟨hc, hch⟩
  refine Runs.bind (Q := fun _ c => Sane c bs l ∧ ChangesOnly W s c ∧ headerBlock c.mem p = b.addr) ?_ ?_
  · have := hg.size_lt
    have := hg.self_below
    have := hg.self_ge
    -- the offset back to the block is less than the segment, so it can be stored
    have hrep : Representable (p-16) b.addr := by
      unfold Representable maxOffset
      omega
    refine runs_storePointer (by omega) (by omega) hrep fun w hw hget => ?_
    obtain ⟨h1, h2⟩ := hin (m := c.mem.store64 (p-16) w) hc hch fun x hx => Mem.store64_of_outside _ (by omega)
    refine ⟨hC _ h2 h1, h1, h2, ?_⟩
    unfold headerBlock
    simp only
    rw [Mem.load64_store64 _ _ _ hw, hget]
  rintro _ c ⟨hc, hch, hblock⟩
  obtain ⟨h1, h2⟩ := hin (m := c.mem.store64 (p-16+8) n) hc hch fun x hx => Mem.store64_of_outside _ (by omega)
  refine runs_store_bind (hC _ h2 h1) (runs_pure (hQ _ h2 h1 ⟨?_, ?_⟩))
  · rw [← hblock]
    unfold headerBlock
    simp only
    rw [Mem.load64_store64_of_disjoint _ (by omega)]
  · unfold headerRequestedSize
    simp only
    rw [show p-8 = p-16+8 from by omega, Mem.load64_store64 _ _ _ hn]

theorem runs_allocateFromBlock (h : Sane s (xs ++ b :: ys) (us ++ b :: vs))
    (hlay : LayoutSpec b.addr n A layout) (hle : layout.totalSize ≤ b.size) (hn : 0 < n) (hn' : n < 2^64)
    {C : Allocator → Prop} {Q : ℕ → Allocator → Prop}
    (hC : ∀ c, Guarded (InFree (xs ++ b :: ys))
      (fun c => Sane c (handedOut xs b layout.totalSize ys) (relist b layout.totalSize (us ++ vs))) s c → C c)
    (hQ : ∀ c, ChangesOnly (InFree (xs ++ b :: ys)) s c →
      Sane c (handedOut xs b layout.totalSize ys) (relist b layout.totalSize (us ++ vs)) →
      HeaderNames c.mem layout.payload b.addr n → Q layout.payload c) :
    (allocateFromBlock (lastAddr us) b.addr layout n).Runs s C Q := by
  have hbl := h.linked.listed b (by simp)
  have hbb := h.linked.mem_bounds hbl.1
  have hlt := h.linked.stop_lt hbl.1
  have hnd : b ∉ us ++ vs := by
    have hn := h.linked.nodup
    rw [List.nodup_middle] at hn
    exact (List.nodup_cons.mp hn).1
  have hfree : ∀ x, b.addr ≤ x → x < b.stop → InFree (xs ++ b :: ys) x := fun x h1 h2 =>
    ⟨b, hbl.1, hbl.2, h1, h2⟩
  obtain ⟨hl1, hl2, hl3, hl4, hl5, hl6⟩ := hlay
  have hsplit : ∀ x, InSplit (xs ++ b :: ys) b layout.totalSize x → InFree (xs ++ b :: ys) x := by
    rintro x (hx | hx | hx)
    · exact hx
    · exact hfree x hx.1 (by unfold Block.stop; omega)
    · exact hfree x (by omega) hx.2
  obtain ⟨hlow1, hlow2⟩ := lowPart_bounds (b := b) hle
  unfold allocateFromBlock
  -- off the list, but still marked free: no such state is sane
  refine Runs.bind (Q := fun _ c => Linked c (s.segmentBegin+s.segmentSize) (xs ++ b :: ys) (us ++ vs) ∧
      ChangesOnly (InFree (xs ++ b :: ys)) s c)
    (h.linked.runs_removeFreeBlockAfter fun c hc hch => ⟨hC c (hch.guarded_of_linked hc hbl.1 hbl.2 hnd), hc, hch⟩) ?_
  rintro _ c ⟨hc, hch⟩
  have hlow : lowPart b layout.totalSize ∉ relist b layout.totalSize (us ++ vs) := by
    rw [mem_relist, mem_restPart]
    rintro (⟨_, heq⟩ | hm)
    · have := congrArg Block.addr heq
      simp only [lowPart_addr] at this
      omega
    · have heq := hc.addr_inj (hc.listed _ hm).1 hbl.1 lowPart_addr
      exact hnd (heq ▸ hm)
  refine Runs.bind (Q := fun _ c => ChangesOnly (InFree (xs ++ b :: ys)) s c ∧
      Linked c (s.segmentBegin+s.segmentSize) (xs ++ lowPart b layout.totalSize :: (restPart b layout.totalSize ++ ys))
        (relist b layout.totalSize (us ++ vs))) ?_ ?_
  · refine hc.runs_splitAllocatedBlock hnd (by omega) hl5 hle ?_ ?_ ?_
    · exact fun d hd hchd => hC d ((hch.trans (hchd.mono hsplit)).guarded_of_linked hd hbl.1 hbl.2 hnd)
    · exact fun d hd hr hchd => hC d
        ((hch.trans (hchd.mono hsplit)).guarded_of_linked (b := ⟨b.addr+_, b.size-_, true⟩) hd (by simp) rfl hr)
    · intro d hd hchd
      have hchd' := hch.trans (hchd.mono hsplit)
      exact ⟨hC d (hchd'.guarded_of_linked (b := lowPart b _) hd (by simp) hbl.2 hlow), hchd', hd⟩
  rintro _ d ⟨hchd, hd⟩
  -- the store that clears the flag makes the block allocated and the segment sane again
  have hd' := @Linked.rewrite _ _ _ (lowPart ⟨b.addr, b.size, false⟩ layout.totalSize) _ _ _
    (d.mem.store8 (b.addr+8) false.toNat) hd hlow rfl rfl
    (fun x hx => Mem.store8_of_ne _ (by unfold Block.stop at *; simp only [lowPart_addr] at *; omega))
    ((hd.headers (lowPart b _) (by simp)).setIsFree false)
  have hchd' : ChangesOnly (InFree (xs ++ b :: ys)) s { d with mem := d.mem.store8 (b.addr+8) false.toNat } := by
    refine hchd.trans (.of_mem fun x hx => Mem.store8_of_ne _ ?_)
    rintro rfl
    exact hx (hfree _ (by omega) (by unfold Block.stop; omega))
  have hsane : Sane { d with mem := d.mem.store8 (b.addr+8) false.toNat } (handedOut xs b layout.totalSize ys)
      (relist b layout.totalSize (us ++ vs)) :=
    ⟨hchd'.limit_eq ▸ hd', fun c hc hf => handedOut_exact (fun c hc hf => h.exact_beside hc hf) hc hf⟩
  refine runs_store_bind (hC _ ⟨hchd', fun _ => hsane⟩) ?_
  have hsub : sub64 layout.payload allocationHeaderSize = layout.payload-16 := by
    unfold sub64 allocationHeaderSize Block.stop at *; omega
  simp only [hsub]
  refine hsane.runs_writeHeader (b := lowPart ⟨b.addr, b.size, false⟩ layout.totalSize) (by simp [handedOut]) rfl
    hl1 ?_ hl3 hn' hchd' ?_ (fun c hch hc => hC c ⟨hch, fun _ => hc⟩) hQ
  · exact lt_of_lt_of_le (by omega) hlow1
  · exact fun x hx hx' => hfree x hx (lt_of_lt_of_le hx' hlow2)

theorem fits_iff (h : Sane s bs l) (hb : b ∈ bs) :
    fits s.mem n A b.addr = true ↔ b.free = true ∧ (makeLayout b.addr n A).totalSize ≤ b.size := by
  unfold fits
  rw [(h.linked.headers b hb).1, (h.linked.headers b hb).isFree, Bool.and_eq_true, decide_eq_true_iff]

theorem scan_fits (h : Sane s bs l) : scanChain (nextFree s.mem) (fits s.mem n A) walkFuel 0 s.head =
    some (lastAddr (l.takeWhile fun b => !fits s.mem n A b.addr),
      headAddr (l.dropWhile fun b => !fits s.mem n A b.addr)) :=
  h.linked.chain.scan (fun _ _ => (Bool.not_not _).symm) 0 walkFuel h.linked.length_lt.2

variable {a : ℕ}

/-- The block taken is the first of the free list that covers the layout. -/
theorem runs_allocate (h : Sane s (xs ++ b :: ys) (us ++ b :: vs)) (hn : 0 < n) (hn' : n < 2^64)
    (ha : normalizeAlignment a = some A) (hus : ∀ c ∈ us, fits s.mem n A c.addr = false)
    (hb : fits s.mem n A b.addr = true) (hfit : LayoutFits b.addr n A)
    {C : Allocator → Prop} {Q : ℕ → Allocator → Prop}
    (hC : ∀ c, Guarded (InFree (xs ++ b :: ys))
      (fun c => Sane c (xs ++ b :: ys) (us ++ b :: vs) ∨
        Sane c (handedOut xs b (makeLayout b.addr n A).totalSize ys)
          (relist b (makeLayout b.addr n A).totalSize (us ++ vs))) s c → C c)
    (hQ : ∀ c, ChangesOnly (InFree (xs ++ b :: ys)) s c →
      Sane c (handedOut xs b (makeLayout b.addr n A).totalSize ys)
        (relist b (makeLayout b.addr n A).totalSize (us ++ vs)) →
      HeaderNames c.mem (makeLayout b.addr n A).payload b.addr n → Q (makeLayout b.addr n A).payload c) :
    (allocate n a).Runs s C Q := by
  obtain ⟨k, hk, hk', rfl, -⟩ := normalizeAlignment_some ha
  have hlay := makeLayout_spec hk hk' hfit hn
  have hle := ((h.fits_iff (by simp)).mp hb).2
  unfold allocate
  refine runs_count_bind fun d hd => ?_
  have hs := h.counters hd
  refine ⟨hC d ⟨hd.changes, fun _ => Or.inl hs⟩, ?_⟩
  rw [if_neg (by omega), ha]
  refine runs_get_bind ?_
  have hall : ∀ c ∈ us, (fun c : Block => !fits s.mem n (2^k) c.addr) c = true := by simpa using hus
  have hscan := hs.scan_fits (n := n) (A := 2^k)
  rw [hd.mem_eq, List.takeWhile_append_of_pos hall, List.dropWhile_append_of_pos hall,
    List.takeWhile_cons_of_neg (by simp [hb]), List.dropWhile_cons_of_neg (by simp [hb]), List.append_nil] at hscan
  have hne : headAddr (b :: vs) ≠ 0 := h.linked.chain.ne_zero b.addr (by simp)
  simp only [hd.mem_eq, hscan, if_neg hne]
  refine hs.runs_allocateFromBlock hlay hle hn hn' ?_ ?_
  · exact fun c hc => hC c ⟨hd.changes.trans hc.changes, fun hsane => Or.inr (hc.sane hsane)⟩
  · exact fun c hchc hc hh => hQ c (hd.changes.trans hchc) hc hh

theorem allocate_zero : (allocate 0 a).run s = (.ok 0,
    { s with counters := { s.counters with allocateCalls := add64 s.counters.allocateCalls 1 } }) := rfl

theorem throws_allocate (h : Sane s bs l) (hn : 0 < n) (ha : normalizeAlignment a = some A)
    (hl : ∀ c ∈ l, fits s.mem n A c.addr = false) :
    (allocate n a).Throws s (CountersOnly s) (fun e c => e = .interprocess .badAlloc ∧ CountersOnly s c) := by
  unfold allocate
  refine throws_count_bind fun d hd => ⟨hd, ?_⟩
  have hscan := (h.counters hd).scan_fits (n := n) (A := A)
  have hall : ∀ c ∈ l, (fun c : Block => !fits s.mem n A c.addr) c = true := by simpa using hl
  rw [hd.mem_eq, List.dropWhile_eq_nil_iff.mpr hall] at hscan
  rw [if_neg (by omega), ha]
  refine throws_get_bind ?_
  simp only [hd.mem_eq, hscan]
  rw [if_pos (show headAddr [] = 0 from rfl)]
  exact throws_count_bind fun c hc => ⟨hd.trans hc, throws_throw ⟨rfl, hd.trans hc⟩⟩

end Sane

/-- Cutting a free block and taking its low part keeps the invariant. -/
theorem WellFormed.hand_out (h : WellFormed s (xs ++ b :: ys) (us ++ b :: vs)) {used : ℕ} {c : Allocator}
    (hc : Sane c (handedOut xs b used ys) (relist b used (us ++ vs))) :
    WellFormed c (handedOut xs b used ys) (relist b used (us ++ vs)) := by
  obtain ⟨hx, hy, -, hhead⟩ := (Coalesced.free_middle (h.linked.listed b (by simp)).2).mp h.coalesced
  exact wellFormed_handedOut hc.linked (fun d hd hf => h.exact_beside hd hf)
    (h.sorted.sublist ((List.sublist_cons_self b vs).append_left us)) hx hy hhead

end ShmNext
