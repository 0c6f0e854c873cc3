import ShmNext.Relocation

/-! `allocate`, `deallocate` and `try_expand` on two views of one segment. -/
namespace ShmNext
open Prog

variable {lo cap δ : ℕ} {s s' c c' : Allocator} {as us vs : List ℕ} {a n p x used A al : ℕ} {e : ℕ} {b : Block}
  {bs l xs ys : List Block} {E : Allocator → Allocator → Prop}

theorem lastAddr_eq_getLastD (us : List Block) : lastAddr us = (us.map Block.addr).getLastD 0 := by
  rcases List.eq_nil_or_concat us with rfl | ⟨us, u, rfl⟩
  · rfl
  · rw [List.concat_eq_append, lastAddr_append, List.map_append, List.map_singleton, List.getLastD_concat]

/-- A layout moves with its block, at a distance that keeps the alignment. -/
theorem makeLayout_moved {block size k : ℕ} (hk : 4 ≤ k) (hk' : k < 64) (hdvd : 2^k ∣ δ) (hfit : LayoutFits block size (2^k))
    (hfit' : LayoutFits (block+δ) size (2^k)) : makeLayout (block+δ) size (2^k) =
      ⟨(makeLayout block size (2^k)).payload+δ, (makeLayout block size (2^k)).totalSize⟩ := by
  obtain ⟨q, rfl⟩ := hdvd
  have hpos := Nat.two_pow_pos k
  have hexact : exactPayload (block+2^k*q) (2^k) = exactPayload block (2^k)+2^k*q := by
    unfold exactPayload
    rw [show block+2^k*q+48+2^k-1 = block+48+2^k-1+2^k*q from by omega, Nat.add_mul_div_left _ _ hpos, Nat.add_mul,
      mul_comm q]
  have hp : (makeLayout block size (2^k)).payload = exactPayload block (2^k) := makeLayout_payload hk' hfit.1
  have hp' : (makeLayout (block+2^k*q) size (2^k)).payload = exactPayload (block+2^k*q) (2^k) :=
    makeLayout_payload hk' hfit'.1
  have ht := makeLayout_totalSize hk hk' hfit
  have ht' := makeLayout_totalSize hk hk' hfit'
  have hge := (@exactPayload_spec block k hk).1
  rw [hexact] at hp' ht'
  rw [show exactPayload block (2^k)+2^k*q+size-(block+2^k*q)+15 = exactPayload block (2^k)+size-block+15 from by omega,
    ← ht] at ht'
  rw [← hp] at hp'
  calc makeLayout (block+2^k*q) size (2^k)
      = ⟨(makeLayout (block+2^k*q) size (2^k)).payload, (makeLayout (block+2^k*q) size (2^k)).totalSize⟩ := rfl
    _ = _ := by rw [hp', ht']

/-- The nodes of the list keep out of every block but their own. -/
theorem Linked.node_apart (h : Linked s e bs l) (hb : b ∈ bs) (ha : a ∈ l.map Block.addr) (hne : a ≠ b.addr) :
    a+32 ≤ b.addr ∨ b.stop ≤ a := by
  obtain ⟨d, hd, rfl⟩ := List.mem_map.mp ha
  have hdb := h.mem_bounds (h.listed d hd).1
  rcases h.tiles.separated hb (h.listed d hd).1 with heq | hs | hs
  · exact absurd (congrArg Block.addr heq).symm hne
  · exact Or.inr hs
  · exact Or.inl (by unfold Block.stop at hs; omega)

theorem Linked.clear (h : Linked s e bs l) (hb : b ∈ bs) (hoff : b ∉ l) : Clear (l.map Block.addr) b.addr b.stop := by
  intro a ha
  refine h.node_apart hb ha ?_
  rintro rfl
  obtain ⟨d, hd, heq⟩ := List.mem_map.mp ha
  exact hoff (h.addr_inj (h.listed d hd).1 hb heq ▸ hd)

/-- The layouts that `allocate` forms while it looks for a block do not wrap. -/
def ScanFits (s : Allocator) (size requestedAlignment : ℕ) : Prop :=
  ∀ A ∈ normalizeAlignment requestedAlignment, ∀ a, Tested (nextFree s.mem) (fits s.mem size A) s.head a →
    LayoutFits a size A

/-- Two addresses a caller passes for one place of the segment, or for a place outside it; no null. -/
structure PassedAlike (δ p p' : ℕ) : Prop where
  lt : p < 2^64
  ne_zero : p ≠ 0
  ne_zero' : p' ≠ 0
  eq : p' = (p+δ)%2^64

namespace Twins

theorem chain_eq (h : Twins lo cap δ s s' as) (hl : Linked s e bs l) : as = l.map Block.addr :=
  h.chain.unique hl.chain

/-- A store into a part of the segment that is clear of the list. -/
theorem write_clear (h : Twins lo cap δ s s' as) {q q' k : ℕ} (v : ℕ) (hclear : Clear as q q') (h1 : q ≤ x) (h2 : x+k ≤ q') :
    Twins lo cap δ { s with mem := s.mem.storeLE x k v } { s' with mem := s'.mem.storeLE (x+δ) k v } as := by
  refine h.write v fun a ha => ?_
  rcases hclear a ha with hc | hc <;> omega

theorem paired_splitAllocatedBlock {size : ℕ} (h : Twins lo cap δ s s' as) (ha : InArea s a)
    (hsize : blockSize s.mem a = size) (hclear : Clear as a (a+size)) (hend : a+size ≤ lo+s.segmentSize) (h32 : 32 ≤ used)
    (h16 : used%16 = 0) (hle : used ≤ size) :
    Paired E (splitAllocatedBlock a used) (splitAllocatedBlock (a+δ) used) s s' fun _ _ c c' =>
      ∃ as', Twins lo cap δ c c' as' ∧ Clear as' a (a+used) ∧ ChangesOnly (fun _ => True) s c := by
  have hin := h.node_in ha
  have hcap := h.size_le
  have hroom := h.shift.room
  have hal := h.shift.aligned
  have hb := h.begin_eq
  unfold splitAllocatedBlock
  refine paired_get_bind ?_
  rw [h.blockSize_eq (by omega) (by omega), hsize]
  have hsub : sub64 size used = size-used := by unfold sub64; omega
  have hnew : add64 a used = a+used := by unfold add64; omega
  have hnew' : add64 (a+δ) used = a+used+δ := by unfold add64; omega
  rw [hsub]
  unfold blockHeaderSize alignment
  -- both sides compare the same two sizes
  by_cases hrest : size-used < 32+16
  · rw [if_pos hrest, if_pos hrest]
    refine paired_pure ⟨as, h, fun b hb => ?_, .refl s⟩
    rcases hclear b hb with hc | hc <;> omega
  rw [if_neg hrest, if_neg hrest]
  dsimp only
  rw [hnew, hnew']
  refine paired_store_bind ?_
  -- the new header lies in memory clear of the free list, so that it may be written alike
  have h0 := h.counters fun c => { c with splitCount := add64 c.splitCount 1 }
  have h1 := h0.write_clear (x := a+used) (k := 8) (size-used) hclear (by omega) (by omega)
  refine paired_store_bind (paired_store_bind ?_)
  have h2 := h1.write_clear (x := a+used+8) (k := 1) true.toNat hclear (by omega) (by omega)
  rw [show a+used+8+δ = a+used+δ+8 from by omega] at h2
  have hoff : a+used ∉ as := fun hm => by
    rcases hclear _ hm with hc | hc <;> omega
  have harea : InArea s (a+used) := ⟨by omega, by omega, by omega⟩
  refine (h2.paired_setNextFree (p := 0) harea hoff (Or.inl rfl)).bind ?_
  rintro _ _ c c' ⟨hcc, hch, -⟩
  have h3 := hcc.write_clear (x := a) (k := 8) used hclear le_rfl (by omega)
  refine paired_store_bind ?_
  have hcs : ChangesOnly (fun _ => True) s { c with mem := c.mem.store64 a used } :=
    ⟨hch.self, hch.segmentBase, hch.segmentSize, hch.firstBlock, fun _ hx => absurd trivial hx⟩
  refine (h3.paired_insertFreeBlock (area_of_changes hcs harea) hoff).mono ?_
  rintro _ _ d d' ⟨⟨us, vs, rfl, hdd⟩, hchd⟩
  refine ⟨_, hdd, fun b hb => ?_, hcs.trans (hchd.mono fun _ _ => trivial)⟩
  simp only [List.mem_append, List.mem_cons] at hb
  rcases hb with hb | rfl | hb
  · rcases hclear b (by simp [hb]) with hc | hc <;> omega
  · exact Or.inr le_rfl
  · rcases hclear b (by simp [hb]) with hc | hc <;> omega

/-- A pointer to a block, stored in a header of its own. -/
theorem paired_storePointer (h : Twins lo cap δ s s' as) {q q' : ℕ} (hclear : Clear as q q') (h1 : q ≤ x) (h2 : x+8 ≤ q')
    (hx : lo ≤ x) (hx' : x+8 ≤ lo+s.segmentSize) (h8 : x%8 = 0) (ha : InArea s a) :
    Paired E (storePointer x a) (storePointer (x+δ) (a+δ)) s s' fun _ _ c c' => Twins lo cap δ c c' as := by
  have hin := h.node_in ha
  have hb := h.begin_eq
  obtain ⟨hx64, hp64, hr⟩ := representable_of_inArea h.geometry (a := x) (k := 0) (by omega) (by omega) (by omega) (Or.inr ha)
  obtain ⟨w, hw, -, -⟩ := setPointer_representable hx64 hp64 hr
  have hw' : setPointer (x+δ) (a+δ) = some w := (setPointer_add x hin.2.2.2.2).trans hw
  unfold storePointer
  rw [show setPointer x a = some w from hw, hw']
  exact paired_store (h.write_clear (k := 8) w hclear h1 h2)

theorem paired_allocateFromBlock {ub vb : List Block} {layout : AllocationLayout}
    (h : Twins lo cap δ s s' ((ub ++ b :: vb).map Block.addr)) (hs : Sane s bs (ub ++ b :: vb))
    (hlay : LayoutSpec b.addr n A layout) (hn : 0 < n) (hle : layout.totalSize ≤ b.size) :
    Paired E (allocateFromBlock (lastAddr ub) b.addr layout n)
      (allocateFromBlock ((ub.map Block.addr).map (·+δ) |>.getLastD 0) (b.addr+δ) ⟨layout.payload+δ, layout.totalSize⟩ n) s s'
      fun p p' c c' => (p ≠ 0 ∧ p' = p+δ) ∧ ∃ as', Twins lo cap δ c c' as' := by
  have hl := hs.linked
  have hbl := hl.listed b (by simp)
  have hbb := hl.mem_bounds hbl.1
  have hlt := hl.stop_lt hbl.1
  have hcap := h.size_le
  have hroom := h.shift.room
  have hal := h.shift.aligned
  have hbegin := h.begin_eq
  have hfirst := h.first_in
  obtain ⟨hl1, hl2, hl3, hl4, hl5, hl6⟩ := hlay
  rw [List.map_append, List.map_cons] at h
  have hmem : b ∈ bs := hbl.1
  have hruns : (removeFreeBlockAfter (lastAddr ub) b.addr).Runs s (fun _ => True) fun _ c =>
      Linked c (s.segmentBegin+s.segmentSize) bs (ub ++ vb) :=
    hl.runs_removeFreeBlockAfter fun c hc _ => ⟨trivial, hc⟩
  rw [lastAddr_eq_getLastD] at hruns ⊢
  unfold allocateFromBlock
  refine (h.paired_removeFreeBlockAfter.and_runs hruns).bind ?_
  rintro _ _ c c' ⟨⟨hcc, hch⟩, hcl⟩
  have hnd : b ∉ ub ++ vb := (List.nodup_cons.mp (List.nodup_middle.mp hl.nodup)).1
  -- the block has left the list: what is cut from it is clear of the links
  have hclear : Clear (ub.map Block.addr ++ vb.map Block.addr) b.addr b.stop := by
    rw [← List.map_append]
    exact hcl.clear hmem hnd
  have hsize : blockSize c.mem b.addr = b.size := (hcl.headers b hmem).1
  have hend := h.geometry.end_room
  have harea : InArea c b.addr := hcl.inArea hmem
  have hcsize := hch.segmentSize
  have hsplit := hcc.paired_splitAllocatedBlock (E := E) harea hsize hclear
    (by rw [hcsize]; unfold Block.stop at *; omega) (by omega) hl5 hle
  refine hsplit.bind ?_
  rintro _ _ d d' ⟨as', hdd, hclear', hchd⟩
  have harea' : InArea d b.addr := area_of_changes hchd harea
  have hoff : b.addr ∉ as' := fun hm => by
    rcases hclear' _ hm with hc | hc <;> omega
  have h1 := hdd.write_clear (x := b.addr+8) (k := 1) false.toNat hclear' (by omega) (by omega)
  rw [show b.addr+8+δ = b.addr+δ+8 from by omega] at h1
  refine paired_store_bind ?_
  refine (h1.paired_setNextFree (p := 0) harea' hoff (Or.inl rfl)).bind ?_
  rintro _ _ f f' ⟨hff, hchf, -⟩
  have hsub : sub64 layout.payload allocationHeaderSize = layout.payload-16 := by
    unfold sub64 allocationHeaderSize Block.stop at *; omega
  have hsub' : sub64 (layout.payload+δ) allocationHeaderSize = layout.payload-16+δ := by
    unfold sub64 allocationHeaderSize Block.stop at *; omega
  dsimp only
  rw [hsub, hsub']
  have hfsize : f.segmentSize = s.segmentSize := hchf.segmentSize.trans (hchd.segmentSize.trans hcsize)
  refine (hff.paired_storePointer (x := layout.payload-16) hclear' (by omega) (by omega) (by omega)
    (by rw [hfsize]; unfold Block.stop at *; omega) (by omega) (area_of_changes hchf harea')).bind ?_
  rintro _ _ g g' hgg
  have h2 := hgg.write_clear (x := layout.payload-16+8) (k := 8) n hclear' (by omega) (by omega)
  rw [show layout.payload-16+8+δ = layout.payload-16+δ+8 from by omega] at h2
  exact paired_store_bind (paired_pure ⟨⟨by omega, rfl⟩, as', h2⟩)

theorem paired_allocate (h : Twins lo cap δ s s' as) (hs : Sane s bs l)
    (hdvd : ∀ A ∈ normalizeAlignment al, A ∣ δ) (hfit : ScanFits s n al) (hfit' : ScanFits s' n al)
    (hE : ∀ {c c' as'}, Twins lo cap δ c c' as' → E c c') :
    Paired E (allocate n al) (allocate n al) s s' fun p p' c c' => p' = moved δ p ∧ ∃ as', Twins lo cap δ c c' as' := by
  obtain rfl := h.chain_eq hs.linked
  unfold allocate
  refine paired_store_bind ?_
  have h0 := h.counters fun c => { c with allocateCalls := add64 c.allocateCalls 1 }
  by_cases hn : n = 0
  · rw [if_pos hn]
    exact paired_pure ⟨rfl, _, h0⟩
  rw [if_neg hn]
  cases hA : normalizeAlignment al with
  | none => exact paired_hang (hE h0)
  | some A =>
    obtain ⟨k, hk, hk', rfl, -⟩ := normalizeAlignment_some hA
    have hcap := h.size_le
    -- a block is tested alike where both layouts are exact
    have hstop : ∀ a ∈ l.map Block.addr, Tested (nextFree s.mem) (fits s.mem n (2^k)) s.head a →
        Tested (nextFree s'.mem) (fits s'.mem n (2^k)) s'.head (a+δ) →
        fits s'.mem n (2^k) (a+δ) = fits s.mem n (2^k) a := by
      intro a ha ht ht'
      have hin := h.node_in (h.nodes a ha)
      unfold fits
      rw [makeLayout_moved hk hk' (hdvd _ hA) (hfit _ hA a ht) (hfit' _ hA _ ht'),
        h.blockSize_eq (by omega) (by omega), h.blockIsFree_eq (by omega) (by omega)]
    obtain ⟨us, vs, hsplit, hus, hvs, hscan, hscan'⟩ := @scanChain_moved _ _ _ _ (fits s.mem n (2^k)) (fits s'.mem n (2^k))
      _ _ 0 0 walkFuel h.chain h.chain' hstop h.length_le
    refine paired_get_bind ?_
    unfold Allocator.head at hscan hscan'
    dsimp only [Allocator.head]
    rw [hscan, hscan']
    cases vs with
    | nil =>
      dsimp only
      rw [if_pos (show ([] : List ℕ).headD 0 = 0 from rfl), if_pos (show (([] : List ℕ).map (·+δ)).headD 0 = 0 from rfl)]
      have h1 := h0.counters fun c => { c with failedAllocations := add64 c.failedAllocations 1 }
      exact paired_store_bind (paired_throw (hE h1))
    | cons v vs =>
      obtain ⟨hv, ht, ht'⟩ := hvs v rfl
      obtain ⟨ub, vb, rfl, rfl, hvb⟩ := List.map_eq_append_iff.mp hsplit
      obtain ⟨b, vb, rfl, rfl, rfl⟩ := List.map_eq_cons_iff.mp hvb
      have hbl := (hs.linked.listed b (by simp)).1
      have hne := h.ne_zero b.addr (by simp)
      have hlay := makeLayout_spec hk hk' (hfit _ hA _ ht) (Nat.pos_of_ne_zero hn)
      have hmove := makeLayout_moved hk hk' (hdvd _ hA) (hfit _ hA _ ht) (hfit' _ hA _ ht')
      have hpaired := h0.paired_allocateFromBlock (E := E) (hs.counters ⟨_, rfl⟩) hlay (Nat.pos_of_ne_zero hn)
        ((hs.fits_iff hbl).mp hv).2
      rw [lastAddr_eq_getLastD, ← hmove] at hpaired
      have hne' : b.addr+δ ≠ 0 := by omega
      dsimp only
      rw [if_neg (show (b.addr :: vb.map Block.addr).headD 0 ≠ 0 from hne),
        if_neg (show ((b.addr :: vb.map Block.addr).map (·+δ)).headD 0 ≠ 0 from hne')]
      refine hpaired.mono fun p p' c c' hcc => ⟨?_, hcc.2⟩
      rw [hcc.1.2, moved_of_ne_zero hcc.1.1]

/-- The merge with the block behind, while `b` is free and off the list. -/
theorem paired_mergeNext (h : Twins lo cap δ s s' as) (hf : Freeing s xs b ys l) :
    Paired E (mergeNext b.addr) (mergeNext (b.addr+δ)) s s' fun _ _ c c' =>
      ∃ b' ys' l' as', b'.addr = b.addr ∧ Twins lo cap δ c c' as' ∧ Freeing c xs b' ys' l' := by
  obtain rfl := h.chain_eq hf.linked
  have hl := hf.linked
  have hbm : b ∈ xs ++ b :: ys := by simp
  have hbb := hl.mem_bounds hbm
  have hin := h.node_in (hl.inArea hbm)
  have hcap := h.size_le
  have hroom := h.shift.room
  have hbegin := h.begin_eq
  have hsize := (hl.headers b hbm).1
  -- what the merge does to the chain is known of one side, and carried along
  have hruns : (mergeNext b.addr).Runs s (fun _ => True) fun _ c => ∃ b' ys' l', b'.addr = b.addr ∧ Freeing c xs b' ys' l' :=
    hf.runs_mergeNext (fun _ _ _ => trivial) fun c b' ys' l' _ hc haddr _ _ => ⟨b', ys', l', haddr, hc⟩
  have hpaired : Paired E (mergeNext b.addr) (mergeNext (b.addr+δ)) s s' fun _ _ c c' => ∃ as', Twins lo cap δ c c' as' := by
    have hnext := h.physicalNext_moved (a := b.addr) (by omega) (by omega) (by rw [hsize]; unfold Block.stop at *; omega)
    unfold mergeNext
    refine paired_get_bind ?_
    dsimp only
    rw [hnext, hl.physicalNext_eq]
    cases ys with
    | nil =>
      rw [headAddr_nil, moved_zero, if_neg (by simp), if_neg (by simp)]
      exact paired_pure ⟨_, h⟩
    | cons n ys =>
      have hnm : n ∈ xs ++ b :: n :: ys := by simp
      have hnin := h.node_in (hl.inArea hnm)
      rw [headAddr_cons, moved_of_ne_zero hnin.2.2.2.2, h.blockIsFree_eq (by omega) (by omega), (hl.headers n hnm).isFree]
      by_cases hnf : n.free = true
      · rw [if_pos ⟨hnin.2.2.2.2, hnf⟩, if_pos ⟨by omega, hnf⟩]
        refine (h.paired_removeFreeBlock n.addr hnin.2.2.2.2).bind ?_
        rintro _ _ c c' ⟨hcc, -⟩
        refine paired_get_bind ?_
        rw [hcc.blockSize_eq (by omega) (by omega), hcc.blockSize_eq (by omega) (by omega)]
        have hclear : Clear ((l.map Block.addr).erase n.addr) b.addr b.stop :=
          fun a ha => hl.clear hbm hf.off a (List.mem_of_mem_erase ha)
        have h1 := hcc.write_clear (x := b.addr) (k := 8) (add64 (blockSize c.mem b.addr) (blockSize c.mem n.addr)) hclear
          le_rfl (by unfold Block.stop; omega)
        refine paired_store_bind (paired_store ⟨_, h1.counters fun c => { c with mergeCount := add64 c.mergeCount 1 }⟩)
      · rw [if_neg (fun hcon => hnf hcon.2), if_neg (fun hcon => hnf hcon.2)]
        exact paired_pure ⟨_, h⟩
  refine (hpaired.and_runs hruns).mono ?_
  rintro _ _ c c' ⟨⟨as', hcc⟩, b', ys', l', haddr, hc⟩
  exact ⟨b', ys', l', as', haddr, hcc, hc⟩

/-- The merge with the block in front; both sides answer the same block. -/
theorem paired_mergePrevious (h : Twins lo cap δ s s' as) (hf : Freeing s xs b ys l) :
    Paired E (mergePrevious b.addr) (mergePrevious (b.addr+δ)) s s' fun p p' c c' =>
      ∃ xs' b' l' as', p = b'.addr ∧ p' = b'.addr+δ ∧ Twins lo cap δ c c' as' ∧ Freeing c xs' b' ys l' := by
  obtain rfl := h.chain_eq hf.linked
  have hl := hf.linked
  have hbm : b ∈ xs ++ b :: ys := by simp
  have hbb := hl.mem_bounds hbm
  have hin := h.node_in (hl.inArea hbm)
  have hcap := h.size_le
  have hruns : (mergePrevious b.addr).Runs s (fun _ => True) fun p c => ∃ xs' b' l', p = b'.addr ∧ Freeing c xs' b' ys l' :=
    hf.runs_mergePrevious (fun _ _ _ => trivial) fun c xs' b' l' _ hc _ _ => ⟨xs', b', l', rfl, hc⟩
  have hpaired : Paired E (mergePrevious b.addr) (mergePrevious (b.addr+δ)) s s' fun p p' c c' =>
      p' = p+δ ∧ ∃ as', Twins lo cap δ c c' as' := by
    obtain ⟨hx, hy⟩ := hl.tiles.middle
    have hprev := hl.physicalPrevious_eq (p := b.addr) hx ⟨rfl, hbb.2.2.1, hbb.2.2.2.1, hy⟩
    have hprev' := h.physicalPrevious_moved (a := b.addr) (by omega) (by omega)
    unfold mergePrevious
    refine paired_get_bind ?_
    dsimp only
    rw [hprev', hprev]
    rcases List.eq_nil_or_concat xs with rfl | ⟨us, u, rfl⟩
    · rw [lastAddr_nil, moved_zero, if_neg (by simp), if_neg (by simp)]
      exact paired_pure ⟨rfl, _, h⟩
    rw [List.concat_eq_append] at *
    have hum : u ∈ us ++ [u] ++ b :: ys := by simp
    have huin := h.node_in (hl.inArea hum)
    have hub := hl.mem_bounds hum
    rw [lastAddr_append, moved_of_ne_zero huin.2.2.2.2, h.blockIsFree_eq (by omega) (by omega), (hl.headers u hum).isFree]
    by_cases huf : u.free = true
    · rw [if_pos ⟨huin.2.2.2.2, huf⟩, if_pos ⟨by omega, huf⟩]
      refine (h.paired_removeFreeBlock u.addr huin.2.2.2.2).bind ?_
      rintro _ _ c c' ⟨hcc, -⟩
      refine paired_get_bind ?_
      rw [hcc.blockSize_eq (by omega) (by omega), hcc.blockSize_eq (by omega) (by omega)]
      have hclear : Clear (((l.map Block.addr)).erase u.addr) u.addr u.stop := fun a ha => by
        obtain ⟨hne, ha⟩ := h.nodup.mem_erase_iff.mp ha
        exact hl.node_apart hum ha hne
      have h1 := hcc.write_clear (x := u.addr) (k := 8) (add64 (blockSize c.mem u.addr) (blockSize c.mem b.addr)) hclear
        le_rfl (by unfold Block.stop; omega)
      exact paired_store_bind (paired_store_bind (paired_pure
        ⟨rfl, _, h1.counters fun c => { c with mergeCount := add64 c.mergeCount 1 }⟩))
    · rw [if_neg (fun hcon => huf hcon.2), if_neg (fun hcon => huf hcon.2)]
      exact paired_pure ⟨rfl, _, h⟩
  refine (hpaired.and_runs hruns).mono ?_
  rintro p p' c c' ⟨⟨rfl, as', hcc⟩, xs', b', l', rfl, hc⟩
  exact ⟨xs', b', l', as', rfl, rfl, hcc, hc⟩

theorem paired_deallocateBlock (h : Twins lo cap δ s s' as) (hw : WellFormed s (xs ++ b :: ys) l) (hb : b.free = false) :
    Paired E (deallocateBlock b.addr) (deallocateBlock (b.addr+δ)) s s' fun _ _ c c' => ∃ as', Twins lo cap δ c c' as' := by
  obtain rfl := h.chain_eq hw.linked
  have hl := hw.linked
  have hbm : b ∈ xs ++ b :: ys := by simp
  have hbb := hl.mem_bounds hbm
  have hin := h.node_in (hl.inArea hbm)
  have hoff : b ∉ l := fun hm => by simp [(hl.listed b hm).2] at hb
  have hclear := hl.clear hbm hoff
  have hnode : b.addr ∉ l.map Block.addr := fun hm => by
    rcases hclear _ hm with hc | hc
    · omega
    · unfold Block.stop at hc
      omega
  have h1 := h.write_clear (x := b.addr+8) (k := 1) true.toNat hclear (by omega) (by unfold Block.stop; omega)
  rw [show b.addr+8+δ = b.addr+δ+8 from by omega] at h1
  -- with the first two stores made, `b` is the block being freed
  have hmark := hw.freeing_mark hb
  have hruns : (setNextFree b.addr 0).Runs { s with mem := s.mem.store8 (b.addr+8) true.toNat } (fun _ => True)
      fun _ c => Freeing c xs ⟨b.addr, b.size, true⟩ ys l :=
    runs_setNextFree hmark.linked.geometry (hmark.linked.inArea (b := ⟨b.addr, b.size, true⟩) (by simp)) (Or.inl rfl)
      fun m _ hm => ⟨trivial, hmark.link hm⟩
  unfold deallocateBlock
  refine paired_store_bind ?_
  refine ((h1.paired_setNextFree (p := 0) (hl.inArea hbm) hnode (Or.inl rfl)).and_runs hruns).bind ?_
  rintro _ _ c c' ⟨⟨hcc, -⟩, hfree⟩
  refine (hcc.paired_mergeNext hfree).bind ?_
  rintro _ _ d d' ⟨b₁, ys₁, l₁, as₁, haddr, hdd, hfree₁⟩
  dsimp only at haddr
  rw [← haddr]
  refine (hdd.paired_mergePrevious hfree₁).bind ?_
  rintro _ _ f f' ⟨xs₂, b₂, l₂, as₂, rfl, rfl, hff, hfree₂⟩
  obtain rfl := hff.chain_eq hfree₂.linked
  have hm₂ : b₂ ∈ xs₂ ++ b₂ :: ys₁ := by simp
  have hb₂ := hfree₂.linked.mem_bounds hm₂
  have hclear₂ := hfree₂.linked.clear hm₂ hfree₂.off
  have hnode₂ : b₂.addr ∉ l₂.map Block.addr := fun hm => by
    rcases hclear₂ _ hm with hc | hc
    · omega
    · unfold Block.stop at hc
      omega
  have h2 := hff.write_clear (x := b₂.addr+8) (k := 1) true.toNat hclear₂ (by omega) (by unfold Block.stop; omega)
  rw [show b₂.addr+8+δ = b₂.addr+δ+8 from by omega] at h2
  refine paired_store_bind ?_
  refine (h2.paired_setNextFree (p := 0) (hfree₂.linked.inArea hm₂) hnode₂ (Or.inl rfl)).bind ?_
  rintro _ _ g g' ⟨hgg, hchg, -⟩
  refine (hgg.paired_insertFreeBlock (area_of_changes hchg (hfree₂.linked.inArea hm₂)) hnode₂).mono ?_
  rintro _ _ k k' ⟨⟨us, vs, -, hkk⟩, -⟩
  exact ⟨_, hkk⟩

/-- A pointer is inside the segment on both sides or on neither. -/
theorem hasAllocationHeader_eq (h : Twins lo cap δ s s' as) {p' : ℕ} (hp : PassedAlike δ p p') :
    hasAllocationHeader s' p' = hasAllocationHeader s p ∧
      (hasAllocationHeader s p = true → p' = p+δ ∧ lo+16 ≤ p ∧ p < lo+s.segmentSize) := by
  obtain ⟨hlt, h0, h0', heq⟩ := hp
  have h1 := h.begin_eq
  have h2 := h.begin_moved
  have h3 := h.end_eq
  have h4 := h.end_moved
  have h5 := h.shift.pos
  have h6 := h.shift.lo_aligned
  have h7 := h.shift.room
  have h8 := h.size_le
  have hiff : ∀ (t : Allocator) (q lo' : ℕ), t.segmentBegin = lo' → t.segmentEnd = lo'+s.segmentSize → 16 ≤ lo' →
      lo'+s.segmentSize < 2^64 →
      (hasAllocationHeader t q = true ↔ lo'+16 ≤ q ∧ q < lo'+s.segmentSize) := by
    intro t q lo' hb he hlo hroom
    unfold hasAllocationHeader owns isRangeInSegment isAddressInSegment sub64 allocationHeaderSize
    rw [hb, he]
    simp only [Bool.and_eq_true, Bool.not_eq_true', decide_eq_true_iff, decide_eq_false_iff_not, bne_iff_ne]
    omega
  have hl := hiff s p lo h1 h3 (by omega) (by omega)
  have hr := hiff s' p' (lo+δ) (by omega) (by omega) (by omega) (by omega)
  refine ⟨?_, fun hhas => ?_⟩
  · rw [Bool.eq_iff_iff, hl, hr]
    omega
  · have := hl.mp hhas
    omega

/-- The header below a pointer is trusted on both sides or on neither, and names the same block. -/
theorem isValidPayload_eq (h : Twins lo cap δ s s' as) (hs : Sane s bs l) (hp : lo+16 ≤ p) (hp' : p < lo+s.segmentSize)
    (hhas : hasAllocationHeader s p = true) (hhas' : hasAllocationHeader s' (p+δ) = true) :
    isValidPayload s' (p+δ) (headerBlock s'.mem (p+δ)) = isValidPayload s p (headerBlock s.mem p) ∧
      (isValidPayload s p (headerBlock s.mem p) = true → headerBlock s'.mem (p+δ) = headerBlock s.mem p+δ) := by
  have h1 := h.begin_eq
  have h2 := h.begin_moved
  have h3 := h.end_eq
  have h4 := h.end_moved
  have h5 := h.shift.pos
  have h7 := h.shift.room
  have h8 := h.size_le
  have h9 := h.shift.aligned
  have hword : s'.mem.load64 (p+δ-16) = s.mem.load64 (p-16) := by
    rw [show p+δ-16 = p-16+δ from by omega]
    exact h.load64_eq (by omega) (by omega)
  have hrequest : headerRequestedSize s'.mem (p+δ) = headerRequestedSize s.mem p := by
    unfold headerRequestedSize
    rw [show p+δ-8 = p-8+δ from by omega]
    exact h.load64_eq (by omega) (by omega)
  have hq : headerBlock s.mem p = getPointer (p-16) (s.mem.load64 (p-16)) := rfl
  have hq' : headerBlock s'.mem (p+δ) = getPointer (p-16+δ) (s.mem.load64 (p-16)) := by
    unfold headerBlock
    rw [hword, show p+δ-16 = p-16+δ from by omega]
  generalize s.mem.load64 (p-16) = w at hq hq'
  generalize headerBlock s.mem p = q at *
  generalize headerBlock s'.mem (p+δ) = q' at *
  by_cases hin : lo ≤ q ∧ q < lo+s.segmentSize
  · obtain rfl : q' = q+δ := hq'.trans (getPointer_moved hq.symm (by omega) (by omega))
    refine ⟨?_, fun _ => rfl⟩
    unfold isValidPayload
    rw [hhas, hhas', h.isBlockInChain_moved, hrequest]
    cases hc : isBlockInChain s q with
    | false => simp
    | true =>
      obtain ⟨b, hb, rfl⟩ := hs.isBlockInChain_iff.mp hc
      have hbb := hs.linked.mem_bounds hb
      have hbin := h.node_in (hs.linked.inArea hb)
      have hroom := h.geometry.end_room
      rw [h.blockSize_eq (by omega) (by omega), (hs.linked.headers b hb).1]
      have hbegin : add64 (add64 b.addr blockHeaderSize) allocationHeaderSize = b.addr+48 := by
        unfold add64 blockHeaderSize allocationHeaderSize Block.stop at *; omega
      have hbegin' : add64 (add64 (b.addr+δ) blockHeaderSize) allocationHeaderSize = b.addr+δ+48 := by
        unfold add64 blockHeaderSize allocationHeaderSize Block.stop at *; omega
      have hstop : add64 b.addr b.size = b.stop := by unfold add64 Block.stop at *; omega
      have hstop' : add64 (b.addr+δ) b.size = b.stop+δ := by unfold add64 Block.stop at *; omega
      have hrest : sub64 (b.stop+δ) (p+δ) = sub64 b.stop p := by unfold sub64; omega
      have hseg : isAddressInSegment s b.addr = true := by
        unfold isAddressInSegment
        rw [h1, h3, decide_eq_true hin.1, decide_eq_true hin.2, Bool.and_self]
      have hseg' : isAddressInSegment s' (b.addr+δ) = true := by
        unfold isAddressInSegment
        rw [h2, h4, decide_eq_true (by omega), decide_eq_true (by omega), Bool.and_self]
      have hal : isAlignedAddress b.addr = true := by simp [isAlignedAddress, alignment, hbb.2.2.2.2]
      have hal' : isAlignedAddress (b.addr+δ) = true := by
        have : (b.addr+δ)%16 = 0 := by omega
        simp [isAlignedAddress, alignment, this]
      have hne : (b.addr == 0) = false := beq_eq_false_iff_ne.mpr (by omega)
      have hne' : (b.addr+δ == 0) = false := beq_eq_false_iff_ne.mpr (by omega)
      have hlow : decide (b.addr+δ+48 ≤ p+δ) = decide (b.addr+48 ≤ p) := by
        rw [Bool.eq_iff_iff, decide_eq_true_iff, decide_eq_true_iff]
        omega
      simp only [hbegin, hbegin', hstop, hstop', hrest, hseg, hseg', hal, hal', hne, hne', hlow, Bool.not_true, Bool.or_self,
        Bool.false_eq_true, if_false, Nat.add_lt_add_iff_right]
  · -- the word leads out of the segment, at either base
    have hseg : isAddressInSegment s q = false := by
      unfold isAddressInSegment
      rw [h1, h3, Bool.and_eq_false_iff, decide_eq_false_iff_not, decide_eq_false_iff_not]
      omega
    have hseg' : isAddressInSegment s' q' = false := by
      unfold isAddressInSegment
      rw [h2, h4, Bool.and_eq_false_iff, decide_eq_false_iff_not, decide_eq_false_iff_not]
      by_contra hcon
      have hback : q = q'-δ := by
        unfold getPointer at hq hq'
        split_ifs at hq hq' <;> omega
      omega
    unfold isValidPayload
    simp [hseg, hseg']

theorem paired_count_bind (h : Twins lo cap δ s s' as) {α α' : Type} {f : Counters → Counters} {k : Unit → Op α}
    {k' : Unit → Op α'} {Q : α → α' → Allocator → Allocator → Prop}
    (hk : ∀ t t', Twins lo cap δ t t' as → CountersOnly s t → CountersOnly s' t' → Paired E (k ()) (k' ()) t t' Q) :
    Paired E (count f >>= k) (count f >>= k') s s' Q :=
  paired_store_bind (hk _ _ (h.counters f) ⟨_, rfl⟩ ⟨_, rfl⟩)

theorem paired_deallocate (h : Twins lo cap δ s s' as) (hw : WellFormed s bs l) {p' : ℕ}
    (hp : p = 0 ∧ p' = 0 ∨ PassedAlike δ p p') (hE : ∀ {c c' as'}, Twins lo cap δ c c' as' → E c c') :
    Paired E (deallocate p) (deallocate p') s s' fun _ _ c c' => ∃ as', Twins lo cap δ c c' as' := by
  unfold deallocate
  refine h.paired_count_bind fun t t' ht hct _ => ?_
  have hwt := hw.counters hct
  rcases hp with ⟨rfl, rfl⟩ | hp
  · exact paired_pure ⟨_, ht⟩
  rw [if_neg hp.ne_zero, if_neg hp.ne_zero']
  refine paired_get_bind ?_
  obtain ⟨hhas, hplace⟩ := ht.hasAllocationHeader_eq hp
  rw [hhas]
  cases hin : hasAllocationHeader t p with
  | false => exact paired_throw (hE ht)
  | true =>
    obtain ⟨rfl, hlow, hhigh⟩ := hplace hin
    obtain ⟨hvalid, hblock⟩ := ht.isValidPayload_eq hwt.toSane hlow hhigh hin (hhas.trans hin)
    dsimp only
    rw [hvalid]
    cases hv : isValidPayload t p (headerBlock t.mem p) with
    | false => exact paired_throw (hE ht)
    | true =>
      obtain ⟨b, hb, hnames⟩ := hwt.toSane.valid_iff.mp ⟨hin, hv⟩
      have hbin := ht.node_in (hwt.linked.inArea hb)
      have hcap := ht.size_le
      rw [hblock hv, hnames.2.2.1, ht.blockIsFree_eq (by omega) (by omega), (hwt.linked.headers b hb).isFree]
      cases hf : b.free with
      | true => exact paired_throw (hE ht)
      | false =>
        obtain ⟨xs, ys, rfl⟩ := List.append_of_mem hb
        exact ht.paired_deallocateBlock hwt hf

theorem paired_expandFailure (h : Twins lo cap δ s s' as) : Paired E expandFailure expandFailure s s'
    fun r r' c c' => r' = r ∧ ∃ as', Twins lo cap δ c c' as' :=
  h.paired_count_bind fun _ _ ht _ _ => paired_pure ⟨rfl, _, ht⟩

/-- The requested size goes into the header of the payload, which is clear of the list. -/
theorem paired_recordSize (h : Twins lo cap δ s s' as) {q q' size : ℕ} (hclear : Clear as q q') (h1 : q+8 ≤ p) (h2 : p ≤ q') :
    Paired E (do storeMem fun m => m.store64 (p-8) size
                 expandSuccess) (do storeMem fun m => m.store64 (p+δ-8) size
                                    expandSuccess) s s'
      fun r r' c c' => r' = r ∧ ∃ as', Twins lo cap δ c c' as' := by
  have hw := h.write_clear (x := p-8) (k := 8) size hclear (by omega) (by omega)
  rw [show p-8+δ = p+δ-8 from by omega] at hw
  exact paired_store_bind (hw.paired_count_bind fun _ _ ht _ _ => paired_pure ⟨rfl, _, ht⟩)

theorem paired_expandBlock {size total : ℕ} (h : Twins lo cap δ s s' as) (hs : Sane s (xs ++ b :: ys) l) (hb : b.free = false)
    (hp : b.addr+48 ≤ p) (hp' : p < b.stop) (h16 : total%16 = 0) :
    Paired E (expandBlock p b.addr size total) (expandBlock (p+δ) (b.addr+δ) size total) s s'
      fun r r' c c' => r' = r ∧ ∃ as', Twins lo cap δ c c' as' := by
  obtain rfl := h.chain_eq hs.linked
  have hl := hs.linked
  have hbm : b ∈ xs ++ b :: ys := by simp
  have hbb := hl.mem_bounds hbm
  have hlt := hl.stop_lt hbm
  have hin := h.node_in (hl.inArea hbm)
  have hcap := h.size_le
  have hroom := h.shift.room
  have hbegin := h.begin_eq
  have hsize := (hl.headers b hbm).1
  have hoff : b ∉ l := fun hm => by simp [(hl.listed b hm).2] at hb
  have hclear := hl.clear hbm hoff
  have hnext := h.physicalNext_moved (a := b.addr) (by omega) (by omega) (by rw [hsize]; unfold Block.stop at *; omega)
  unfold expandBlock
  refine paired_get_bind ?_
  rw [h.blockSize_eq (by omega) (by omega), hsize]
  by_cases hfit : total ≤ b.size
  · rw [if_pos hfit, if_pos hfit]
    exact h.paired_recordSize hclear (by omega) (by omega)
  rw [if_neg hfit, if_neg hfit]
  dsimp only
  rw [hnext, hl.physicalNext_eq]
  cases ys with
  | nil =>
    rw [headAddr_nil, moved_zero, if_pos (Or.inl rfl), if_pos (Or.inl rfl)]
    exact h.paired_expandFailure
  | cons n ys =>
    have hnm : n ∈ xs ++ b :: n :: ys := by simp
    have hnb := hl.mem_bounds hnm
    have hnlt := hl.stop_lt hnm
    have hnin := h.node_in (hl.inArea hnm)
    have hadj : n.addr = b.stop := hl.tiles.middle.2.1
    rw [headAddr_cons, moved_of_ne_zero hnin.2.2.2.2, h.blockIsFree_eq (by omega) (by omega),
      h.blockSize_eq (by omega) (by omega), (hl.headers n hnm).1, (hl.headers n hnm).isFree]
    cases hf : n.free with
    | false =>
      rw [if_pos (Or.inr rfl), if_pos (Or.inr rfl)]
      exact h.paired_expandFailure
    | true =>
      have hne : ¬(n.addr = 0 ∨ true = false) := by simp [hnin.2.2.2.2]
      have hne' : ¬(n.addr+δ = 0 ∨ true = false) := by simp [hnin.2.2.2.2]
      rw [if_neg hne, if_neg hne']
      have hsum : add64 b.size n.size = b.size+n.size := by unfold add64 Block.stop at *; omega
      rw [hsum]
      by_cases hsmall : b.size+n.size < total
      · rw [if_pos hsmall, if_pos hsmall]
        exact h.paired_expandFailure
      rw [if_neg hsmall, if_neg hsmall]
      refine (h.paired_removeFreeBlock n.addr hnin.2.2.2.2).bind ?_
      rintro _ _ c c' ⟨hcc, hch⟩
      -- what is left on the list keeps out of both blocks
      have hclear' : Clear ((l.map Block.addr).erase n.addr) b.addr (b.addr+(b.size+n.size)) := by
        intro a ha
        obtain ⟨hne, ha⟩ := h.nodup.mem_erase_iff.mp ha
        have hna := hl.node_apart hnm ha hne
        rcases hclear a ha with hc | hc
        · exact Or.inl hc
        · unfold Block.stop at *
          omega
      have h1 := hcc.write_clear (x := b.addr) (k := 8) (b.size+n.size) hclear' le_rfl (by omega)
      refine paired_store_bind ?_
      have hsize' : blockSize (c.mem.store64 b.addr (b.size+n.size)) b.addr = b.size+n.size :=
        Mem.load64_store64 _ _ _ (by unfold Block.stop at *; omega)
      have harea : InArea c b.addr := area_of_changes hch (hl.inArea hbm)
      have hcsize := hch.segmentSize
      refine (h1.paired_splitAllocatedBlock harea hsize' hclear'
        (by unfold Block.stop at *; dsimp only; omega) (by omega) h16 (by omega)).bind ?_
      rintro _ _ d d' ⟨as', hdd, hclear'', -⟩
      exact hdd.paired_recordSize hclear'' (by omega) (by unfold Block.stop at *; omega)

theorem paired_tryExpand (h : Twins lo cap δ s s' as) (hs : Sane s bs l) {p' : ℕ} (hp : p = 0 ∧ p' = 0 ∨ PassedAlike δ p p')
    (hdvd : ∀ A ∈ normalizeAlignment al, A ∣ δ) (hfit : ExpandFits s p n al) (hfit' : ExpandFits s' p' n al)
    (hE : ∀ {c c' as'}, Twins lo cap δ c c' as' → E c c') : Paired E (tryExpand p n al) (tryExpand p' n al) s s'
      fun r r' c c' => r' = r ∧ ∃ as', Twins lo cap δ c c' as' := by
  unfold tryExpand
  refine h.paired_count_bind fun t t' ht hct hct' => paired_get_bind ?_
  have hst := hs.counters hct
  -- null is null at both bases; any other pointer is moved
  rcases hp with ⟨rfl, rfl⟩ | hp
  · rw [if_pos (Or.inl rfl), if_pos (Or.inl rfl)]
    exact ht.paired_expandFailure
  obtain ⟨hhas, hplace⟩ := ht.hasAllocationHeader_eq hp
  rw [hhas]
  by_cases hearly : n = 0 ∨ hasAllocationHeader t p = false
  · rw [if_pos (Or.inr hearly), if_pos (Or.inr hearly)]
    exact ht.paired_expandFailure
  have hgo : ¬(p = 0 ∨ n = 0 ∨ hasAllocationHeader t p = false) := fun hcon => hcon.elim hp.ne_zero hearly
  have hgo' : ¬(p' = 0 ∨ n = 0 ∨ hasAllocationHeader t p = false) := fun hcon => hcon.elim hp.ne_zero' hearly
  rw [if_neg hgo, if_neg hgo']
  rw [not_or, Bool.not_eq_false] at hearly
  obtain ⟨hn, hin⟩ := hearly
  obtain ⟨rfl, hlow, hhigh⟩ := hplace hin
  -- with the header inside the segment at one base it is so at the other, and the tests read the same
  obtain ⟨hvalid, hblock⟩ := ht.isValidPayload_eq hst hlow hhigh hin (hhas.trans hin)
  dsimp only
  rw [hvalid]
  by_cases hv : isValidPayload t p (headerBlock t.mem p) = true
  · obtain ⟨b, hb, hnames⟩ := hst.valid_iff.mp ⟨hin, hv⟩
    have hbin := ht.node_in (hst.linked.inArea hb)
    have hcap := ht.size_le
    have hv' := hvalid.trans hv
    rw [hblock hv] at hv'
    have hexpand : ExpandFits t p n al := by
      obtain ⟨k, rfl⟩ := hct
      exact hfit
    have hexpand' : ExpandFits t' (p+δ) n al := by
      obtain ⟨k, rfl⟩ := hct'
      exact hfit'
    unfold ExpandFits at hexpand hexpand'
    rw [hblock hv] at hexpand'
    rw [hv, hblock hv]
    rw [hnames.2.2.1] at hexpand hexpand' hv hv' ⊢
    rw [ht.blockIsFree_eq (by omega) (by omega), (hst.linked.headers b hb).isFree]
    by_cases hf : b.free = true
    · rw [if_pos (Or.inr hf), if_pos (Or.inr hf)]
      exact ht.paired_expandFailure
    have hheld : ¬(true = false ∨ b.free = true) := by simp [hf]
    rw [if_neg hheld, if_neg hheld]
    cases hA : normalizeAlignment al with
    | none => exact paired_hang (hE ht)
    | some A =>
      obtain ⟨k, hk, hk', rfl, -⟩ := normalizeAlignment_some hA
      dsimp only
      rw [makeLayout_moved hk hk' (hdvd _ hA) (hexpand _ hA hv) (hexpand' _ hA hv')]
      dsimp only
      by_cases hpay : (makeLayout b.addr n (2^k)).payload = p
      · rw [if_neg (not_not.mpr hpay), if_neg (by omega)]
        obtain ⟨xs, ys, rfl⟩ := List.append_of_mem hb
        exact ht.paired_expandBlock hst (by simpa using hf) hnames.1 hnames.2.1 (makeLayout_total_aligned _ _ _)
      · rw [if_pos hpay, if_pos (by omega)]
        exact ht.paired_expandFailure
  · rw [if_pos (Or.inl (by simpa using hv)), if_pos (Or.inl (by simpa using hv))]
    exact ht.paired_expandFailure

end Twins

end ShmNext
