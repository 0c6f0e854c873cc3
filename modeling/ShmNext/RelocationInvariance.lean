import ShmNext.RelocatedOps

/-! Relocation invariance: a run of the allocator at one base is the same run at another,
and either process can go on with the segment the other has left. -/
namespace ShmNext
open Prog

variable {lo cap δ base base' headerSize totalSize : ℕ} {s s' c c' d t : Allocator} {as : List ℕ} {a n p al : ℕ} {b : Block}
  {bs l xs ys : List Block} {E : Allocator → Allocator → Prop}

namespace Twins

/-- Another segment size, that the blocks of the list still fit. -/
theorem resize (h : Twins lo cap δ s s' as) {k : ℕ} (h16 : k%16 = 0) (hcap : k ≤ cap) (hk : k < 2^63)
    (hfirst : s.first ≤ lo+k) (hnodes : ∀ a ∈ as, a+32 ≤ lo+k) :
    Twins lo cap δ { s with segmentSize := k } { s' with segmentSize := k } as := by
  have hg := h.geometry
  have hb := h.begin_eq
  have hroom := h.shift.room
  refine ⟨h.shift, ⟨h.same.self, h.same.segmentBase, rfl, h.same.firstBlock, h.same.freeListHead, h.same.counters,
    h.same.bytes⟩, ⟨hg.1, hg.2, h16, hg.4, hg.5, hg.6, hg.7, ?_, hk⟩, hb, hcap, ?_, h.chain, h.chain', ?_⟩
  · change s.segmentBegin+k+48 ≤ 2^64
    omega
  · change s.first ≤ s.segmentBegin+k
    omega
  · intro a ha
    obtain ⟨h1, h2, -⟩ := h.nodes a ha
    have := hnodes a ha
    refine ⟨h1, h2, ?_⟩
    change a+32 ≤ s.segmentBegin+k
    omega

/-- The end of `grow` where the last block is no help: a new block behind the old end, or the old size again. -/
theorem paired_growBehind {old : ℕ} (h : Twins lo cap δ s s' as) (h16 : old%16 = 0) (hfirst : s.first ≤ lo+old)
    (hold : old ≤ s.segmentSize) (hnodes : ∀ a ∈ as, a+32 ≤ lo+old) :
    Paired E (if s.segmentSize-old < blockHeaderSize+alignment then do
        setSegmentSize old
        pure false
      else do
        setSize (lo+old) (s.segmentSize-old)
        setIsFree (lo+old) true
        setNextFree (lo+old) 0
        insertFreeBlock (lo+old)
        pure true)
      (if s.segmentSize-old < blockHeaderSize+alignment then do
        setSegmentSize old
        pure false
      else do
        setSize (lo+old+δ) (s.segmentSize-old)
        setIsFree (lo+old+δ) true
        setNextFree (lo+old+δ) 0
        insertFreeBlock (lo+old+δ)
        pure true) s s' fun r r' c c' => r' = r ∧ ∃ as', Twins lo cap δ c c' as' := by
  have hcap := h.size_le
  have hroom := h.shift.room
  have hlt := h.geometry.size_lt
  have hbegin := h.begin_eq
  have hlo := h.shift.lo_aligned
  unfold blockHeaderSize alignment
  by_cases hsmall : s.segmentSize-old < 32+16
  · rw [if_pos hsmall, if_pos hsmall]
    exact paired_store_bind (paired_pure ⟨rfl, _, h.resize h16 (by omega) (by omega) hfirst hnodes⟩)
  rw [if_neg hsmall, if_neg hsmall]
  -- what is new lies behind the last node of the list
  have hclear : Clear as (lo+old) (lo+old+32) := fun a ha => Or.inl (hnodes a ha)
  have hoff : lo+old ∉ as := fun hm => by
    have := hnodes _ hm
    omega
  have harea : InArea s (lo+old) := ⟨by omega, hfirst, by omega⟩
  have h1 := h.write_clear (x := lo+old) (k := 8) (s.segmentSize-old) hclear le_rfl (by omega)
  have h2 := h1.write_clear (x := lo+old+8) (k := 1) true.toNat hclear (by omega) (by omega)
  rw [show lo+old+8+δ = lo+old+δ+8 from by omega] at h2
  refine paired_store_bind (paired_store_bind ?_)
  refine (h2.paired_setNextFree (p := 0) harea hoff (Or.inl rfl)).bind ?_
  rintro _ _ c c' ⟨hcc, hch, -⟩
  refine (hcc.paired_insertFreeBlock (area_of_changes hch harea) hoff).bind ?_
  rintro _ _ d d' ⟨⟨us, vs, -, hdd⟩, -⟩
  exact paired_pure ⟨rfl, _, hdd⟩

theorem paired_grow (h : Twins lo cap δ s s' as) (hw : WellFormed s bs l) (hcap : n ≤ cap) (hn : n < 2^63) :
    Paired E (grow n) (grow n) s s' fun r r' c c' => r' = r ∧ ∃ as', Twins lo cap δ c c' as' := by
  obtain rfl := h.chain_eq hw.linked
  have hl := hw.linked
  have hdown : alignDown n alignment = n/16*16 := alignDown_eq (k := 4) (by omega) (by omega)
  have hroom := h.shift.room
  have hbegin := h.begin_eq
  have hend := h.end_eq
  have hsz := h.geometry.size_aligned
  have hfirst := h.first_in
  have hlo := h.shift.lo_aligned
  unfold grow
  refine paired_get_bind ?_
  rw [hdown, h.same.segmentSize]
  by_cases hle : n/16*16 ≤ s.segmentSize
  · rw [if_pos hle, if_pos hle]
    exact paired_pure ⟨rfl, _, h⟩
  rw [if_neg hle, if_neg hle]
  dsimp only
  rw [h.end_moved, hend]
  have hsub : sub64 (n/16*16) s.segmentSize = n/16*16-s.segmentSize := by unfold sub64; omega
  rw [hsub]
  have hlink := hw.linked_resize (k := n/16*16) (Nat.mul_mod_left _ _) (by omega) (by omega) (by omega)
  have h1 := h.resize (k := n/16*16) (Nat.mul_mod_left _ _) (by omega) (by omega) (by omega) fun a ha => by
    have := h.node_in (h.nodes a ha)
    omega
  refine paired_store_bind (paired_get_bind ?_)
  have htail : physicalPrevious { s with segmentSize := n/16*16 } (lo+s.segmentSize) = lastAddr bs := by
    rw [← hbegin]
    exact @Linked.physicalPrevious_eq _ _ _ _ [] _ (by simpa using hlink) hlink.tiles rfl
  have htail' := h1.physicalPrevious_moved (a := lo+s.segmentSize) (by omega) (by omega)
  rw [htail', htail]
  have hbehind := h1.paired_growBehind (E := E) hsz (by dsimp only [Allocator.first]; exact hfirst.2.1)
    (by dsimp only; omega) fun a ha => (h.node_in (h.nodes a ha)).2.2.2.1
  rcases List.eq_nil_or_concat bs with rfl | ⟨xs, t, rfl⟩
  · have hnull : ∀ m, ¬((0 : ℕ) ≠ 0 ∧ blockIsFree m 0 = true) := fun m hcon => hcon.1 rfl
    rw [lastAddr_nil, moved_zero, if_neg (hnull s.mem), if_neg (hnull s'.mem)]
    exact hbehind
  rw [List.concat_eq_append] at *
  have htm : t ∈ xs ++ [t] := by simp
  have htin := h.node_in (hl.inArea htm)
  have hsize := h.size_le
  rw [lastAddr_append, moved_of_ne_zero htin.2.2.2.2, h1.blockIsFree_eq (by omega) (by omega), (hl.headers t htm).isFree]
  by_cases hf : t.free = true
  · rw [if_pos ⟨htin.2.2.2.2, hf⟩, if_pos ⟨by omega, hf⟩]
    refine (h1.paired_removeFreeBlock t.addr htin.2.2.2.2).bind ?_
    rintro _ _ c c' ⟨hcc, hch⟩
    refine paired_get_bind ?_
    rw [hcc.blockSize_eq (by omega) (by omega)]
    have hclear : Clear ((l.map Block.addr).erase t.addr) t.addr t.stop := fun a ha => by
      obtain ⟨hne, ha⟩ := h.nodup.mem_erase_iff.mp ha
      exact hl.node_apart htm ha hne
    have hsz := (hl.mem_bounds htm).2.2.1
    have h2 := hcc.write_clear (x := t.addr) (k := 8) (add64 (blockSize c.mem t.addr) (n/16*16-s.segmentSize)) hclear
      le_rfl (by unfold Block.stop; omega)
    refine paired_store_bind ?_
    have harea : InArea c t.addr := area_of_changes hch (hlink.inArea htm)
    refine (h2.paired_insertFreeBlock harea h.nodup.not_mem_erase).bind ?_
    rintro _ _ d d' ⟨⟨us, vs, -, hdd⟩, -⟩
    exact paired_pure ⟨rfl, _, hdd⟩
  · have hheld : ∀ q : ℕ, ¬(q ≠ 0 ∧ t.free = true) := fun q hcon => hf hcon.2
    rw [if_neg (hheld t.addr), if_neg (hheld (t.addr+δ))]
    exact hbehind

theorem paired_shrinkToFit (h : Twins lo cap δ s s' as) (hw : WellFormed s bs l) :
    Paired E shrinkToFit shrinkToFit s s' fun r r' c c' => r' = r ∧ ∃ as', Twins lo cap δ c c' as' := by
  obtain rfl := h.chain_eq hw.linked
  have hl := hw.linked
  have hbegin := h.begin_eq
  have hcap := h.size_le
  have hlt := h.geometry.size_lt
  have hroom := h.shift.room
  have hlo := h.shift.lo_aligned
  have hal := h.shift.aligned
  unfold shrinkToFit
  refine paired_get_bind ?_
  dsimp only
  rw [h.lastBlock_moved, hw.toSane.lastBlock_eq, h.same.segmentSize, h.first_moved]
  rcases List.eq_nil_or_concat bs with rfl | ⟨xs, t, rfl⟩
  · rw [lastAddr_nil, moved_zero, if_pos (Or.inl rfl), if_pos (Or.inl rfl)]
    exact paired_pure ⟨rfl, _, h⟩
  rw [List.concat_eq_append] at *
  have htm : t ∈ xs ++ [t] := by simp
  have htb := hl.mem_bounds htm
  have htin := h.node_in (hl.inArea htm)
  rw [lastAddr_append, moved_of_ne_zero htin.2.2.2.2, h.blockIsFree_eq (by omega) (by omega), (hl.headers t htm).isFree]
  by_cases hf : t.free = true
  · have hgo : ¬(t.addr = 0 ∨ t.free = false) := by simp [hf, htin.2.2.2.2]
    have hgo' : ¬(t.addr+δ = 0 ∨ t.free = false) := by simp [hf, htin.2.2.2.2]
    rw [if_neg hgo, if_neg hgo', h.blockSize_eq (by omega) (by omega), (hl.headers t htm).1, h.begin_moved, hbegin]
    have hfirst := h.first_in
    have hsub : sub64 t.addr lo = t.addr-lo := by unfold sub64; omega
    have hsub' : sub64 (t.addr+δ) (lo+δ) = t.addr-lo := by unfold sub64; omega
    rw [hsub, hsub']
    have hclear : Clear ((l.map Block.addr).erase t.addr) t.addr t.stop := fun a ha => by
      obtain ⟨hne, ha⟩ := h.nodup.mem_erase_iff.mp ha
      exact hl.node_apart htm ha hne
    have hstop : t.stop = lo+s.segmentSize := by
      have := Tiles.nil_iff.mp hl.tiles.middle.2
      omega
    -- the blocks that stay on the list end where the dropped one began
    have hbelow : ∀ a ∈ (l.map Block.addr).erase t.addr, a+32 ≤ t.addr := fun a ha => by
      have := h.node_in (h.nodes a (List.mem_of_mem_erase ha))
      rcases hclear a ha with hc | hc
      · exact hc
      · omega
    by_cases hone : t.addr = s.first
    · have hadd : add64 (t.addr-lo) (32+16) = t.addr-lo+48 := by unfold add64; omega
      unfold blockHeaderSize alignment
      rw [if_pos hone, if_pos (show t.addr+δ = s.first+δ by omega), hadd]
      by_cases hsmall : t.size ≤ 32+16
      · rw [if_pos hsmall, if_pos hsmall]
        exact paired_pure ⟨rfl, _, h⟩
      rw [if_neg hsmall, if_neg hsmall]
      refine (h.paired_removeFreeBlock t.addr htin.2.2.2.2).bind ?_
      rintro _ _ c c' ⟨hcc, hch⟩
      have hkeep : (32+16 : ℕ) ≠ 0 := by decide
      rw [if_pos hkeep, if_pos hkeep]
      have hoff : t.addr ∉ (l.map Block.addr).erase t.addr := h.nodup.not_mem_erase
      have harea : InArea c t.addr := area_of_changes hch (hl.inArea htm)
      have h1 := hcc.write_clear (x := t.addr) (k := 8) (32+16) hclear le_rfl (by unfold Block.stop; omega)
      have h2 := h1.write_clear (x := t.addr+8) (k := 1) true.toNat hclear (by omega) (by unfold Block.stop; omega)
      rw [show t.addr+8+δ = t.addr+δ+8 from by omega] at h2
      refine paired_store_bind (paired_store_bind ?_)
      refine (h2.paired_setNextFree (p := 0) harea hoff (Or.inl rfl)).bind ?_
      rintro _ _ d d' ⟨hdd, hchd, -⟩
      refine (hdd.paired_insertFreeBlock (area_of_changes hchd harea) hoff).bind ?_
      rintro _ _ f f' ⟨⟨us, vs, hsplit, hff⟩, hchf⟩
      have hsum : t.addr+t.size = lo+s.segmentSize := hstop
      have hfirst' : f.first = s.first := hchf.first_eq.trans (hchd.first_eq.trans hch.first_eq)
      have h3 := hff.resize (k := t.addr-lo+48) (by omega) (by omega) (by omega) (by omega) fun a ha => by
          simp only [List.mem_append, List.mem_cons] at ha
          rcases ha with ha | rfl | ha
          · have := hbelow a (hsplit ▸ List.mem_append_left _ ha)
            omega
          · omega
          · have := hbelow a (hsplit ▸ List.mem_append_right _ ha)
            omega
      exact paired_store_bind (paired_pure ⟨rfl, _, h3⟩)
    · have hadd : add64 (t.addr-lo) 0 = t.addr-lo := by unfold add64; omega
      rw [if_neg hone, if_neg (show ¬ t.addr+δ = s.first+δ by omega), hadd]
      have hbig : ¬ t.size ≤ 0 := by omega
      rw [if_neg hbig, if_neg hbig]
      refine (h.paired_removeFreeBlock t.addr htin.2.2.2.2).bind ?_
      rintro _ _ c c' ⟨hcc, hch⟩
      have h1 := hcc.resize (k := t.addr-lo) (by omega) (by omega) (by omega) (by rw [hch.first_eq]; omega)
        fun a ha => by
          have := hbelow a ha
          omega
      exact paired_store_bind (paired_pure ⟨rfl, _, h1⟩)
  · rw [if_pos (Or.inr (by simpa using hf)), if_pos (Or.inr (by simpa using hf))]
    exact paired_pure ⟨rfl, _, h⟩

end Twins

section
variable {α α' : Type} {Q : α → α' → Allocator → Allocator → Prop}

/-- One store of `initialize` into the segment, in both views. -/
theorem SameView.paired_write {x x' k v : ℕ} {f : Unit → Op α} {f' : Unit → Op α'} (h : SameView base (base+δ) cap s s')
    (hx : x' = x+δ) (hf : ∀ t t', SameView base (base+δ) cap t t' → t.self = s.self → Paired E (f ()) (f' ()) t t' Q) :
    Paired E (storeMem (fun m => m.storeLE x k v) >>= f) (storeMem (fun m => m.storeLE x' k v) >>= f') s s' Q := by
  subst hx
  exact paired_store_bind (hf _ _ (h.store x k v) rfl)

/-- One store of `initialize` into the allocator object. -/
theorem SameView.paired_field {g : Allocator → Allocator} {f : Unit → Op α} {f' : Unit → Op α'}
    (hg : SameView base (base+δ) cap (g s) (g s')) (hself : (g s).self = s.self)
    (hf : ∀ t t', SameView base (base+δ) cap t t' → t.self = s.self → Paired E (f ()) (f' ()) t t' Q) :
    Paired E (Prog.store g >>= f) (Prog.store g >>= f') s s' Q :=
  paired_store_bind (hf _ _ hg hself)

end

theorem paired_initialize {header : ℕ} (hheader : alignUp headerSize alignment = header) (h1 : 0 < base) (h5 : base ≤ s.self)
    (h6 : s.self+112 ≤ base+header) (h9 : totalSize < 2^63) (hroom : base+cap+δ+48 ≤ 2^64) (hfit : header+32 ≤ totalSize)
    (hcap : totalSize ≤ cap) (hsame : SameView base (base+δ) cap s s') :
    Paired E (initializeAllocator base headerSize totalSize) (initializeAllocator (base+δ) headerSize totalSize) s s'
      fun _ _ c c' => SameView base (base+δ) cap c c' := by
  have hadd : add64 header blockHeaderSize = header+32 := by unfold add64 blockHeaderSize; omega
  have hfirst : add64 base header = base+header := by unfold add64; omega
  have hfirst' : add64 (base+δ) header = base+header+δ := by unfold add64; omega
  have hlarge : ¬ totalSize < header+32 := by omega
  have hself : s'.self = s.self+δ := by
    have := hsame.self
    omega
  -- the distances are the same, and so are the three words
  obtain ⟨w₁, hw₁, -, -⟩ := @setPointer_near s.self base (by omega) (by omega) (by unfold maxOffset; omega)
    (by unfold maxOffset; omega) (by omega)
  obtain ⟨w₂, hw₂, -, -⟩ := @setPointer_near (s.self+16) (base+header) (by omega) (by omega) (by unfold maxOffset; omega)
    (by unfold maxOffset; omega) (by omega)
  obtain ⟨w₃, hw₃, -, -⟩ := @setPointer_near (s.self+24) (base+header) (by omega) (by omega) (by unfold maxOffset; omega)
    (by unfold maxOffset; omega) (by omega)
  have hw₁' : setPointer s'.self (base+δ) = some w₁ := by rw [hself, setPointer_add _ (by omega), hw₁]
  have hw₂' : setPointer (s'.self+16) (base+header+δ) = some w₂ := by
    rw [hself, show s.self+δ+16 = s.self+16+δ from by omega, setPointer_add _ (by omega), hw₂]
  have hw₃' : setPointer (s'.self+24) (base+header+δ) = some w₃ := by
    rw [hself, show s.self+δ+24 = s.self+24+δ from by omega, setPointer_add _ (by omega), hw₃]
  unfold initializeAllocator
  rw [hheader]
  refine paired_get_bind ?_
  dsimp only
  rw [hadd, hfirst, hfirst', if_neg hlarge, if_neg hlarge, hw₁, hw₁', hw₂, hw₂']
  refine hsame.paired_write rfl fun t1 t1' h1 hs1 => ?_
  refine h1.paired_write (by omega) fun t2 t2' h2 hs2 => ?_
  unfold setNextFree storePointer
  rw [setPointer_null, setPointer_null]
  refine h2.paired_write (by omega) fun t3 t3' h3 hs3 => ?_
  refine SameView.paired_field ⟨h3.self, rfl, h3.segmentSize, h3.firstBlock, h3.freeListHead, h3.counters, h3.bytes⟩ rfl
    fun t4 t4' h4 hs4 => ?_
  refine SameView.paired_field ⟨h4.self, h4.segmentBase, rfl, h4.firstBlock, h4.freeListHead, h4.counters, h4.bytes⟩ rfl
    fun t5 t5' h5 hs5 => ?_
  refine SameView.paired_field ⟨h5.self, h5.segmentBase, h5.segmentSize, rfl, h5.freeListHead, h5.counters, h5.bytes⟩ rfl
    fun t6 t6' h6 hs6 => ?_
  have hself6 : t6.self = s.self := by rw [hs6, hs5, hs4, hs3, hs2, hs1]
  have hself6' : t6'.self = s'.self := by
    have := h6.self
    omega
  unfold setFreeListHead
  refine (paired_get_bind (Q := fun _ _ t t' => SameView base (base+δ) cap t t') ?_).bind fun _ _ t7 t7' h7 => ?_
  · rw [hself6, hself6', hw₃, hw₃']
    exact paired_store ⟨h6.self, h6.segmentBase, h6.segmentSize, h6.firstBlock, rfl, h6.counters, h6.bytes⟩
  · exact paired_store ⟨h7.self, h7.segmentBase, h7.segmentSize, h7.firstBlock, h7.freeListHead, rfl, h7.bytes⟩

/-- `initialize` of one region at both bases leaves two views of one segment. -/
theorem twins_initialize (hshift : Shift base cap δ) (hs : FreshSegment s base headerSize totalSize) (hcap : totalSize ≤ cap)
    (hsame : SameView base (base+δ) cap s s') : ∃ c c' as, Roomy c ∧
    (initializeAllocator base headerSize totalSize).run s = (.ok (), c) ∧
      (initializeAllocator (base+δ) headerSize totalSize).run s' = (.ok (), c') ∧ Twins base cap δ c c' as := by
  have hroom := hshift.room
  have hself := hsame.self
  obtain ⟨-, _, c, hrun, b, hb, hwf⟩ := FreshSegment.runs_initialize hs
  obtain ⟨h1, h2, h3, h4, h5, h6, h7, h8, h9⟩ := hs
  obtain ⟨-, _, d, hd, hinit⟩ := runs_initialize h1 h5 h6 h7 h8 h9
  have hpos : 0 < base+δ := by omega
  obtain ⟨-, _, c', hrun', hinit'⟩ :=
    runs_initialize hpos (s := s') (by omega) (by omega) h7 (by omega) h9
  obtain rfl : c = d := by
    rw [hrun] at hd
    cases hd
    rfl
  -- both runs store the same words at the same offsets
  have hview : SameView base (base+δ) cap c c' := by
    have hpaired : Paired (fun _ _ => False) (initializeAllocator base headerSize totalSize)
        (initializeAllocator (base+δ) headerSize totalSize) s s' fun _ _ c c' => SameView base (base+δ) cap c c' :=
      paired_initialize rfl h1 h5 h6 h9 hroom h7 hcap hsame
    rcases hpaired with
      ⟨_, _, t, t', ht, ht', hv⟩ | ⟨_, _, _, _, _, he⟩ | ⟨_, _, _, _, he⟩
    · rw [hrun] at ht
      rw [hrun'] at ht'
      cases ht
      cases ht'
      exact hv
    · exact he.elim
    · exact he.elim
  have haddr : b.addr = base+alignUp headerSize alignment := hwf.linked.chain.1.symm.trans hinit.head_eq
  refine ⟨c, c', [b.addr], ⟨[b], [b], hwf, fun d hd hf => ?_⟩, hrun, hrun', hshift, hview, hwf.linked.geometry, hinit.begin_eq,
    by rw [hinit.size_eq]; exact hcap, hwf.linked.first_le, hwf.linked.chain, ?_, ?_⟩
  · rw [List.mem_singleton.mp hd, hb] at hf
    cases hf
  · have hhead := hinit'.head_eq
    refine ⟨show c'.head = b.addr+δ by omega, show b.addr+δ ≠ 0 by omega, ?_⟩
    · have hnext := hinit'.next
      rw [show base+δ+alignUp headerSize alignment = b.addr+δ from by omega] at hnext
      exact hnext
  · intro a ha
    rw [List.mem_singleton.mp ha]
    exact hwf.linked.inArea (b := b) (by simp)

/-! Another view at the same base: the segment's bytes are the same, whatever lies around it. -/

theorem SameView.changes (h : SameView lo lo cap s t) : ChangesOnly (fun x => x < lo ∨ lo+cap ≤ x) s t := by
  refine ⟨by have := h.self; omega, h.segmentBase, h.segmentSize, h.firstBlock, fun x hx => ?_⟩
  have := h.bytes (x-lo) (by omega)
  rwa [show lo+(x-lo) = x from by omega] at this

theorem SameView.linked {e : ℕ} (h : SameView lo lo cap s t) (hl : Linked s e bs l) (hb : s.segmentBegin = lo)
    (hsize : s.segmentSize ≤ cap) : Linked t e bs l := by
  have hg := hl.geometry
  have h1 := hg.self_below
  have h2 := hg.self_ge
  refine hl.frame h.changes h.freeListHead ?_ ?_
  · intro b hb x hx hx'
    have := hl.mem_bounds hb
    unfold Block.stop at this
    omega
  · intro b hb x hx hx'
    have := hl.mem_bounds (hl.listed b hb).1
    unfold Block.stop at this
    omega

theorem SameView.roomy (h : SameView lo lo cap s t) (hr : Roomy s) (hb : s.segmentBegin = lo) (hsize : s.segmentSize ≤ cap) :
    Roomy t := by
  obtain ⟨bs, l, hw, ht⟩ := hr
  have hlimit := h.changes.limit_eq
  have hl := h.linked hw.linked hb hsize
  exact ⟨bs, l, ⟨⟨hlimit ▸ hl, hw.exact⟩, hw.sorted, hw.coalesced⟩, hlimit ▸ ht⟩

namespace Twins

theorem view_left (h : Twins lo cap δ s s' as) (hv : SameView lo lo cap s t) : Twins lo cap δ t s' as := by
  have hc := hv.changes
  refine ⟨h.shift, hv.symm.trans h.same, hc.geometry h.geometry, hc.begin_eq.trans h.begin_eq, hv.segmentSize ▸ h.size_le,
    ?_, ?_, h.chain', fun a ha => area_of_changes hc (h.nodes a ha)⟩
  · rw [hc.first_eq, hc.limit_eq]
    exact h.first_le
  · have hhead : t.head = s.head := by unfold Allocator.head; rw [hc.self, hv.freeListHead]
    rw [hhead]
    refine h.chain.congr fun a ha => nextFree_congr fun x h1 h2 => hc.bytes x ?_
    have := h.node_in (h.nodes a ha)
    have := h.size_le
    omega

theorem view_right (h : Twins lo cap δ s s' as) (hv : SameView (lo+δ) (lo+δ) cap s' t) : Twins lo cap δ s t as := by
  have hc := hv.changes
  refine ⟨h.shift, h.same.trans hv, h.geometry, h.begin_eq, h.size_le, h.first_le, h.chain, ?_, h.nodes⟩
  have hhead : t.head = s'.head := by unfold Allocator.head; rw [hc.self, hv.freeListHead]
  rw [hhead]
  refine h.chain'.congr fun a' ha' => nextFree_congr fun x h1 h2 => hc.bytes x ?_
  obtain ⟨a, ha, rfl⟩ := List.mem_map.mp ha'
  have := h.node_in (h.nodes a ha)
  have := h.size_le
  omega

end Twins

/-- What a process asks of the allocator. Pointers are offsets from the base it has mapped the
segment at; `none` is the null pointer. -/
inductive Request where
  | allocate (size requestedAlignment : ℕ)
  | deallocate (offset : Option ℕ)
  | tryExpand (offset : Option ℕ) (newSize requestedAlignment : ℕ)
  | grow (newSegmentSize : ℕ)
  | shrinkToFit
  deriving DecidableEq, Repr

inductive Answer where
  | allocated (offset : Option ℕ)
  | deallocated
  | expanded (done : Bool)
  | grown (done : Bool)
  | shrunk (size : ℕ)
  deriving DecidableEq, Repr

def pointerAt (base : ℕ) : Option ℕ → ℕ
  | none => 0
  | some offset => add64 base offset

def offsetFrom (base ptr : ℕ) : Option ℕ := if ptr = 0 then none else some (sub64 ptr base)

/-- The member call behind a request, at `base`. -/
def perform (base : ℕ) : Request → Op Answer
  | .allocate size al => do
    let p ← allocate size al
    pure (.allocated (offsetFrom base p))
  | .deallocate p => do
    deallocate (pointerAt base p)
    pure .deallocated
  | .tryExpand p newSize al => do
    let done ← tryExpand (pointerAt base p) newSize al
    pure (.expanded done)
  | .grow newSegmentSize => do
    let done ← grow newSegmentSize
    pure (.grown done)
  | .shrinkToFit => do
    let size ← shrinkToFit
    pure (.shrunk size)

/-- The outcomes of a sequence of requests, up to one that does not come back, and the state behind them. -/
def serve (base : ℕ) : List Request → Allocator → List (Outcome Thrown Answer) × Allocator
  | [], s => ([], s)
  | r :: rs, s =>
    match (perform base r).run s with
    | (.hang, c) => ([.hang], c)
    | (o, c) => (o :: (serve base rs c).1, (serve base rs c).2)

/-- No offset stands for the address zero. -/
def NotNull (base : ℕ) : Option ℕ → Prop
  | none => True
  | some offset => add64 base offset ≠ 0

/-- The base is a multiple of the alignment a request is normalised to. -/
def BaseAligned (base requestedAlignment : ℕ) : Prop := ∀ A ∈ normalizeAlignment requestedAlignment, A ∣ base

instance (base al : ℕ) : Decidable (BaseAligned base al) :=
  inferInstanceAs (Decidable (∀ A ∈ normalizeAlignment al, A ∣ base))

/-- What a request is made under: the base suits its alignment, its layouts do not wrap, and a
larger segment has been mapped. -/
def Request.Proper (base cap : ℕ) (s : Allocator) : Request → Prop
  | .allocate size al => size < 2^64 ∧ BaseAligned base al ∧ ScanFits s size al
  | .deallocate p => NotNull base p
  | .tryExpand p newSize al => NotNull base p ∧ BaseAligned base al ∧ ExpandFits s (pointerAt base p) newSize al
  | .grow newSegmentSize => newSegmentSize ≤ cap
  | .shrinkToFit => True

def ProperRun (base cap : ℕ) : List Request → Allocator → Prop
  | [], _ => True
  | r :: rs, s => r.Proper base cap s ∧
    match (perform base r).run s with
    | (.hang, _) => True
    | (_, c) => ProperRun base cap rs c

theorem scanChain_tested {next : ℕ → ℕ} {stop : ℕ → Bool} {fuel prev curr : ℕ} {r : ℕ × ℕ}
    (h : scanChain next stop fuel prev curr = some r) : r.2 = 0 ∨ Tested next stop curr r.2 := by
  induction fuel generalizing prev curr with
  | zero =>
    unfold scanChain at h
    by_cases h0 : curr = 0
    · rw [if_pos h0] at h
      exact Or.inl (Option.some.inj h ▸ rfl)
    rw [if_neg h0] at h
    by_cases hs : stop curr = true
    · rw [if_pos hs] at h
      exact Or.inr (Option.some.inj h ▸ .here h0)
    · rw [if_neg hs] at h
      cases h
  | succ fuel ih =>
    unfold scanChain at h
    by_cases h0 : curr = 0
    · rw [if_pos h0] at h
      exact Or.inl (Option.some.inj h ▸ rfl)
    rw [if_neg h0] at h
    by_cases hs : stop curr = true
    · rw [if_pos hs] at h
      exact Or.inr (Option.some.inj h ▸ .here h0)
    · rw [if_neg hs] at h
      exact (ih h).imp_right (.later h0 (by simpa using hs))

theorem ScanFits.allocateFits (h : ScanFits s n al) : AllocateFits s n al :=
  fun A hA _ hr => (scanChain_tested hr).imp_right (h A hA _)

theorem run_bind_pure_state {α β : Type} (q : Op α) (f : α → β) (s : Allocator) :
    ((q >>= fun x => pure (f x)).run s).2 = (q.run s).2 := by
  rw [run_bind]
  rcases q.run s with ⟨_ | _ | _, c⟩ <;> rfl

theorem Roomy.perform {r : Request} (h : Roomy s) (hp : r.Proper s.segmentBegin cap s) (hroom : s.segmentBegin+cap+48 ≤ 2^64)
    (hcap : cap < 2^63) : Roomy ((ShmNext.perform s.segmentBegin r).run s).2 := by
  unfold ShmNext.perform
  cases r with
  | allocate size al =>
    rw [run_bind_pure_state]
    exact h.allocate hp.1 hp.2.2.allocateFits
  | deallocate p =>
    dsimp only
    rw [run_bind_pure_state]
    exact Roomy.deallocate _ s h
  | tryExpand p newSize al =>
    rw [run_bind_pure_state]
    exact h.tryExpand hp.2.2
  | grow k =>
    rw [run_bind_pure_state]
    have hk : k ≤ cap := hp
    exact h.grow (by omega) (by omega)
  | shrinkToFit =>
    rw [run_bind_pure_state]
    exact Roomy.shrinkToFit s h

theorem pointerAt_alike {offset : Option ℕ} (hn : NotNull lo offset) (hn' : NotNull (lo+δ) offset) :
    pointerAt lo offset = 0 ∧ pointerAt (lo+δ) offset = 0 ∨ PassedAlike δ (pointerAt lo offset) (pointerAt (lo+δ) offset) := by
  cases offset with
  | none => exact Or.inl ⟨rfl, rfl⟩
  | some o =>
    refine Or.inr ⟨Nat.mod_lt _ (by decide), hn, hn', ?_⟩
    dsimp only [pointerAt]
    unfold add64
    omega

theorem offsetFrom_moved {p : ℕ} (hroom : lo+δ ≤ 2^64) : offsetFrom (lo+δ) (moved δ p) = offsetFrom lo p := by
  unfold offsetFrom
  by_cases hp : p = 0
  · rw [hp, moved_zero, if_pos rfl, if_pos rfl]
  rw [moved_of_ne_zero hp, if_neg hp, if_neg (by omega)]
  unfold sub64
  rw [show p+δ+2^64-(lo+δ) = p+2^64-lo from by omega]

theorem BaseAligned.dvd_sub (h : BaseAligned lo al) (h' : BaseAligned (lo+δ) al) :
    ∀ A ∈ normalizeAlignment al, A ∣ δ :=
  fun A hA => (Nat.dvd_add_right (h A hA)).mp (h' A hA)

/-- One request, on two views of one segment. -/
theorem Twins.paired_perform {r : Request} (h : Twins lo cap δ s s' as) (hw : WellFormed s bs l) (hcap : cap < 2^63)
    (hp : r.Proper lo cap s) (hp' : r.Proper (lo+δ) cap s') :
    Paired (fun c c' => ∃ as, Twins lo cap δ c c' as) (perform lo r) (perform (lo+δ) r) s s'
      fun a a' c c' => a' = a ∧ ∃ as, Twins lo cap δ c c' as := by
  have hroom := h.shift.room
  have hkeep : ∀ {c c'} as', Twins lo cap δ c c' as' → ∃ as, Twins lo cap δ c c' as := fun as' hc => ⟨as', hc⟩
  unfold perform
  cases r with
  | allocate n al =>
    obtain ⟨-, hbase, hfit⟩ := hp
    obtain ⟨-, hbase', hfit'⟩ := hp'
    have hcall := h.paired_allocate hw.toSane (hbase.dvd_sub hbase') hfit hfit' (hkeep _)
    refine hcall.bind fun p p' c c' hq => ?_
    obtain ⟨rfl, hcc⟩ := hq
    exact paired_pure ⟨by rw [offsetFrom_moved (by omega)], hcc⟩
  | deallocate p =>
    refine (h.paired_deallocate hw (pointerAt_alike hp hp') (hkeep _)).bind fun _ _ _ _ hcc => ?_
    exact paired_pure ⟨rfl, hcc⟩
  | tryExpand p n al =>
    obtain ⟨hnull, hbase, hfit⟩ := hp
    obtain ⟨hnull', hbase', hfit'⟩ := hp'
    have hcall := h.paired_tryExpand hw.toSane (pointerAt_alike hnull hnull') (hbase.dvd_sub hbase') hfit hfit' (hkeep _)
    refine hcall.bind fun _ _ _ _ hq => ?_
    obtain ⟨rfl, hcc⟩ := hq
    exact paired_pure ⟨rfl, hcc⟩
  | grow n =>
    have hn : n ≤ cap := hp
    refine (h.paired_grow hw hn (by omega)).bind fun _ _ _ _ hq => ?_
    obtain ⟨rfl, hcc⟩ := hq
    exact paired_pure ⟨rfl, hcc⟩
  | shrinkToFit =>
    refine (h.paired_shrinkToFit hw).bind fun _ _ _ _ hq => ?_
    obtain ⟨rfl, hcc⟩ := hq
    exact paired_pure ⟨rfl, hcc⟩

/-- A sequence of requests, on two views of one segment. -/
theorem Twins.serve (h : Twins lo cap δ s s' as) (hr : Roomy s) (hcap : cap < 2^63) :
    ∀ {rs : List Request}, ProperRun lo cap rs s → ProperRun (lo+δ) cap rs s' →
      (serve (lo+δ) rs s').1 = (serve lo rs s).1 ∧ Roomy (serve lo rs s).2 ∧
        ∃ as', Twins lo cap δ (serve lo rs s).2 (serve (lo+δ) rs s').2 as' := by
  intro rs
  induction rs generalizing s s' as with
  | nil => exact fun _ _ => ⟨rfl, hr, as, h⟩
  | cons r rs ih =>
    intro hp hp'
    obtain ⟨hr1, hrest⟩ := hp
    obtain ⟨hr1', hrest'⟩ := hp'
    have hroom := h.shift.room
    have hbegin := h.begin_eq
    have hstep : Roomy ((perform lo r).run s).2 := by
      have := hr.perform (r := r) (by rw [hbegin]; exact hr1) (by omega) hcap
      rwa [hbegin] at this
    obtain ⟨bs, l, hw, -⟩ := hr
    rcases h.paired_perform hw hcap hr1 hr1' with
      ⟨a, a', c, c', hc, hc', rfl, as', hcc⟩ | ⟨e, c, c', hc, hc', as', hcc⟩ | ⟨c, c', hc, hc', as', hcc⟩
    · rw [hc] at hstep hrest
      rw [hc'] at hrest'
      obtain ⟨h1, h2, h3⟩ := ih hcc hstep hrest hrest'
      unfold ShmNext.serve
      rw [hc, hc']
      exact ⟨congrArg (_ :: ·) h1, h2, h3⟩
    · rw [hc] at hstep hrest
      rw [hc'] at hrest'
      obtain ⟨h1, h2, h3⟩ := ih hcc hstep hrest hrest'
      unfold ShmNext.serve
      rw [hc, hc']
      exact ⟨congrArg (_ :: ·) h1, h2, h3⟩
    · rw [hc] at hstep
      unfold ShmNext.serve
      rw [hc, hc']
      exact ⟨rfl, hstep, as', hcc⟩

/-- The requests have the same outcomes at both bases, and leave the same bytes behind. -/
def RunAlike (base base' cap : ℕ) (rs : List Request) (s s' : Allocator) : Prop :=
  ProperRun base cap rs s → ProperRun base' cap rs s' →
    (serve base' rs s').1 = (serve base rs s).1 ∧ SameView base base' cap (serve base rs s).2 (serve base' rs s').2

theorem Twins.runAlike {rs : List Request} (h : Twins lo cap δ s s' as) (hr : Roomy s) (hcap : cap < 2^63) :
    RunAlike lo (lo+δ) cap rs s s' := by
  intro hp hp'
  obtain ⟨h1, -, as', h2⟩ := h.serve hr hcap hp hp'
  exact ⟨h1, h2.same⟩

theorem RunAlike.symm {rs : List Request} (h : RunAlike base base' cap rs s s') : RunAlike base' base cap rs s' s := by
  intro hp hp'
  obtain ⟨h1, h2⟩ := h hp' hp
  exact ⟨h1.symm, h2.symm⟩

/-- The region as another process sees it. -/
theorem FreshSegment.view (h : FreshSegment s base headerSize totalSize) (hview : SameView base base' cap s s') (hpos : 0 < base')
    (hal : base'%16 = 0) (hroom : base'+totalSize+48 ≤ 2^64) : FreshSegment s' base' headerSize totalSize := by
  obtain ⟨h1, h2, h3, h4, h5, h6, h7, h8, h9⟩ := h
  have hself := hview.self
  exact ⟨hpos, hal, h3, by omega, by omega, by omega, h7, hroom, h9⟩

/-- One region mapped at two bases: every sequence of requests runs alike at both, and what one
process has left is gone on with alike by the other. -/
theorem relocation_invariant (hs : FreshSegment s base headerSize totalSize) (hview : SameView base base' cap s s')
    (hcap : totalSize ≤ cap) (hlt : cap < 2^63) (hpos : 0 < base') (hal : base'%16 = 0) (hroom : base+cap+48 ≤ 2^64)
    (hroom' : base'+cap+48 ≤ 2^64) : ∃ c c', (initializeAllocator base headerSize totalSize).run s = (.ok (), c) ∧
      (initializeAllocator base' headerSize totalSize).run s' = (.ok (), c') ∧ SameView base base' cap c c' ∧
      ∀ before, RunAlike base base' cap before c c' ∧ (ProperRun base cap before c → ProperRun base' cap before c' →
        ∀ t, SameView base base' cap (serve base before c).2 t → ∀ after, RunAlike base base' cap after (serve base before c).2 t) := by
  have hbase := hs.base_pos
  have hbase16 := hs.base_aligned
  rcases le_total base base' with hle | hle
  · obtain ⟨δ, rfl⟩ := Nat.exists_eq_add_of_le hle
    have hshift : Shift base cap δ := ⟨hbase, hbase16, by omega, by omega⟩
    obtain ⟨c, c', as, hr, hrun, hrun', h⟩ := twins_initialize hshift hs hcap hview
    refine ⟨c, c', hrun, hrun', h.same, fun before => ⟨h.runAlike hr hlt, fun hp hp' t ht after => ?_⟩⟩
    obtain ⟨-, hr', as', h'⟩ := h.serve hr hlt hp hp'
    exact (h'.view_right (h'.same.symm.trans ht)).runAlike hr' hlt
  · obtain ⟨δ, rfl⟩ := Nat.exists_eq_add_of_le hle
    have hshift : Shift base' cap δ := ⟨hpos, hal, by omega, by omega⟩
    obtain ⟨c', c, as, hr, hrun', hrun, h⟩ :=
      twins_initialize hshift (hs.view hview hpos hal (by omega)) hcap hview.symm
    refine ⟨c, c', hrun, hrun', h.same.symm, fun before => ⟨(h.runAlike hr hlt).symm, fun hp hp' t ht after => ?_⟩⟩
    obtain ⟨-, hr', as', h'⟩ := h.serve hr hlt hp' hp
    have hseen := h'.same.trans ht
    have hrt : Roomy t := hseen.roomy hr' h'.begin_eq h'.size_le
    exact ((h'.view_left hseen).runAlike hrt hlt).symm

theorem scanFits_of_head (h : ∀ A ∈ normalizeAlignment al, fits s.mem n A s.head = true ∧ LayoutFits s.head n A) :
    ScanFits s n al := by
  intro A hA a ha
  cases ha with
  | here _ => exact (h A hA).2
  | later _ hs _ =>
    rw [(h A hA).1] at hs
    cases hs

theorem ProperRun.step {r : Request} {rs : List Request} (hr : r.Proper base cap s) (h : ∀ c, ProperRun base cap rs c) :
    ProperRun base cap (r :: rs) s := by
  refine ⟨hr, ?_⟩
  rcases (perform base r).run s with ⟨_ | _ | _, c⟩
  · exact h c
  · exact h c
  · trivial

/-- The small segment mapped at 4096 by one process and at 8192 by another. -/
theorem relocation_invariant_small : ∃ c c', (initializeAllocator 4096 112 4096).run smallSegment = (.ok (), c) ∧
    (initializeAllocator 8192 112 4096).run { smallSegment with self := 8192 } = (.ok (), c') ∧
      (serve 8192 [.allocate 40 64, .deallocate (some 192), .shrinkToFit] c').1 =
        (serve 4096 [.allocate 40 64, .deallocate (some 192), .shrinkToFit] c).1 ∧
      (serve 8192 [.grow 4096] (serve 8192 [.allocate 40 64, .deallocate (some 192), .shrinkToFit] c').2).1 =
        (serve 4096 [.grow 4096] (serve 4096 [.allocate 40 64, .deallocate (some 192), .shrinkToFit] c).2).1 := by
  have hsame : SameView 4096 8192 4096 smallSegment { smallSegment with self := 8192 } :=
    ⟨rfl, rfl, rfl, rfl, rfl, rfl, fun _ _ => rfl⟩
  have hs : FreshSegment smallSegment 4096 112 4096 :=
    ⟨by decide, by decide, by decide, by decide, by decide, by decide, by decide, by decide, by decide⟩
  obtain ⟨c, c', hrun, hrun', hview, h⟩ :=
    relocation_invariant hs hsame le_rfl (by decide) (by decide) (by decide) (by decide) (by decide)
  have hc : c = ((initializeAllocator 4096 112 4096).run smallSegment).2 := by rw [hrun]
  have hc' : c' = ((initializeAllocator 8192 112 4096).run { smallSegment with self := 8192 }).2 := by rw [hrun']
  have hfit : ScanFits c 40 64 := by
    rw [hc]
    exact scanFits_of_head (by decide +kernel)
  have hfit' : ScanFits c' 40 64 := by
    rw [hc']
    exact scanFits_of_head (by decide +kernel)
  have hgrow : ∀ base d, ProperRun base 4096 [.grow 4096] d := fun base d => .step le_rfl fun _ => trivial
  have hp : ProperRun 4096 4096 [.allocate 40 64, .deallocate (some 192), .shrinkToFit] c := by
    refine .step ⟨by decide, by decide +kernel, hfit⟩ fun d => .step ?_ fun d' => .step trivial fun _ => trivial
    exact show add64 4096 192 ≠ 0 by decide
  have hp' : ProperRun 8192 4096 [.allocate 40 64, .deallocate (some 192), .shrinkToFit] c' := by
    refine .step ⟨by decide, by decide +kernel, hfit'⟩ fun d => .step ?_ fun d' => .step trivial fun _ => trivial
    exact show add64 8192 192 ≠ 0 by decide
  obtain ⟨hbefore, hafter⟩ := h [.allocate 40 64, .deallocate (some 192), .shrinkToFit]
  obtain ⟨hout, hleft⟩ := hbefore hp hp'
  exact ⟨c, c', hrun, hrun', hout, (hafter hp hp' _ hleft [.grow 4096] (hgrow _ _) (hgrow _ _)).1⟩

end ShmNext
