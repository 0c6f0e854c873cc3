import ShmNext.GrowSpec

/-! `shrink_to_fit` and `zero_free_memory`. -/
namespace ShmNext
open Prog

variable {s : Allocator} {b t : Block} {bs l us vs xs ys : List Block} {C : Allocator → Prop}

namespace WellFormed

theorem mem_list_front (h : WellFormed s (xs ++ [t]) l) {d : Block} (hd : d ∈ l.erase t) : d ∈ xs := by
  have hd' := h.linked.nodup.mem_erase_iff.mp hd
  have := (h.linked.listed d hd'.2).1
  simp only [List.mem_append, List.mem_singleton, hd'.1, or_false] at this
  exact this

/-- `shrink_to_fit` with blocks before the free last one: that one is dropped. -/
theorem runs_shrinkDrop (h : WellFormed s (xs ++ [t]) l) (hf : t.free = true)
    {Q : ℕ → Allocator → Prop}
    (hC : ∀ c, Resized (InFree (xs ++ [t])) s c → (checkSanity c = true → Keeping (xs ++ [t]) c) → C c)
    (hQ : ∀ c, ChangesOnly (InFree (xs ++ [t])) { s with segmentSize := t.addr-s.segmentBegin } c →
      WellFormed c xs (l.erase t) → Q (t.addr-s.segmentBegin) c) :
    (do
      removeFreeBlock t.addr
      setSegmentSize (t.addr-s.segmentBegin)
      pure (t.addr-s.segmentBegin) : Op ℕ).Runs s C Q := by
  have htm : t ∈ xs ++ [t] := by simp
  have hnd := h.linked.nodup
  have hoff : t ∉ l.erase t := fun hm => (hnd.mem_erase_iff.mp hm).1 rfl
  obtain ⟨hx, hte⟩ := h.linked.tiles.middle
  have htb := h.linked.mem_bounds htm
  have hg := h.linked.geometry
  have := hg.self_below
  have := hg.self_ge
  have := hg.begin_aligned
  have := hg.end_room
  have := hg.size_lt
  -- a cut between the two leaves a free block in no list, which `check_sanity` refuses
  refine Runs.bind (Q := fun _ c => Linked c (s.segmentBegin+s.segmentSize) (xs ++ [t]) (l.erase t) ∧
      ChangesOnly (InFree (xs ++ [t])) s c) ?_ ?_
  · refine h.linked.runs_removeFreeBlock (h.exact t htm hf) fun c hc hch => ?_
    exact ⟨hC c hch.resized fun hs => absurd hs (by simp [hc.not_sane htm hf hoff]), hc, hch⟩
  rintro _ c ⟨hc, hch⟩
  -- the chain without its last block ends where that block was
  have hprefix : Linked c t.addr xs (l.erase t) :=
    hc.take (hch.first_eq ▸ hx) (fun d hd => h.mem_list_front hd) (by unfold Block.stop at htb; omega)
  have hbegin := hch.begin_eq
  have hsize : t.addr = c.segmentBegin+(t.addr-s.segmentBegin) := by omega
  have hlink : Linked { c with segmentSize := t.addr-s.segmentBegin } t.addr xs (l.erase t) :=
    hprefix.resize (by omega) (by unfold Block.stop at htb; omega) (by unfold Block.stop at htb; omega) hsize.le
  obtain ⟨hcx, -, -⟩ := Coalesced.append_iff.mp h.coalesced
  have hwf : WellFormed { c with segmentSize := t.addr-s.segmentBegin } xs (l.erase t) := by
    refine ⟨⟨hsize ▸ hlink, fun d hd hdf => hnd.mem_erase_iff.mpr ⟨?_, h.exact d (by simp [hd]) hdf⟩⟩,
      h.sorted.sublist List.erase_sublist, hcx⟩
    rintro rfl
    have hb := hx.bounds hd
    unfold Block.stop at hb
    omega
  have hsame : Same (xs ++ [t]) { c with segmentSize := t.addr-s.segmentBegin } := by
    refine ⟨xs, _, hwf, fun d hd => ?_⟩
    have hne : d ≠ t := by rintro rfl; simp [hf] at hd
    simp [hne]
  have hres : ChangesOnly (InFree (xs ++ [t])) { s with segmentSize := t.addr-s.segmentBegin }
      { c with segmentSize := t.addr-s.segmentBegin } :=
    ⟨hch.self, hch.segmentBase, rfl, hch.firstBlock, hch.bytes⟩
  exact runs_store_bind (hC _ ⟨_, hres⟩ fun _ => hsame.keeping) (runs_pure (hQ _ hres hwf))

/-- `shrink_to_fit` of a segment that is one free block: a small one stays. -/
theorem runs_shrinkKeep (h : WellFormed s [t] l) (hf : t.free = true) (ht : 48 < t.size)
    {Q : ℕ → Allocator → Prop}
    (hC : ∀ c, Resized (InFree [t]) s c → (checkSanity c = true → Keeping [t] c) → C c)
    (hQ : ∀ c, ChangesOnly (InFree [t]) { s with segmentSize := t.addr-s.segmentBegin+48 } c →
      WellFormed c [⟨t.addr, 48, true⟩] [⟨t.addr, 48, true⟩] → Q (t.addr-s.segmentBegin+48) c) :
    (do
      removeFreeBlock t.addr
      setSize t.addr 48
      setIsFree t.addr true
      setNextFree t.addr 0
      insertFreeBlock t.addr
      setSegmentSize (t.addr-s.segmentBegin+48)
      pure (t.addr-s.segmentBegin+48) : Op ℕ).Runs s C Q := by
  have htm : t ∈ [t] := by simp
  have hnil : l.erase t = [] := List.eq_nil_iff_forall_not_mem.mpr fun d hd =>
    List.not_mem_nil (@mem_list_front _ _ _ [] h _ hd)
  have htb := h.linked.mem_bounds htm
  have hg := h.linked.geometry
  have := hg.self_below
  have := hg.self_ge
  have := hg.begin_aligned
  have := hg.end_room
  have := hg.size_lt
  have hfirst : t.addr = s.first := h.linked.tiles.1
  generalize hk : (⟨t.addr, 48, true⟩ : Block) = k
  have hkaddr : t.addr = k.addr := by rw [← hk]
  have hksize : k.size = 48 := by rw [← hk]
  have hkf : k.free = true := by rw [← hk]
  have harea : ∀ x, InFree [k] x → InFree [t] x := by
    rintro x ⟨d, hd, _, h1, h2⟩
    rw [List.mem_singleton.mp hd] at h1 h2
    exact ⟨t, htm, hf, by omega, by unfold Block.stop at *; omega⟩
  have hbad : ∀ c, ChangesOnly (InFree [t]) s c → checkSanity c = false → C c := fun c hch hs =>
    hC c hch.resized fun hs' => absurd hs' (by simp [hs])
  have hsame : ∀ {c : Allocator} {gs l' : List Block}, WellFormed c ([k] ++ gs) l' → Keeping [t] c := by
    refine fun hc => ⟨_, _, hc, fun d hd hdf => ?_⟩
    rw [List.mem_singleton.mp hd] at hdf
    simp [hf] at hdf
  -- off the list; until it is back `check_sanity` misses the free block there, and says no
  refine Runs.bind (Q := fun _ c => Linked c (s.segmentBegin+s.segmentSize) [t] [] ∧
      ChangesOnly (InFree [t]) s c) ?_ ?_
  · refine h.linked.runs_removeFreeBlock (h.exact t htm hf) fun c hc hch => ?_
    rw [hnil] at hc
    exact ⟨hbad c hch (hc.not_sane htm hf (by simp)), hc, hch⟩
  rintro _ c ⟨hc, hch⟩
  have hin : ∀ {d : Allocator} {m : Mem}, ChangesOnly (InFree [t]) s d →
      (∀ x, x < t.addr ∨ t.addr+48 ≤ x → m x = d.mem x) → ChangesOnly (InFree [t]) s { d with mem := m } := by
    refine fun hd hm => hd.trans (.of_mem fun x hx => hm x ?_)
    by_contra hcon
    exact hx ⟨t, htm, hf, by omega, by unfold Block.stop; omega⟩
  -- the block shrinks to 48 bytes where it is
  have hheader := (hc.headers t htm).setSize (v := 48) (by omega)
  rw [hf, hk] at hheader
  have hpush := (@Linked.take _ _ [] _ _ _ hc (hch.first_eq ▸ hfirst.symm) (by simp) (by unfold Block.stop at htb; omega)).push
    (b := k) hkaddr.symm (by omega) (by omega) (by rw [hch.limit_eq]; unfold Block.stop at *; omega)
    (fun x hx => Mem.store64_of_outside _ (by omega)) hheader
  rw [List.nil_append] at hpush
  have hch1 := hin hch (m := c.mem.store64 t.addr 48) fun x hx => Mem.store64_of_outside _ (by omega)
  refine runs_store_bind (hbad _ hch1 (hpush.not_sane (b := k) (by simp) hkf (by simp))) ?_
  have hflagged : HeaderAt ((c.mem.store64 t.addr 48).store8 (t.addr+8) true.toNat) k := by
    rw [← hk]
    exact headerAt_fresh c.mem t.addr (by omega) true
  have hflag := @Linked.rewrite _ _ k k _ [] [] _ hpush (by simp) rfl rfl
    (fun x hx => Mem.store8_of_ne _ (by unfold Block.stop at hx; omega)) hflagged
  rw [List.nil_append] at hflag
  have hch2 := hin hch1 (m := (c.mem.store64 t.addr 48).store8 (t.addr+8) true.toNat)
    fun x hx => Mem.store8_of_ne _ (by omega)
  refine runs_store_bind (hbad _ hch2 (hflag.not_sane (b := k) (by simp) hkf (by simp))) ?_
  refine Runs.bind (Q := fun _ d => Linked d k.stop [k] [] ∧ ChangesOnly (InFree [t]) s d) ?_ ?_
  · refine runs_setNextFree hflag.geometry (hkaddr ▸ hflag.inArea (b := k) (by simp)) (Or.inl rfl) fun m _ hm => ?_
    have hl3 := hflag.link_off_list (p := k) (by simp) (by simp) fun x hx => hm x (by omega)
    have hch3 := hin hch2 fun x hx => hm x (by omega)
    exact ⟨hbad _ hch3 (hl3.not_sane (b := k) (by simp) hkf (by simp)), hl3, hch3⟩
  rintro _ d ⟨hd, hchd⟩
  rw [hkaddr]
  -- back on the list: from here on a cut is accepted, and has lost nothing
  refine Runs.bind (Q := fun _ f => Linked f k.stop [k] [k] ∧ ChangesOnly (InFree [t]) s f) ?_ ?_
  · refine hd.runs_insertFreeBlock (n := k) (by simp) hkf (by simp) ?_ ?_
    · exact fun f hff hchf => hbad f (hchd.trans (hchf.mono harea)) (hff.not_sane (b := k) (by simp) hkf (by simp))
    · intro f hff hchf
      have hchf' := hchd.trans (hchf.mono harea)
      refine ⟨hC f hchf'.resized fun hs => ?_, hff, hchf'⟩
      obtain ⟨gs, hgs⟩ := Linked.wellFormed_of_sane (l := [k]) hff (List.pairwise_singleton _ _)
        (List.isChain_singleton _) hs
      exact hsame hgs
  rintro _ f ⟨hf', hchf⟩
  -- the new size of the segment is stored last
  have hbegin := hchf.begin_eq
  have hstop : k.stop = f.segmentBegin+(k.addr-s.segmentBegin+48) := by unfold Block.stop; omega
  have hlink := hf'.resize (k := k.addr-s.segmentBegin+48) (by omega) (by unfold Block.stop at htb; omega)
    (by unfold Block.stop at htb; omega) hstop.le
  have hwf : WellFormed { f with segmentSize := k.addr-s.segmentBegin+48 } [k] [k] :=
    ⟨⟨hstop ▸ hlink, fun _ hd _ => hd⟩, List.pairwise_singleton _ _, List.isChain_singleton _⟩
  have hsm : Same [t] { f with segmentSize := k.addr-s.segmentBegin+48 } := by
    refine ⟨[k], [k], hwf, fun g hg => ?_⟩
    have h1 : g ≠ k := fun heq => by rw [heq, hkf] at hg; cases hg
    have h2 : g ≠ t := fun heq => by rw [heq, hf] at hg; cases hg
    simp [h1, h2]
  have hres : ChangesOnly (InFree [t]) { s with segmentSize := k.addr-s.segmentBegin+48 }
      { f with segmentSize := k.addr-s.segmentBegin+48 } :=
    ⟨hchf.self, hchf.segmentBase, rfl, hchf.firstBlock, hchf.bytes⟩
  rw [hkaddr, show (⟨k.addr, 48, true⟩ : Block) = k from hkaddr ▸ hk] at hQ
  exact runs_store_bind (hC _ ⟨_, hres⟩ fun _ => hsm.keeping) (runs_pure (hQ _ hres hwf))

/-- What `shrink_to_fit` does: nothing, or the free last block is dropped, or a segment of one free
block is cut down to the smallest. -/
theorem runs_shrinkTo (h : WellFormed s bs l) {Q : ℕ → Allocator → Prop}
    (hC : ∀ c, Resized (InFree bs) s c → (checkSanity c = true → Keeping bs c) → C c)
    (hstay : Q s.segmentSize s)
    (hdrop : ∀ xs t, bs = xs ++ [t] → xs ≠ [] → t.free = true →
      ∀ c, ChangesOnly (InFree bs) { s with segmentSize := t.addr-s.segmentBegin } c → WellFormed c xs (l.erase t) →
        Q (t.addr-s.segmentBegin) c)
    (hkeep : ∀ t, bs = [t] → t.free = true → 48 < t.size →
      ∀ c, ChangesOnly (InFree bs) { s with segmentSize := t.addr-s.segmentBegin+48 } c →
        WellFormed c [⟨t.addr, 48, true⟩] [⟨t.addr, 48, true⟩] → Q (t.addr-s.segmentBegin+48) c) :
    shrinkToFit.Runs s C Q := by
  unfold shrinkToFit
  refine runs_get_bind ?_
  simp only [h.toSane.lastBlock_eq]
  rcases List.eq_nil_or_concat bs with rfl | ⟨xs, t, rfl⟩
  · rw [if_pos (Or.inl lastAddr_nil)]
    exact runs_pure hstay
  rw [List.concat_eq_append] at h hC hdrop hkeep ⊢
  have htm : t ∈ xs ++ [t] := by simp
  have htb := h.linked.mem_bounds htm
  have hlt := h.linked.stop_lt htm
  have hg := h.linked.geometry
  have := hg.self_below
  have := hg.self_ge
  simp only [lastAddr_append, (h.linked.headers t htm).1, (h.linked.headers t htm).isFree]
  -- an allocated block at the end keeps the size as it is
  cases hf : t.free with
  | false =>
    rw [if_pos (Or.inr rfl)]
    exact runs_pure hstay
  | true =>
    rw [if_neg (by simp [Freeing.addr_ne_zero h.linked htm])]
    have hsub : sub64 t.addr s.segmentBegin = t.addr-s.segmentBegin := by unfold sub64 Block.stop at *; omega
    cases xs with
    | nil =>
      have hfirst : t.addr = s.first := h.linked.tiles.1
      rw [if_pos hfirst]
      by_cases hsmall : t.size ≤ blockHeaderSize+alignment
      · rw [if_pos hsmall]
        exact runs_pure hstay
      · unfold blockHeaderSize alignment at *
        have hadd : add64 (sub64 t.addr s.segmentBegin) (32+16) = t.addr-s.segmentBegin+48 := by
          rw [hsub]; unfold add64 Block.stop at *; omega
        rw [if_neg hsmall, hadd, if_pos (by omega)]
        exact h.runs_shrinkKeep hf (by omega) hC (hkeep t rfl hf (by omega))
    | cons x xs =>
      have hne : t.addr ≠ s.first := by
        have hx := (@Tiles.middle _ _ _ (x :: xs) _ h.linked.tiles).1
        have hxb := hx.bounds List.mem_cons_self
        unfold Block.stop at hxb
        omega
      have hadd : add64 (sub64 t.addr s.segmentBegin) 0 = t.addr-s.segmentBegin := by
        rw [hsub]; unfold add64 Block.stop at *; omega
      rw [if_neg hne, if_neg (by omega), hadd, if_neg (by simp)]
      exact h.runs_shrinkDrop hf hC (hdrop _ t rfl (by simp) hf)

theorem runs_shrinkToFit (h : WellFormed s bs l) {Q : ℕ → Allocator → Prop}
    (hC : ∀ c, Resized (InFree bs) s c → (checkSanity c = true → Keeping bs c) → C c)
    (hQ : ∀ r c, Resized (InFree bs) s c → Same bs c → Q r c) : shrinkToFit.Runs s C Q := by
  refine h.runs_shrinkTo hC (hQ _ s (ChangesOnly.refl s).resized h.same) ?_ ?_
  · rintro xs t rfl - hf c hch hc
    refine hQ _ c ⟨_, hch⟩ ⟨xs, _, hc, fun d hd => ?_⟩
    have hne : d ≠ t := by rintro rfl; simp [hf] at hd
    simp [hne]
  · rintro t rfl hf - c hch hc
    refine hQ _ c ⟨_, hch⟩ ⟨_, _, hc, fun d hd => ?_⟩
    have h1 : d ≠ ⟨t.addr, 48, true⟩ := by rintro rfl; simp at hd
    have h2 : d ≠ t := by rintro rfl; simp [hf] at hd
    simp [h1, h2]

end WellFormed

/-- One round of `zero_free_memory`: the bytes behind the header of a free block. -/
theorem Sane.fill_free (h : Sane s bs l) (hb : b ∈ bs) (hf : b.free = true) :
    let m := s.mem.fill (add64 b.addr blockHeaderSize) (sub64 (blockSize s.mem b.addr) blockHeaderSize) 0
    Sane { s with mem := m } bs l ∧ ChangesOnly (InFree bs) s { s with mem := m } := by
  have hbb := h.linked.mem_bounds hb
  have hlt := h.linked.stop_lt hb
  have hbegin : add64 b.addr blockHeaderSize = b.addr+32 := by
    unfold add64 blockHeaderSize Block.stop at *; omega
  have hlen : sub64 (blockSize s.mem b.addr) blockHeaderSize = b.size-32 := by
    rw [(h.linked.headers b hb).1]; unfold sub64 blockHeaderSize Block.stop at *; omega
  simp only [hbegin, hlen]
  have hm : ∀ x, ¬(b.addr+32 ≤ x ∧ x < b.stop) → s.mem.fill (b.addr+32) (b.size-32) 0 x = s.mem x :=
    fun x hx => Mem.fill_of_outside _ _ (by unfold Block.stop at hx; omega)
  have haway : ∀ c ∈ bs, ∀ x, c.addr ≤ x → x < c.addr+24 → ¬(b.addr+32 ≤ x ∧ x < b.stop) := by
    intro c hc x h1 h2
    have hcb := h.linked.mem_bounds hc
    rcases h.linked.tiles.separated hb hc with rfl | hs | hs
    · omega
    · omega
    · unfold Block.stop at hs; omega
  refine ⟨⟨h.linked.frame (.of_mem hm) rfl ?_ ?_, h.exact⟩, .of_mem fun x hx => hm x fun hx' =>
    hx ⟨b, hb, hf, by omega, hx'.2⟩⟩
  · exact fun c hc x h1 h2 => haway c hc x h1 (by omega)
  · exact fun c hc x h1 h2 => haway c (h.linked.listed c hc).1 x (by omega) h2

theorem Sane.runs_zeroFreeLoop {fuel : ℕ} (h : Sane s bs (us ++ vs)) (hf : vs.length ≤ fuel) :
    (zeroFreeLoop fuel (headAddr vs)).Runs s (fun c => Sane c bs (us ++ vs) ∧ ChangesOnly (InFree bs) s c)
      (fun _ c => Sane c bs (us ++ vs) ∧ ChangesOnly (InFree bs) s c) := by
  induction vs generalizing us s fuel with
  | nil =>
    unfold zeroFreeLoop
    rw [if_pos headAddr_nil]
    exact runs_pure ⟨h, .refl s⟩
  | cons v vs ih =>
    obtain ⟨n, rfl⟩ : ∃ n, fuel = n+1 := ⟨fuel-1, by simp only [List.length_cons] at hf; omega⟩
    have hv := h.linked.listed v (by simp)
    have hpos : headAddr (v :: vs) ≠ 0 := h.linked.chain.ne_zero v.addr (by simp)
    obtain ⟨h1, hch⟩ := h.fill_free hv.1 hv.2
    unfold zeroFreeLoop
    rw [if_neg hpos]
    refine runs_store_bind ⟨h1, hch⟩ (runs_get_bind ?_)
    rw [headAddr_cons, h1.linked.chain_after.2]
    have hrun := @ih _ (us ++ [v]) n (by simpa using h1) (by simpa using hf)
    rw [List.append_assoc, List.singleton_append] at hrun
    exact hrun.mono (fun c hc => ⟨hc.1, hch.trans hc.2⟩) fun _ c hc => ⟨hc.1, hch.trans hc.2⟩

/-- `zero_free_memory` stays within the free blocks and leaves their links. -/
theorem Sane.runs_zeroFreeMemory (h : Sane s bs l) :
    zeroFreeMemory.Runs s (fun c => Sane c bs l ∧ ChangesOnly (InFree bs) s c)
      (fun _ c => Sane c bs l ∧ ChangesOnly (InFree bs) s c) := by
  unfold zeroFreeMemory
  refine runs_get_bind ?_
  rw [h.linked.chain.head_eq]
  exact @Sane.runs_zeroFreeLoop _ _ [] _ _ h h.linked.length_lt.2

end ShmNext
