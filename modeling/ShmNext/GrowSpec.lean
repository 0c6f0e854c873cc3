import ShmNext.TryExpandSpec

/-! `grow`. Once the new size is announced the rest of the segment is bytes of unknown
content; a sane reading of them has allocated blocks only. -/
namespace ShmNext
open Prog

variable {s : Allocator} {b t : Block} {bs l xs ys : List Block} {C : Allocator → Prop} {e p : ℕ} {m : Mem}

namespace Linked

/-- Forgetting the last blocks, none of which is on the list. -/
theorem take (h : Linked s e (xs ++ ys) l) (hp : Tiles s.first p xs) (hl : ∀ b ∈ l, b ∈ xs) (hpe : p ≤ e) :
    Linked s p xs l :=
  ⟨h.geometry, hp, hpe.trans h.le_end, fun b hb => h.headers b (List.mem_append_left _ hb), h.chain,
    fun b hb => ⟨hl b hb, (h.listed b hb).2⟩⟩

/-- A header written behind the known blocks. -/
theorem push (h : Linked s e bs l) (hb : b.addr = e) (h32 : 32 ≤ b.size) (h16 : b.size%16 = 0)
    (hend : b.stop ≤ s.segmentBegin+s.segmentSize) (hm : ∀ x, x < e → m x = s.mem x) (hh : HeaderAt m b) :
    Linked { s with mem := m } b.stop (bs ++ [b]) l := by
  have hlt : ∀ c ∈ bs, ∀ x, x < c.stop → m x = s.mem x := fun c hc x hx =>
    hm x (lt_of_lt_of_le hx (h.tiles.bounds hc).2.1)
  refine ⟨h.geometry.congr rfl rfl rfl rfl, h.tiles.append ⟨hb, h32, h16, by unfold Block.stop; rw [hb]; rfl⟩,
    hend, ?_, ?_, fun c hc => ⟨List.mem_append_left _ (h.listed c hc).1, (h.listed c hc).2⟩⟩
  · intro c hc
    rcases List.mem_append.mp hc with hc | hc
    · have := (h.tiles.bounds hc).2.2.1
      exact (h.headers c hc).congr fun x _ hx => hlt c hc x (by unfold Block.stop; omega)
    · rw [List.mem_singleton.mp hc]
      exact hh
  · refine h.chain.congr fun a ha => ?_
    obtain ⟨c, hc, rfl⟩ := List.mem_map.mp ha
    have hcb := (h.listed c hc).1
    have := (h.tiles.bounds hcb).2.2.1
    exact nextFree_congr fun x _ hx => hlt c hcb x (by unfold Block.stop; omega)

/-- Bytes behind the known blocks do not matter. -/
theorem beyond (h : Linked s e bs l) (hm : ∀ x, x < e → m x = s.mem x) : Linked { s with mem := m } e bs l := by
  refine h.frame (W := fun x => e ≤ x) (.of_mem fun x hx => hm x (by omega)) rfl ?_ ?_
  · intro b hb x _ hx
    have := h.tiles.bounds hb
    unfold Block.stop at this
    omega
  · intro b hb x _ hx
    have := h.tiles.bounds (h.listed b hb).1
    unfold Block.stop at this
    omega

/-- Another segment size that the known blocks still fit. -/
theorem resize (h : Linked s e bs l) {k : ℕ} (hk : k%16 = 0) (hroom : s.segmentBegin+k+48 ≤ 2^64) (hk' : k < 2^63)
    (he : e ≤ s.segmentBegin+k) : Linked { s with segmentSize := k } e bs l :=
  ⟨⟨h.geometry.1, h.geometry.2, hk, h.geometry.4, h.geometry.5, h.geometry.6, h.geometry.7, hroom, hk'⟩, h.tiles, he,
    h.headers, h.chain, h.listed⟩

end Linked

/-- The bytes `grow` may write: free ones, and those behind the old end. -/
def InGrown (s : Allocator) (bs : List Block) (x : ℕ) : Prop :=
  InFree bs x ∨ s.segmentBegin+s.segmentSize ≤ x

/-- `s` with another segment size and other bytes within `W`. -/
def Resized (W : ℕ → Prop) (s c : Allocator) : Prop := ∃ k, ChangesOnly W { s with segmentSize := k } c

theorem ChangesOnly.resized {W : ℕ → Prop} {c : Allocator} (h : ChangesOnly W s c) : Resized W s c :=
  ⟨s.segmentSize, h⟩

theorem Resized.trans {W : ℕ → Prop} {c d : Allocator} (h : Resized W s c) (h' : ChangesOnly W c d) :
    Resized W s d :=
  ⟨h.choose, h.choose_spec.trans h'⟩

/-- Well formed, with all allocated blocks of before. -/
def Keeping (bs : List Block) (c : Allocator) : Prop :=
  ∃ bs' l', WellFormed c bs' l' ∧ ∀ b ∈ bs, b.free = false → b ∈ bs'

/-- Well formed, with the allocated blocks of before and no others. -/
def Same (bs : List Block) (c : Allocator) : Prop :=
  ∃ bs' l', WellFormed c bs' l' ∧ AllocatedAre bs' (· ∈ bs)

theorem Same.keeping {c : Allocator} (h : Same bs c) : Keeping bs c := by
  obtain ⟨bs', l', hc, hall⟩ := h
  exact ⟨bs', l', hc, fun b hb hf => (hall b hf).mpr hb⟩

theorem WellFormed.same (h : WellFormed s bs l) : Same bs s := ⟨bs, l, h, fun _ _ => Iff.rfl⟩

namespace WellFormed

/-- Putting the free last block back on the list completes the invariant. -/
theorem of_listLast {c : Allocator} (hc : Linked c (c.segmentBegin+c.segmentSize) (xs ++ [t]) (insertBySize t l))
    (hf : t.free = true) (hex : ∀ d ∈ xs, d.free = true → d ∈ l) (hs : l.Pairwise Block.SizeAddrLt)
    (hx : Coalesced xs) (hlast : ∀ x ∈ xs.getLast?, x.free = false) :
    WellFormed c (xs ++ [t]) (insertBySize t l) := by
  refine ⟨⟨hc, ?_⟩, insertBySize_sorted hs fun d hd heq => ?_,
    (Coalesced.free_middle hf).mpr ⟨hx, List.isChain_nil, hlast, by simp⟩⟩
  · intro d hd hdf
    rw [mem_insertBySize]
    rcases List.mem_append.mp hd with hd | hd
    · exact Or.inr (hex d hd hdf)
    · exact Or.inl (List.mem_singleton.mp hd)
  · have hnd := hc.chain.nodup
    rw [(insertBySize_perm.map Block.addr).nodup_iff, List.map_cons, List.nodup_cons] at hnd
    exact hnd.1 (heq ▸ List.mem_map_of_mem hd)

/-- A free last block of another size changes no allocated one. -/
theorem same_of_last {c : Allocator} {l' : List Block} (hc : WellFormed c (xs ++ [t]) l') (ht : t.free = true)
    (hbs : ∀ d : Block, d.free = false → (d ∈ bs ↔ d ∈ xs)) : Same bs c := by
  refine ⟨_, l', hc, fun d hd => ?_⟩
  have hne : d ≠ t := by rintro rfl; simp [ht] at hd
  simp [hbs d hd, hne]

/-- The segment with a larger announced size: whatever stands behind the old end. -/
theorem linked_resize (h : WellFormed s bs l) {k : ℕ} (hk : k%16 = 0) (hroom : s.segmentBegin+k+48 ≤ 2^64)
    (hk' : k < 2^63) (hle : s.segmentSize ≤ k) :
    Linked { s with segmentSize := k } (s.segmentBegin+s.segmentSize) bs l :=
  h.linked.resize hk hroom hk' (by omega)

theorem keeping_of_sane {c : Allocator} (h : WellFormed s bs l) (hc : Linked c e bs l)
    (hs : checkSanity c = true) : Keeping bs c := by
  obtain ⟨gs, hg⟩ := hc.wellFormed_of_sane h.sorted h.coalesced hs
  exact ⟨_, l, hg, fun b hb _ => List.mem_append_left _ hb⟩

/-- `grow` where the last block is free: it leaves the list, takes the extra size, and returns. -/
theorem runs_growTail {k : ℕ} (h : WellFormed s (xs ++ [t]) l) (hf : t.free = true)
    (hlink : Linked { s with segmentSize := k } (s.segmentBegin+s.segmentSize) (xs ++ [t]) l)
    (hk : s.segmentSize ≤ k) (h16 : k%16 = 0) {α : Type} {r : Op α} {Q : α → Allocator → Prop}
    (hC : ∀ c, ChangesOnly (InGrown s (xs ++ [t])) { s with segmentSize := k } c → (checkSanity c = true → Same (xs ++ [t]) c) → C c)
    (hQ : ∀ c, ChangesOnly (InGrown s (xs ++ [t])) { s with segmentSize := k } c → Same (xs ++ [t]) c → r.Runs c C Q) :
    (do
      removeFreeBlock t.addr
      let c ← Prog.get
      setSize t.addr (add64 (blockSize c.mem t.addr) (k-s.segmentSize))
      insertFreeBlock t.addr
      r).Runs { s with segmentSize := k } C Q := by
  have htm : t ∈ xs ++ [t] := by simp
  have htl : t ∈ l := h.exact t htm hf
  have htb := hlink.mem_bounds htm
  obtain ⟨htx, hte⟩ := hlink.tiles.middle
  have hte' : t.stop = s.segmentBegin+s.segmentSize := hte
  have hnd := h.linked.nodup
  have hoff : t ∉ l.erase t := fun hm => (hnd.mem_erase_iff.mp hm).1 rfl
  have hbad : ∀ c, ChangesOnly (InGrown s (xs ++ [t])) { s with segmentSize := k } c → checkSanity c = false → C c := fun c hch hs =>
    hC c hch fun hs' => by rw [hs] at hs'; cases hs'
  have hxs : ∀ d ∈ l.erase t, d ∈ xs := fun d hd => by
    have hd' := hnd.mem_erase_iff.mp hd
    have := (hlink.listed d hd'.2).1
    simp only [List.mem_append, List.mem_singleton, hd'.1, or_false] at this
    exact this
  -- off the list; until it is back `check_sanity` misses the free block there, and says no
  refine Runs.bind (Q := fun _ c => Linked c (s.segmentBegin+s.segmentSize) (xs ++ [t]) (l.erase t) ∧
      ChangesOnly (InGrown s (xs ++ [t])) { s with segmentSize := k } c) ?_ ?_
  · refine hlink.runs_removeFreeBlock htl fun c hc hch => ?_
    have hch' := @ChangesOnly.mono _ (InGrown s (xs ++ [t])) _ _ hch fun x => Or.inl
    exact ⟨hbad c hch' (hc.not_sane htm hf hoff), hc, hch'⟩
  rintro _ c ⟨hc, hch⟩
  refine runs_get_bind ?_
  have hend : s.segmentBegin+k < 2^64 := hlink.geometry.end_lt
  -- the block takes the new range: it was the last one, and now ends where the segment does
  have hsum : add64 (blockSize c.mem t.addr) (k-s.segmentSize) = t.size+(k-s.segmentSize) := by
    rw [(hc.headers t htm).1]
    unfold add64 Block.stop at *
    omega
  rw [hsum]
  have hprefix : Linked c t.addr xs (l.erase t) :=
    hc.take (hch.first_eq ▸ htx) hxs (by unfold Block.stop at hte'; omega)
  have hheader := (hc.headers t htm).setSize (v := t.size+(k-s.segmentSize)) (by unfold Block.stop at *; omega)
  rw [hf] at hheader
  have hlimit : c.segmentBegin+c.segmentSize = s.segmentBegin+k := hch.limit_eq
  have hpush := hprefix.push (b := ⟨t.addr, t.size+(k-s.segmentSize), true⟩) rfl (by simp only; omega)
    (by have := h.linked.geometry.size_aligned; simp only; omega)
    (by rw [hlimit]; unfold Block.stop at *; simp only; omega)
    (fun x hx => Mem.store64_of_outside _ (by omega)) hheader
  have htoff : (⟨t.addr, t.size+(k-s.segmentSize), true⟩ : Block) ∉ l.erase t := fun hm => by
    have hb := htx.bounds (hxs _ hm)
    unfold Block.stop at hb
    simp only at hb
    omega
  have hch' : ChangesOnly (InGrown s (xs ++ [t])) { s with segmentSize := k } { c with mem := c.mem.store64 t.addr (t.size+(k-s.segmentSize)) } := by
    refine hch.trans (.of_mem fun x hx => Mem.store64_of_outside _ ?_)
    by_contra hcon
    exact hx (Or.inl ⟨t, htm, hf, by omega, by unfold Block.stop; omega⟩)
  have harea : ∀ x, InFree (xs ++ [⟨t.addr, t.size+(k-s.segmentSize), true⟩]) x →
      InGrown s (xs ++ [t]) x := by
    rintro x ⟨d, hd, hdf, h1, h2⟩
    rcases List.mem_append.mp hd with hd | hd
    · exact Or.inl ⟨d, by simp [hd], hdf, h1, h2⟩
    · rw [List.mem_singleton.mp hd] at h1
      by_cases hx : x < t.stop
      · exact Or.inl ⟨t, htm, hf, h1, hx⟩
      · exact Or.inr (by omega)
  refine runs_store_bind (hbad _ hch' (hpush.not_sane (b := ⟨t.addr, _, true⟩) (by simp) rfl htoff)) ?_
  -- back on the list, where its new size belongs
  refine Runs.bind (Q := fun _ d => ChangesOnly (InGrown s (xs ++ [t])) { s with segmentSize := k } d ∧ Same (xs ++ [t]) d) ?_ fun _ d hd => hQ d hd.1 hd.2
  refine hpush.runs_insertFreeBlock (n := ⟨t.addr, t.size+(k-s.segmentSize), true⟩) (by simp) rfl htoff ?_ ?_
  · exact fun d hd hchd => hbad d (hch'.trans (hchd.mono harea)) (hd.not_sane (b := ⟨t.addr, _, true⟩) (by simp) rfl htoff)
  · intro d hd hchd
    have hchd' := hch'.trans (hchd.mono harea)
    have hex : ∀ f ∈ xs, f.free = true → f ∈ l.erase t := by
      intro f hfx hff
      refine hnd.mem_erase_iff.mpr ⟨?_, h.exact f (by simp [hfx]) hff⟩
      rintro rfl
      have hb := htx.bounds hfx
      unfold Block.stop at hb
      omega
    obtain ⟨hcx, -, hlast, -⟩ := (Coalesced.free_middle hf).mp h.coalesced
    have hdl : Linked d (d.segmentBegin+d.segmentSize) (xs ++ [⟨t.addr, t.size+(k-s.segmentSize), true⟩])
        (insertBySize ⟨t.addr, t.size+(k-s.segmentSize), true⟩ (l.erase t)) := by
      have he : (⟨t.addr, t.size+(k-s.segmentSize), true⟩ : Block).stop = d.segmentBegin+d.segmentSize := by
        rw [hchd'.limit_eq]
        change t.addr+(t.size+(k-s.segmentSize)) = s.segmentBegin+k
        unfold Block.stop at hte'
        omega
      rw [← he]
      exact hd
    have hwf := of_listLast hdl rfl hex (h.sorted.sublist List.erase_sublist) hcx hlast
    have hsame : Same (xs ++ [t]) d := hwf.same_of_last rfl fun f hff => by
      have hne : f ≠ t := by rintro rfl; simp [hf] at hff
      simp [hne]
    exact ⟨hC d hchd' fun _ => hsame, hchd', hsame⟩

/-- `grow` where the last block is allocated: a free block over the extra range. -/
theorem runs_growBlock {k : ℕ} (h : WellFormed s bs l)
    (hlink : Linked { s with segmentSize := k } (s.segmentBegin+s.segmentSize) bs l)
    (hlast : ∀ b ∈ bs.getLast?, b.free = false) (hk : s.segmentSize+48 ≤ k) (h16 : k%16 = 0)
    {α : Type} {r : Op α} {Q : α → Allocator → Prop}
    (hC : ∀ c, ChangesOnly (InGrown s bs) { s with segmentSize := k } c → (checkSanity c = true → Keeping bs c) → C c)
    (hQ : ∀ c, ChangesOnly (InGrown s bs) { s with segmentSize := k } c → Same bs c → r.Runs c C Q) :
    (do
      setSize (s.segmentBegin+s.segmentSize) (k-s.segmentSize)
      setIsFree (s.segmentBegin+s.segmentSize) true
      setNextFree (s.segmentBegin+s.segmentSize) 0
      insertFreeBlock (s.segmentBegin+s.segmentSize)
      r).Runs { s with segmentSize := k } C Q := by
  have hend : s.segmentBegin+k < 2^64 := hlink.geometry.end_lt
  have hk' : k < 2^63 := hlink.geometry.size_lt
  have halign := h.linked.tiles.end_aligned h.linked.geometry.first_aligned
  have hfirst := h.linked.first_le
  have hsz := h.linked.geometry.size_aligned
  generalize hnb : (⟨s.segmentBegin+s.segmentSize, k-s.segmentSize, true⟩ : Block) = nb
  have haddr : s.segmentBegin+s.segmentSize = nb.addr := by rw [← hnb]
  have hnsize : nb.size = k-s.segmentSize := by rw [← hnb]
  have hfree : nb.free = true := by rw [← hnb]
  have hnoff : nb ∉ l := fun hm => by
    have hb := h.linked.mem_bounds (h.linked.listed nb hm).1
    unfold Block.stop at hb
    omega
  have hbad : ∀ c, ChangesOnly (InGrown s bs) { s with segmentSize := k } c → checkSanity c = false → C c := fun c hch hs =>
    hC c hch fun hs' => by rw [hs] at hs'; cases hs'
  have hbehind : ∀ {c : Allocator} {m : Mem}, ChangesOnly (InGrown s bs) { s with segmentSize := k } c → (∀ x, x < s.segmentBegin+s.segmentSize → m x = c.mem x) →
      ChangesOnly (InGrown s bs) { s with segmentSize := k }
        { c with mem := m } := fun hch hm => hch.trans (.of_mem fun x hx => hm x (not_le.mp (not_or.mp hx).2))
  have harea : ∀ x, InFree (bs ++ [nb]) x → InGrown s bs x := by
    rintro x ⟨d, hd, hdf, h1, h2⟩
    rcases List.mem_append.mp hd with hd | hd
    · exact Or.inl ⟨d, hd, hdf, h1, h2⟩
    · rw [List.mem_singleton.mp hd] at h1
      exact Or.inr (by omega)
  have hnb' : (⟨nb.addr, k-s.segmentSize, true⟩ : Block) = nb := by rw [← hnb]
  rw [haddr]
  -- the size alone: still unknown bytes behind the old end
  have hm1 : ∀ x, x < s.segmentBegin+s.segmentSize → s.mem.store64 nb.addr (k-s.segmentSize) x = s.mem x :=
    fun x hx => Mem.store64_of_outside _ (by omega)
  have hl1 := hlink.beyond hm1
  have hch1 := hbehind (.refl _) hm1
  refine runs_store_bind (hC _ hch1 fun hs => h.keeping_of_sane hl1 hs) ?_
  -- with the flag the new block is known, and missing on the list
  have hh := headerAt_fresh s.mem nb.addr (v := k-s.segmentSize) (by omega) true
  rw [hnb'] at hh
  have hstop : nb.stop = s.segmentBegin+k := by unfold Block.stop; omega
  have hl2 := hl1.push (b := nb) haddr.symm (by omega) (by omega) hstop.le
    (fun x hx => Mem.store8_of_ne _ (by omega)) hh
  have hch2 := hbehind hch1 (m := (s.mem.store64 nb.addr (k-s.segmentSize)).store8 (nb.addr+8) true.toNat)
    fun x hx => Mem.store8_of_ne _ (by omega)
  refine runs_store_bind (hbad _ hch2 (hl2.not_sane (b := nb) (by simp) hfree hnoff)) ?_
  refine Runs.bind (Q := fun _ c => Linked c nb.stop (bs ++ [nb]) l ∧
      ChangesOnly (InGrown s bs) { s with segmentSize := k } c) ?_ ?_
  · refine runs_setNextFree hl2.geometry (hl2.inArea (b := nb) (by simp)) (Or.inl rfl) fun m _ hm => ?_
    have hl3 := hl2.link_off_list (p := nb) (by simp) hnoff hm
    have hch3 := hbehind hch2 fun x hx => hm x (by omega)
    exact ⟨hbad _ hch3 (hl3.not_sane (b := nb) (by simp) hfree hnoff), hl3, hch3⟩
  rintro _ c ⟨hc, hch⟩
  refine Runs.bind (Q := fun _ d => ChangesOnly (InGrown s bs) { s with segmentSize := k } d ∧ Same bs d) ?_
    fun _ d hd => hQ d hd.1 hd.2
  refine hc.runs_insertFreeBlock (n := nb) (by simp) hfree hnoff ?_ ?_
  · exact fun d hd hchd => hbad d (hch.trans (hchd.mono harea)) (hd.not_sane (b := nb) (by simp) hfree hnoff)
  · intro d hd hchd
    have hchd' := hch.trans (hchd.mono harea)
    have he : nb.stop = d.segmentBegin+d.segmentSize := by rw [hchd'.limit_eq, hstop]; rfl
    have hwf := of_listLast (he ▸ hd) hfree h.exact h.sorted h.coalesced hlast
    have hsame : Same bs d := hwf.same_of_last hfree fun _ _ => Iff.rfl
    exact ⟨hC d hchd' fun _ => hsame.keeping, hchd', hsame⟩

/-- `grow`, for sizes the address space and `OffsetPtr` can hold. It refuses and changes nothing, or
the segment ends at the new size, rounded down, and a new last block is no smaller than any other. -/
theorem runs_growTo {n : ℕ} (h : WellFormed s bs l) (hroom : s.segmentBegin+n+48 ≤ 2^64) (hn : n < 2^63)
    {Q : Bool → Allocator → Prop}
    (hC : ∀ c, Resized (InGrown s bs) s c → (checkSanity c = true → Keeping bs c) → C c)
    (hstay : n/16*16 ≤ s.segmentSize ∨ (∀ b ∈ bs.getLast?, b.free = false) ∧ n/16*16 < s.segmentSize+48 → Q false s)
    (hgrow : s.segmentSize < n/16*16 → ((∀ b ∈ bs.getLast?, b.free = false) → s.segmentSize+48 ≤ n/16*16) →
      ∀ c, ChangesOnly (InGrown s bs) { s with segmentSize := n/16*16 } c → Same bs c → Q true c) :
    (grow n).Runs s C Q := by
  have hdown : alignDown n alignment = n/16*16 := alignDown_eq (k := 4) (by omega) (by omega)
  have hsz := h.linked.geometry.size_aligned
  have hg := h.linked.geometry.size_lt
  unfold grow
  refine runs_get_bind ?_
  simp only [hdown]
  -- no more than there is
  by_cases hle : n/16*16 ≤ s.segmentSize
  · rw [if_pos hle]
    exact runs_pure (hstay (Or.inl hle))
  rw [if_neg hle]
  have hlink := h.linked_resize (k := n/16*16) (Nat.mul_mod_left _ _) (by omega) (by omega) (by omega)
  have hsub : sub64 (n/16*16) s.segmentSize = n/16*16-s.segmentSize := by unfold sub64; omega
  refine runs_store_bind (hC _ ⟨_, .refl _⟩ fun hs => h.keeping_of_sane hlink hs) (runs_get_bind ?_)
  have htail : physicalPrevious { s with segmentSize := n/16*16 } s.segmentEnd = lastAddr bs := by
    rw [h.linked.geometry.segmentEnd_eq]
    exact @Linked.physicalPrevious_eq _ _ _ _ [] _ (by simpa using hlink) hlink.tiles rfl
  simp only [htail, hsub]
  -- a free last block takes the new range, else the range becomes a block, if a block fits there
  by_cases hfree : ∃ xs t, bs = xs ++ [t] ∧ t.free = true
  · obtain ⟨xs, t, rfl, hf⟩ := hfree
    have htm : t ∈ xs ++ [t] := by simp
    rw [lastAddr_append, if_pos ⟨Freeing.addr_ne_zero h.linked htm, by rw [(h.linked.headers t htm).isFree, hf]⟩]
    refine h.runs_growTail hf hlink (by omega) (Nat.mul_mod_left _ _) ?_ ?_
    · exact fun c hch hc => hC c ⟨_, hch⟩ fun hs => (hc hs).keeping
    · refine fun c hch hc => runs_pure (hgrow (by omega) (fun hlast => ?_) c hch hc)
      have := hlast t (by simp)
      rw [hf] at this
      cases this
  · have hlast : ∀ b ∈ bs.getLast?, b.free = false := by
      intro b hb
      obtain ⟨xs, rfl⟩ := List.getLast?_eq_some_iff.mp hb
      simpa using fun hf => hfree ⟨xs, b, rfl, hf⟩
    rw [if_neg]
    · by_cases hext : n/16*16-s.segmentSize < blockHeaderSize+alignment
      · rw [if_pos hext]
        -- no room for a header and a granule: the size is put back
        refine runs_store_bind (hC s (ChangesOnly.refl s).resized fun _ => h.same.keeping)
          (runs_pure (hstay (Or.inr ⟨hlast, ?_⟩)))
        unfold blockHeaderSize alignment at hext
        omega
      · have hext' : s.segmentSize+48 ≤ n/16*16 := by
          unfold blockHeaderSize alignment at hext
          omega
        rw [if_neg hext, h.linked.geometry.segmentEnd_eq]
        refine h.runs_growBlock hlink hlast hext' (Nat.mul_mod_left _ _) ?_ ?_
        · exact fun c hch hc => hC c ⟨_, hch⟩ hc
        · exact fun c hch hc => runs_pure (hgrow (by omega) (fun _ => hext') c hch hc)
    · rcases List.eq_nil_or_concat bs with rfl | ⟨xs, t, rfl⟩
      · simp
      · rw [List.concat_eq_append] at *
        rw [lastAddr_append, (h.linked.headers t (by simp)).isFree, hlast t (by simp)]
        simp

theorem runs_grow {n : ℕ} (h : WellFormed s bs l) (hroom : s.segmentBegin+n+48 ≤ 2^64) (hn : n < 2^63)
    {Q : Bool → Allocator → Prop}
    (hC : ∀ c, Resized (InGrown s bs) s c → (checkSanity c = true → Keeping bs c) → C c)
    (hQ : ∀ r c, Resized (InGrown s bs) s c → Same bs c → Q r c) : (grow n).Runs s C Q :=
  h.runs_growTo hroom hn hC (fun _ => hQ _ s (ChangesOnly.refl s).resized h.same)
    fun _ _ c hch hc => hQ _ c ⟨_, hch⟩ hc

end WellFormed

end ShmNext
