import ShmNext.BlockWalks

/-! Splitting, merging and resizing blocks that are off the free list. -/
namespace ShmNext
open Prog

variable {s : Allocator} {e used : ℕ} {b b' n : Block} {bs l xs ys : List Block}
  {C : Allocator → Prop} {Q : Unit → Allocator → Prop} {m : Mem}

theorem HeaderAt.setSize (h : HeaderAt m b) {v : ℕ} (hv : v < 2^64) :
    HeaderAt (m.store64 b.addr v) ⟨b.addr, v, b.free⟩ := by
  refine ⟨Mem.load64_store64 _ _ _ hv, ?_⟩
  rw [← h.2]
  unfold isFreeByte
  simp only
  rw [Mem.store64_of_outside _ (by omega)]

theorem HeaderAt.setIsFree (h : HeaderAt m b) (f : Bool) :
    HeaderAt (m.store8 (b.addr+8) f.toNat) ⟨b.addr, b.size, f⟩ := by
  refine ⟨?_, ?_⟩
  · rw [← h.1]
    exact Mem.load64_store8_of_disjoint _ (by simp only; omega)
  · unfold isFreeByte
    simp only [Mem.store8_self]
    rfl

/-- A header written over bytes of any content. -/
theorem headerAt_fresh (m : Mem) (a : ℕ) {v : ℕ} (hv : v < 2^64) (f : Bool) :
    HeaderAt ((m.store64 a v).store8 (a+8) f.toNat) ⟨a, v, f⟩ := by
  refine ⟨?_, Mem.store8_self _ _ _⟩
  unfold blockSize
  rw [Mem.load64_store8_of_disjoint _ (by simp only; omega), Mem.load64_store64 _ _ _ hv]

/-- What `split_allocated_block` leaves of the block. -/
def lowPart (b : Block) (used : ℕ) : Block :=
  ⟨b.addr, if b.size < used+48 then b.size else used, b.free⟩

/-- The free block it cuts off, if any. -/
def restPart (b : Block) (used : ℕ) : List Block :=
  if b.size < used+48 then [] else [⟨b.addr+used, b.size-used, true⟩]

/-- The free list after the split. -/
def relist (b : Block) (used : ℕ) (l : List Block) : List Block :=
  (restPart b used).foldr insertBySize l

/-- The bytes a split may write, beside those of the free blocks: the size of the
block and all of the part that is cut off. -/
def InSplit (bs : List Block) (b : Block) (used x : ℕ) : Prop :=
  InFree bs x ∨ (b.addr ≤ x ∧ x < b.addr+8) ∨ (b.addr+used ≤ x ∧ x < b.stop)

namespace Linked

theorem stop_lt (h : Linked s e bs l) (hb : b ∈ bs) : b.stop < 2^64 := by
  have h1 := (h.mem_bounds hb).2.1
  have h2 := h.geometry.end_lt
  omega

/-- Rewriting the header, and bytes behind it, of a block that is off the list. -/
theorem rewrite (h : Linked s e (xs ++ b :: ys) l) (hb : b ∉ l) (ha : b'.addr = b.addr)
    (hs : b'.size = b.size) (hm : ∀ x, x < b.addr ∨ b.stop ≤ x → m x = s.mem x)
    (hh : HeaderAt m b') : Linked { s with mem := m } e (xs ++ b' :: ys) l := by
  obtain ⟨hx, hy⟩ := h.tiles.middle
  have hbb := h.tiles.bounds (show b ∈ xs ++ b :: ys by simp)
  have hr := @Linked.replace s e l xs [b] ys [b'] _ _ m (by simpa using h) hx hy
    (by simpa using hb) hm ⟨ha, by omega, by omega, by unfold Block.stop; rw [Tiles.nil_iff, hs]⟩ (by simpa using hh)
  simpa using hr

/-- Bytes behind the header of a block that is off the list do not matter. -/
theorem inside (h : Linked s e (xs ++ b :: ys) l) (hb : b ∉ l)
    (hm : ∀ x, x < b.addr+9 ∨ b.stop ≤ x → m x = s.mem x) :
    Linked { s with mem := m } e (xs ++ b :: ys) l :=
  h.rewrite hb rfl rfl (fun x hx => hm x (by omega))
    ((h.headers b (by simp)).congr fun x _ h2 => hm x (Or.inl h2))

theorem cut (h : Linked s e (xs ++ b :: ys) l) (hb : b ∉ l) (hu : 32 ≤ used) (h16 : used%16 = 0)
    (hr : used+32 ≤ b.size) (hm : ∀ x, x < b.addr ∨ b.stop ≤ x → m x = s.mem x)
    (h1 : HeaderAt m ⟨b.addr, used, b.free⟩) (h2 : HeaderAt m ⟨b.addr+used, b.size-used, true⟩) :
    Linked { s with mem := m } e
      (xs ++ ⟨b.addr, used, b.free⟩ :: ⟨b.addr+used, b.size-used, true⟩ :: ys) l := by
  obtain ⟨hx, hy⟩ := h.tiles.middle
  have hbb := h.tiles.bounds (show b ∈ xs ++ b :: ys by simp)
  have hr := @Linked.replace s e l xs [b] ys
    [⟨b.addr, used, b.free⟩, ⟨b.addr+used, b.size-used, true⟩] _ _ m (by simpa using h) hx hy
    (by simpa using hb) hm
    ⟨rfl, hu, h16, rfl, by simp only; omega, by simp only; omega, by unfold Block.stop; simp only [Tiles.nil_iff]; omega⟩
    (by
      intro c hc
      simp only [List.mem_cons, List.not_mem_nil, or_false] at hc
      rcases hc with rfl | rfl
      · exact h1
      · exact h2)
  simpa using hr

/-- Two neighbours off the list become one. -/
theorem join (h : Linked s e (xs ++ b :: n :: ys) l) (hb : b ∉ l) (hn : n ∉ l)
    (hm : ∀ x, x < b.addr ∨ n.stop ≤ x → m x = s.mem x) (hh : HeaderAt m ⟨b.addr, b.size+n.size, b.free⟩) :
    Linked { s with mem := m } e (xs ++ ⟨b.addr, b.size+n.size, b.free⟩ :: ys) l := by
  obtain ⟨hx, hy⟩ := h.tiles.middle
  obtain ⟨hna, hn2, hn3, hy⟩ := hy
  have hbb := h.tiles.bounds (show b ∈ xs ++ b :: n :: ys by simp)
  have hstop : n.stop = b.stop+n.size := by unfold Block.stop at *; omega
  have hr := @Linked.replace s e l xs [b, n] ys [⟨b.addr, b.size+n.size, b.free⟩] _ _ m
    (by simpa using h) hx (by rw [hstop]; exact hy) (by simp [hb, hn]) hm
    ⟨rfl, by simp only; omega, by simp only; omega, by unfold Block.stop at *; simp only [Tiles.nil_iff]; omega⟩
    (by simpa using hh)
  simpa using hr

end Linked

/-- Bytes of an allocated block behind its header are nobody else's. -/
theorem Sane.inside (h : Sane s bs l) (hb : b ∈ bs) (hf : b.free = false)
    (hm : ∀ x, x < b.addr+9 ∨ b.stop ≤ x → m x = s.mem x) : Sane { s with mem := m } bs l := by
  obtain ⟨xs, ys, rfl⟩ := List.append_of_mem hb
  refine ⟨h.linked.inside (fun hl => ?_) hm, h.exact⟩
  have := (h.linked.listed b hl).2
  simp [hf] at this

theorem Sane.counters {s' : Allocator} (h : Sane s bs l) (hc : CountersOnly s s') : Sane s' bs l :=
  ⟨(hc.changes (W := fun _ => False)).limit_eq ▸ h.linked.counters hc, h.exact⟩

theorem WellFormed.counters {s' : Allocator} (h : WellFormed s bs l) (hc : CountersOnly s s') :
    WellFormed s' bs l :=
  ⟨h.toSane.counters hc, h.sorted, h.coalesced⟩

section parts
variable {r : Block}

@[simp] theorem lowPart_addr : (lowPart b used).addr = b.addr := rfl

@[simp] theorem lowPart_free : (lowPart b used).free = b.free := rfl

theorem lowPart_bounds (h : used ≤ b.size) :
    b.addr+used ≤ (lowPart b used).stop ∧ (lowPart b used).stop ≤ b.stop := by
  unfold lowPart Block.stop
  simp only
  split_ifs <;> omega

theorem mem_restPart : r ∈ restPart b used ↔ used+48 ≤ b.size ∧ r = ⟨b.addr+used, b.size-used, true⟩ := by
  unfold restPart
  split_ifs with h
  · simp; omega
  · simp; omega

theorem mem_relist : r ∈ relist b used l ↔ r ∈ restPart b used ∨ r ∈ l := by
  unfold relist restPart
  split_ifs with h
  · simp
  · simp [mem_insertBySize]

theorem relist_sorted (h : l.Pairwise Block.SizeAddrLt) (hnd : ((relist b used l).map Block.addr).Nodup) :
    (relist b used l).Pairwise Block.SizeAddrLt := by
  unfold relist restPart at *
  split_ifs at * with hr
  · exact h
  · refine insertBySize_sorted h fun c hc heq => ?_
    rw [List.foldr_cons, List.foldr_nil, (insertBySize_perm.map Block.addr).nodup_iff, List.map_cons,
      List.nodup_cons] at hnd
    exact hnd.1 (heq ▸ List.mem_map_of_mem hc)

end parts

theorem inFree_inSplit {x : ℕ}
    (hx : InFree (xs ++ ⟨b.addr, used, b.free⟩ :: ⟨b.addr+used, b.size-used, true⟩ :: ys) x)
    (hle : used ≤ b.size) : InSplit (xs ++ b :: ys) b used x := by
  obtain ⟨c, hc, hf, h1, h2⟩ := hx
  simp only [List.mem_append, List.mem_cons] at hc
  rcases hc with hc | rfl | rfl | hc
  · exact Or.inl ⟨c, by simp [hc], hf, h1, h2⟩
  · refine Or.inl ⟨b, by simp, hf, h1, ?_⟩
    unfold Block.stop at *
    simp only at h2
    omega
  · refine Or.inr (Or.inr ⟨h1, ?_⟩)
    unfold Block.stop at *
    simp only at h2
    omega
  · exact Or.inl ⟨c, by simp [hc], hf, h1, h2⟩

/-- `split_allocated_block` on a block off the list. Until the store of its size the
blocks are as before; from then on the rest is a free block, on the list at the end only. -/
theorem Linked.runs_splitAllocatedBlock (h : Linked s e (xs ++ b :: ys) l) (hb : b ∉ l) (hu : 32 ≤ used)
    (h16 : used%16 = 0) (hle : used ≤ b.size)
    (hstay : ∀ c, Linked c e (xs ++ b :: ys) l → ChangesOnly (InSplit (xs ++ b :: ys) b used) s c → C c)
    (hoff : ∀ c, Linked c e (xs ++ ⟨b.addr, used, b.free⟩ :: ⟨b.addr+used, b.size-used, true⟩ :: ys) l →
      ⟨b.addr+used, b.size-used, true⟩ ∉ l → ChangesOnly (InSplit (xs ++ b :: ys) b used) s c → C c)
    (hk : ∀ c, Linked c e (xs ++ lowPart b used :: (restPart b used ++ ys)) (relist b used l) →
      ChangesOnly (InSplit (xs ++ b :: ys) b used) s c → C c ∧ Q () c) :
    (splitAllocatedBlock b.addr used).Runs s C Q := by
  have hbm : b ∈ xs ++ b :: ys := by simp
  have hbb := h.mem_bounds hbm
  have hlt := h.stop_lt hbm
  have hsize : blockSize s.mem b.addr = b.size := (h.headers b hbm).1
  have hsub : sub64 b.size used = b.size-used := by unfold sub64 Block.stop at *; omega
  have hadd : add64 b.addr used = b.addr+used := by unfold add64 Block.stop at *; omega
  unfold splitAllocatedBlock
  refine runs_get_bind ?_
  simp only [hsize, hsub, hadd, blockHeaderSize, alignment]
  unfold lowPart relist restPart at hk
  by_cases hr : b.size < used+48
  · rw [if_pos (by omega)]
    simp only [if_pos hr, List.nil_append, List.foldr_nil] at hk
    exact runs_pure (hk s h (.refl s)).2
  rw [if_neg (by omega)]
  simp only [if_neg hr, List.cons_append, List.nil_append, List.foldr_cons, List.foldr_nil] at hk
  -- from here on the cut-off part is filled in before the block's size lets it be seen
  have hin : ∀ {c : Allocator} {m : Mem}, Linked c e (xs ++ b :: ys) l →
      ChangesOnly (InSplit (xs ++ b :: ys) b used) s c →
      (∀ x, x < b.addr+used ∨ b.addr+used+24 ≤ x → m x = c.mem x) →
      Linked { c with mem := m } e (xs ++ b :: ys) l ∧
        ChangesOnly (InSplit (xs ++ b :: ys) b used) s { c with mem := m } := by
    intro c m hc hch hm
    refine ⟨hc.inside hb fun x hx => hm x (by unfold Block.stop at *; omega), hch.trans (.of_mem fun x hx => hm x ?_)⟩
    by_contra hcon
    exact hx (Or.inr (Or.inr (by unfold Block.stop; omega)))
  refine runs_count_bind fun d hd => ?_
  have h0 := h.counters hd
  have hch0 : ChangesOnly (InSplit (xs ++ b :: ys) b used) s d := hd.changes
  refine ⟨hstay d h0 hch0, ?_⟩
  obtain ⟨h1, hch1⟩ := hin (m := d.mem.store64 (b.addr+used) (b.size-used)) h0 hch0
    fun x hx => Mem.store64_of_outside _ (by omega)
  refine runs_store_bind (hstay _ h1 hch1) ?_
  have hh2 := headerAt_fresh d.mem (b.addr+used) (v := b.size-used) (by unfold Block.stop at *; omega) true
  obtain ⟨h2, hch2⟩ := hin (m := (d.mem.store64 (b.addr+used) (b.size-used)).store8 (b.addr+used+8) true.toNat) h1 hch1
    fun x hx => Mem.store8_of_ne _ (by omega)
  refine runs_store_bind (hstay _ h2 hch2) ?_
  have hnew : b.addr+used+48 ≤ b.stop := by unfold Block.stop; omega
  have harea : InArea d (b.addr+used) := by
    unfold InArea
    rw [hch0.first_eq, hch0.limit_eq]
    omega
  refine Runs.bind (Q := fun _ c => Linked c e (xs ++ b :: ys) l ∧
      ChangesOnly (InSplit (xs ++ b :: ys) b used) s c ∧
      HeaderAt c.mem ⟨b.addr+used, b.size-used, true⟩) ?_ ?_
  · refine runs_setNextFree h2.geometry harea (Or.inl rfl) fun m _ hm => ?_
    obtain ⟨h3, hch3⟩ := hin (m := m) h2 hch2 fun x hx => hm x (by omega)
    exact ⟨hstay _ h3 hch3, h3, hch3, hh2.congr fun x h1 h2 => hm x (Or.inl (by simp only at h2; omega))⟩
  rintro _ c ⟨hc, hch, hhc⟩
  have hcut := hc.cut (m := c.mem.store64 b.addr used) hb hu h16 (by omega)
    (fun x hx => Mem.store64_of_outside _ (by unfold Block.stop at *; omega))
    ((hc.headers b hbm).setSize (by unfold Block.stop at *; omega))
    (hhc.congr fun x h1 h2 => Mem.store64_of_outside _ (by simp only at h1; omega))
  have hchc : ChangesOnly (InSplit (xs ++ b :: ys) b used) s { c with mem := c.mem.store64 b.addr used } := by
    refine hch.trans (.of_mem fun x hx => Mem.store64_of_outside _ ?_)
    by_contra hcon
    exact hx (Or.inr (Or.inl (by omega)))
  have hrl : (⟨b.addr+used, b.size-used, true⟩ : Block) ∉ l := by
    intro hm
    have hold := (h.listed _ hm).1
    rcases h.tiles.separated hbm hold with heq | hs | hs
    · have := congrArg Block.addr heq
      simp only at this
      omega
    all_goals
      unfold Block.stop at *
      simp only at hs
      omega
  refine runs_store_bind (hoff _ hcut hrl hchc) ?_
  refine hcut.runs_insertFreeBlock (n := ⟨b.addr+used, b.size-used, true⟩) (by simp) rfl hrl ?_ ?_
  · exact fun c' hc' hch' => hoff c' hc' hrl (hchc.trans (hch'.mono fun x hx => inFree_inSplit hx hle))
  · intro c' hc' hch'
    exact hk c' hc' (hchc.trans (hch'.mono fun x hx => inFree_inSplit hx hle))

end ShmNext
