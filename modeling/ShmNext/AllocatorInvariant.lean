import ShmNext.BlockAllocator
import ShmNext.BlockTiling

/-! The relation between the bytes of a segment and the blocks they stand for, and
what taking a block off the free list and putting one on it do to that relation. -/
namespace ShmNext

def HeaderAt (m : Mem) (b : Block) : Prop :=
  blockSize m b.addr = b.size ∧ isFreeByte m b.addr = boolByte b.free

theorem HeaderAt.isFree {m : Mem} {b : Block} (h : HeaderAt m b) : blockIsFree m b.addr = b.free := by
  rw [blockIsFree, h.2, boolByte_ne_zero]

theorem HeaderAt.congr {m m' : Mem} {b : Block} (h : HeaderAt m b)
    (hm : ∀ x, b.addr ≤ x → x < b.addr+9 → m' x = m x) : HeaderAt m' b := by
  refine ⟨?_, ?_⟩
  · rw [← h.1]
    exact Mem.load64_congr fun x h1 h2 => hm x h1 (by omega)
  · rw [← h.2, isFreeByte, isFreeByte, hm (b.addr+8) (by omega) (by omega)]

theorem nextFree_congr {m m' : Mem} {a : ℕ} (hm : ∀ x, a+16 ≤ x → x < a+24 → m' x = m x) :
    nextFree m' a = nextFree m a := by
  unfold nextFree
  rw [Mem.load64_congr hm]

/-- The header fields describe a mapped segment: 16-aligned, far enough from
the top of the address space for the two headers of a block, short enough for
`OffsetPtr`, with the allocator object below the blocks. -/
structure Geometry (s : Allocator) : Prop where
  begin_pos : 0 < s.segmentBegin
  begin_aligned : s.segmentBegin%16 = 0
  size_aligned : s.segmentSize%16 = 0
  self_aligned : s.self%8 = 0
  self_ge : s.segmentBegin ≤ s.self
  self_below : s.self+112 ≤ s.first
  first_aligned : s.first%16 = 0
  end_room : s.segmentBegin+s.segmentSize+48 ≤ 2^64
  size_lt : s.segmentSize < 2^63

theorem Geometry.end_lt {s : Allocator} (h : Geometry s) : s.segmentBegin+s.segmentSize < 2^64 := by
  have := h.end_room
  omega

theorem Geometry.segmentEnd_eq {s : Allocator} (h : Geometry s) :
    s.segmentEnd = s.segmentBegin+s.segmentSize := by
  have := h.end_lt
  unfold Allocator.segmentEnd add64
  omega

theorem Geometry.congr {s s' : Allocator} (h : Geometry s) (h1 : s'.self = s.self)
    (h2 : s'.segmentBase = s.segmentBase) (h3 : s'.segmentSize = s.segmentSize)
    (h4 : s'.firstBlock = s.firstBlock) : Geometry s' := by
  have hb : s'.segmentBegin = s.segmentBegin := by unfold Allocator.segmentBegin; rw [h1, h2]
  have hf : s'.first = s.first := by unfold Allocator.first; rw [h1, h4]
  exact ⟨hb ▸ h.begin_pos, hb ▸ h.begin_aligned, h3 ▸ h.size_aligned, h1 ▸ h.self_aligned,
    by rw [hb, h1]; exact h.self_ge, by rw [hf, h1]; exact h.self_below, hf ▸ h.first_aligned,
    by rw [hb, h3]; exact h.end_room, h3 ▸ h.size_lt⟩

/-- `s'` differs from `s` at most in the bytes of `W`, the list head and the counters. -/
structure ChangesOnly (W : ℕ → Prop) (s s' : Allocator) : Prop where
  self : s'.self = s.self
  segmentBase : s'.segmentBase = s.segmentBase
  segmentSize : s'.segmentSize = s.segmentSize
  firstBlock : s'.firstBlock = s.firstBlock
  bytes : ∀ x, ¬ W x → s'.mem x = s.mem x

namespace ChangesOnly
variable {W W' : ℕ → Prop} {s s' s'' : Allocator}

theorem refl (s : Allocator) : ChangesOnly W s s := ⟨rfl, rfl, rfl, rfl, fun _ _ => rfl⟩

theorem trans (h : ChangesOnly W s s') (h' : ChangesOnly W s' s'') : ChangesOnly W s s'' :=
  ⟨h'.self.trans h.self, h'.segmentBase.trans h.segmentBase, h'.segmentSize.trans h.segmentSize,
    h'.firstBlock.trans h.firstBlock, fun x hx => (h'.bytes x hx).trans (h.bytes x hx)⟩

theorem mono (h : ChangesOnly W s s') (hw : ∀ x, W x → W' x) : ChangesOnly W' s s' :=
  ⟨h.self, h.segmentBase, h.segmentSize, h.firstBlock, fun x hx => h.bytes x fun hw' => hx (hw x hw')⟩

theorem of_mem {m : Mem} (h : ∀ x, ¬ W x → m x = s.mem x) : ChangesOnly W s { s with mem := m } :=
  ⟨rfl, rfl, rfl, rfl, h⟩

theorem geometry (h : ChangesOnly W s s') (hg : Geometry s) : Geometry s' :=
  hg.congr h.self h.segmentBase h.segmentSize h.firstBlock

theorem first_eq (h : ChangesOnly W s s') : s'.first = s.first := by
  unfold Allocator.first; rw [h.self, h.firstBlock]

theorem begin_eq (h : ChangesOnly W s s') : s'.segmentBegin = s.segmentBegin := by
  unfold Allocator.segmentBegin; rw [h.self, h.segmentBase]

theorem end_eq (h : ChangesOnly W s s') : s'.segmentEnd = s.segmentEnd := by
  unfold Allocator.segmentEnd; rw [h.begin_eq, h.segmentSize]

theorem limit_eq (h : ChangesOnly W s s') :
    s'.segmentBegin+s'.segmentSize = s.segmentBegin+s.segmentSize := by
  rw [h.begin_eq, h.segmentSize]

end ChangesOnly

def CountersOnly (s s' : Allocator) : Prop := ∃ k, s' = { s with counters := k }

namespace CountersOnly
variable {s s' s'' : Allocator}

theorem refl (s : Allocator) : CountersOnly s s := ⟨s.counters, rfl⟩

theorem trans (h : CountersOnly s s') (h' : CountersOnly s' s'') : CountersOnly s s'' := by
  obtain ⟨k, rfl⟩ := h
  obtain ⟨k', rfl⟩ := h'
  exact ⟨k', rfl⟩

theorem mem_eq (h : CountersOnly s s') : s'.mem = s.mem := by obtain ⟨k, rfl⟩ := h; rfl

theorem head_eq (h : CountersOnly s s') : s'.head = s.head := by obtain ⟨k, rfl⟩ := h; rfl

theorem changes (h : CountersOnly s s') {W : ℕ → Prop} : ChangesOnly W s s' := by
  obtain ⟨k, rfl⟩ := h
  exact ⟨rfl, rfl, rfl, rfl, fun _ _ => rfl⟩

end CountersOnly

/-- The bytes of the free blocks. -/
def InFree (bs : List Block) (x : ℕ) : Prop := ∃ b ∈ bs, b.free = true ∧ b.addr ≤ x ∧ x < b.stop

/-- The blocks `bs` tile `[first, e)` and are what the headers say; the free list
visits `l`, some of the free blocks. The free blocks off the list and a rest of the
segment beyond `e` are left open. -/
structure Linked (s : Allocator) (e : ℕ) (bs l : List Block) : Prop where
  geometry : Geometry s
  tiles : Tiles s.first e bs
  le_end : e ≤ s.segmentBegin+s.segmentSize
  headers : ∀ b ∈ bs, HeaderAt s.mem b
  chain : LinkedFrom (nextFree s.mem) s.head (l.map Block.addr)
  listed : ∀ b ∈ l, b ∈ bs ∧ b.free = true

/-- What `check_sanity` stands for: the whole segment is tiled, and exactly the free
blocks are on the list. -/
structure Sane (s : Allocator) (bs l : List Block) : Prop where
  linked : Linked s (s.segmentBegin+s.segmentSize) bs l
  exact : ∀ b ∈ bs, b.free = true → b ∈ l

/-- The full allocator invariant: the free list is ordered by size and address, and
no two neighbours are both free. -/
structure WellFormed (s : Allocator) (bs l : List Block) : Prop extends Sane s bs l where
  sorted : l.Pairwise Block.SizeAddrLt
  coalesced : Coalesced bs

namespace Linked
variable {s : Allocator} {e : ℕ} {bs l : List Block} {b : Block}

theorem mem_bounds (h : Linked s e bs l) (hb : b ∈ bs) :
    s.first ≤ b.addr ∧ b.stop ≤ s.segmentBegin+s.segmentSize ∧ 32 ≤ b.size ∧ b.size%16 = 0 ∧
      b.addr%16 = 0 := by
  have ht := h.tiles.bounds hb
  exact ⟨ht.1, ht.2.1.trans h.le_end, ht.2.2.1, ht.2.2.2, h.tiles.aligned h.geometry.first_aligned hb⟩

theorem nodup (h : Linked s e bs l) : l.Nodup := h.chain.nodup.of_map

theorem length_le (h : Linked s e bs l) : l.length ≤ bs.length :=
  (h.nodup.subperm fun b hb => (h.listed b hb).1).length_le

theorem length_lt (h : Linked s e bs l) : bs.length ≤ s.maxBlocks ∧ l.length ≤ walkFuel := by
  have h1 := h.tiles.length_le
  have h2 := h.length_le
  have h3 := h.geometry.self_below
  have h4 := h.geometry.self_ge
  have h5 := h.geometry.size_lt
  have h6 := h.le_end
  unfold Allocator.maxBlocks alignment walkFuel
  omega

theorem addr_inj (h : Linked s e bs l) {b' : Block} (hb : b ∈ bs) (hb' : b' ∈ bs)
    (heq : b.addr = b'.addr) : b = b' :=
  h.tiles.eq_of_addr hb hb' heq

/-- Bytes away from the headers' size and flag and from the links of the list do not matter. -/
theorem frame {s' : Allocator} {W : ℕ → Prop} (h : Linked s e bs l) (hc : ChangesOnly W s s')
    (hhead : s'.freeListHead = s.freeListHead)
    (hh : ∀ b ∈ bs, ∀ x, b.addr ≤ x → x < b.addr+9 → ¬ W x)
    (hn : ∀ b ∈ l, ∀ x, b.addr+16 ≤ x → x < b.addr+24 → ¬ W x) : Linked s' e bs l := by
  have hd : s'.head = s.head := by unfold Allocator.head; rw [hc.self, hhead]
  refine ⟨hc.geometry h.geometry, hc.first_eq ▸ h.tiles, by rw [hc.begin_eq, hc.segmentSize]; exact h.le_end,
    fun b hb => (h.headers b hb).congr fun x h1 h2 => hc.bytes x (hh b hb x h1 h2), ?_, h.listed⟩
  rw [hd]
  refine h.chain.congr fun a ha => ?_
  obtain ⟨b, hb, rfl⟩ := List.mem_map.mp ha
  exact nextFree_congr fun x h1 h2 => hc.bytes x (hn b hb x h1 h2)

theorem counters {s' : Allocator} (h : Linked s e bs l) (hc : CountersOnly s s') : Linked s' e bs l := by
  obtain ⟨k, rfl⟩ := hc
  exact ⟨⟨h.geometry.1, h.geometry.2, h.geometry.3, h.geometry.4, h.geometry.5, h.geometry.6, h.geometry.7,
    h.geometry.8, h.geometry.9⟩, h.tiles, h.le_end, h.headers, h.chain, h.listed⟩

/-- Replacing a range of blocks that are not on the list by other blocks over the same
range, writing only there. -/
theorem replace {xs ms ys news : List Block} {p q : ℕ} {m : Mem}
    (h : Linked s e (xs ++ ms ++ ys) l) (hx : Tiles s.first p xs)
    (hy : Tiles q e ys) (hl : ∀ b ∈ ms, b ∉ l) (hm : ∀ x, x < p ∨ q ≤ x → m x = s.mem x)
    (hn : Tiles p q news) (hh : ∀ b ∈ news, HeaderAt m b) :
    Linked { s with mem := m } e (xs ++ news ++ ys) l := by
  have hside : ∀ b ∈ xs ++ ys, ∀ x, b.addr ≤ x → x < b.stop → m x = s.mem x := by
    intro b hb x h1 h2
    apply hm
    rcases List.mem_append.mp hb with hb | hb
    · exact Or.inl (lt_of_lt_of_le h2 (hx.bounds hb).2.1)
    · exact Or.inr ((hy.bounds hb).1.trans h1)
  have hold : ∀ b, b ∈ xs ++ ms ++ ys ↔ b ∈ xs ++ ys ∨ b ∈ ms := by
    intro b; simp only [List.mem_append]; tauto
  have hnew : ∀ b, b ∈ xs ++ news ++ ys ↔ b ∈ xs ++ ys ∨ b ∈ news := by
    intro b; simp only [List.mem_append]; tauto
  have hlside : ∀ b ∈ l, b ∈ xs ++ ys := fun b hb =>
    ((hold b).mp (h.listed b hb).1).resolve_right fun hbm => hl b hbm hb
  refine ⟨h.geometry.congr rfl rfl rfl rfl, (hx.append hn).append hy, h.le_end, ?_, ?_,
    fun b hb => ⟨(hnew b).mpr (Or.inl (hlside b hb)), (h.listed b hb).2⟩⟩
  · intro b hb
    rcases (hnew b).mp hb with hb | hb
    · have hbs : b ∈ xs ++ ms ++ ys := (hold b).mpr (Or.inl hb)
      have hsz := (h.tiles.bounds hbs).2.2.1
      exact (h.headers b hbs).congr fun x h1 h2 => hside b hb x h1 (by unfold Block.stop; omega)
    · exact hh b hb
  · refine h.chain.congr fun a ha => ?_
    obtain ⟨b, hb, rfl⟩ := List.mem_map.mp ha
    have hsz := (h.tiles.bounds (h.listed b hb).1).2.2.1
    exact nextFree_congr fun x h1 h2 =>
      hside b (hlside b hb) x (by omega) (by unfold Block.stop; omega)

end Linked

end ShmNext
