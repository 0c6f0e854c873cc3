import ShmNext.AllocatorMachine

/-! What every reachable state of the allocator guarantees: the structure of the segment,
the isolation of the payloads callers hold, and which stale pointers `deallocate` refuses. -/
namespace ShmNext
open Prog

variable {g g' : Heap} {call : Call} {b : Block} {a a' : LiveAlloc} {bs l : List Block} {p n al : ℕ} {lost : ℕ → Prop}

/-- A zeroed segment of 4096 bytes at address 4096, with the allocator object at its start. -/
def smallSegment : Allocator := ⟨fun _ => 0, 4096, 0, 0, 0, 0, Counters.zero⟩

def smallHeap : Heap := ⟨((initializeAllocator 4096 112 4096).run smallSegment).2, [], []⟩

theorem smallHeap_reachable : Reachable smallHeap :=
  @Reachable.fresh smallSegment _ 4096 112 4096
    ⟨by decide, by decide, by decide, by decide, by decide, by decide, by decide, by decide, by decide⟩
    (Prod.ext (by decide +kernel) rfl)

/-- The heap after the calls `calls` on the small segment. -/
def smallRun (calls : List Call) (h : (smallHeap.runCalls calls).isSome = true) : Heap := (smallHeap.runCalls calls).get h

theorem smallRun_reachable (calls : List Call) (h : (smallHeap.runCalls calls).isSome = true) :
    Reachable (smallRun calls h) :=
  smallHeap_reachable.runCalls (Option.some_get h).symm

/-- A payload lies in the block it was cut from, and in no other. -/
theorem HeapInv.payload_in_block (h : HeapInv lost g.alloc g.live bs l) (ha : a ∈ g.live) :
    ∃ b ∈ bs, b.free = false ∧ b.addr ≤ a.payload ∧ a.payload < b.stop ∧
      (∀ b' ∈ bs, b'.addr ≤ a.payload → a.payload < b'.stop → b' = b) ∧ headerBlock g.alloc.mem a.payload = b.addr ∧
      headerRequestedSize g.alloc.mem a.payload = a.size ∧ a.payload%a.align = 0 ∧ a.payload+a.size ≤ b.stop := by
  obtain ⟨b, hb, hh⟩ := h.placed a ha
  have h1 := hh.above
  have h2 := hh.within
  have h3 := hh.addr
  have h4 := hh.pos
  exact ⟨b, hb, hh.allocated, by omega, by omega, fun b' hb' h5 h6 => h.linked.tiles.eq_of_overlap hb' hb h5 h6 (by omega)
    (by omega), hh.header.block_eq.trans h3.symm, hh.header.size_eq, hh.aligned, h2⟩

/-- In every reachable state the blocks tile the segment, the free list holds the free blocks
in order of size and address, no two neighbours are free, and the live allocations and the
allocated blocks correspond one to one, each payload behind a header that names its block. -/
theorem allocator_invariant (h : Reachable g) : ∃ bs l : List Block,
    (Tiles g.alloc.first g.alloc.segmentEnd bs ∧ ∀ b ∈ bs, HeaderAt g.alloc.mem b) ∧
    (LinkedFrom (nextFree g.alloc.mem) g.alloc.head (l.map Block.addr) ∧ l.Nodup ∧
      (∀ b, b ∈ l ↔ b ∈ bs ∧ b.free = true) ∧ l.Pairwise Block.SizeAddrLt) ∧
    Coalesced bs ∧
    (∀ a ∈ g.live, ∃ b ∈ bs, b.free = false ∧ b.addr ≤ a.payload ∧ a.payload < b.stop ∧
      (∀ b' ∈ bs, b'.addr ≤ a.payload → a.payload < b'.stop → b' = b) ∧ headerBlock g.alloc.mem a.payload = b.addr ∧
      headerRequestedSize g.alloc.mem a.payload = a.size ∧ a.payload%a.align = 0 ∧ a.payload+a.size ≤ b.stop) ∧
    ∀ b ∈ bs, b.free = false → ∃! a, a ∈ g.live ∧ a.block = b.addr := by
  obtain ⟨bs, l, hinv⟩ := h.inv
  have hl := hinv.linked
  refine ⟨bs, l, ⟨?_, hl.headers⟩, ⟨hl.chain, hl.nodup, fun b => ⟨hl.listed b, fun hb => hinv.exact b hb.1 hb.2⟩, hinv.sorted⟩,
    hinv.coalesced, fun a ha => hinv.payload_in_block ha, fun b hb hf => ?_⟩
  · rw [hl.geometry.segmentEnd_eq]
    exact hl.tiles
  · obtain ⟨a, ha, heq⟩ := (hinv.owned b hb hf).resolve_left id
    exact ⟨a, ⟨ha, heq⟩, fun a' ⟨ha', heq'⟩ => hinv.block_unique ha' ha (heq'.trans heq.symm)⟩

/-- A run through all member calls, with an allocation left. -/
def mixedHeap : Heap :=
  smallRun [.allocate 16 64, .allocateMany 40 2 16, .deallocate 4288, .tryExpand 4352 40 16, .grow 8192,
    .deallocateMany [0, 4352], .shrinkToFit] (by decide +kernel)

/-- Two payloads, with a free block before them and one behind. -/
def holedHeap : Heap := smallRun [.allocate 16 64, .allocateMany 40 2 16, .deallocate 4288] (by decide +kernel)

theorem allocator_invariant_mixedHeap : mixedHeap.live.map LiveAlloc.payload = [4448] ∧ ∃ bs l : List Block,
    Tiles mixedHeap.alloc.first mixedHeap.alloc.segmentEnd bs ∧ l.Pairwise Block.SizeAddrLt ∧ Coalesced bs := by
  obtain ⟨bs, l, h1, h2, h3, -⟩ := allocator_invariant (g := mixedHeap) (smallRun_reachable _ _)
  exact ⟨by decide +kernel, bs, l, h1.1, h2.2.2.2, h3⟩

/-- Payloads lie inside the segment, apart from each other and from all headers. -/
theorem HeapInv.payloads_apart (h : HeapInv lost g.alloc g.live bs l) (ha : a ∈ g.live) :
    (g.alloc.segmentBegin ≤ a.payload ∧ a.payload+a.size ≤ g.alloc.segmentEnd) ∧
    (∀ b ∈ bs, a.payload+a.size ≤ b.addr ∨ b.addr+32 ≤ a.payload) ∧
    (∀ a' ∈ g.live, a.payload+a.size ≤ a'.payload-16 ∨ a'.payload ≤ a.payload) ∧
    ∀ a' ∈ g.live, a' ≠ a → a.payload+a.size ≤ a'.payload ∨ a'.payload+a'.size ≤ a.payload := by
  obtain ⟨b, hb, hh⟩ := h.placed a ha
  have h1 := hh.above
  have h2 := hh.within
  have h3 := hh.addr
  have hg := h.linked.geometry
  have hbb := h.linked.mem_bounds hb
  have hself := hg.self_below
  have hbegin := hg.self_ge
  -- two live allocations lie in different blocks, and blocks do not overlap
  have hother : ∀ a' ∈ g.live, a' ≠ a → a.payload+a.size ≤ a'.block ∨ a'.payload+a'.size ≤ a.block := by
    intro a' ha' hne
    obtain ⟨b', hb', hh'⟩ := h.placed a' ha'
    have h1' := hh'.above
    have h2' := hh'.within
    have h3' := hh'.addr
    rcases h.linked.tiles.separated hb hb' with heq | hlt | hlt
    · exact absurd (h.block_unique ha' ha (by rw [← h3', ← heq, h3])) hne
    · omega
    · omega
  refine ⟨⟨by omega, by rw [hg.segmentEnd_eq]; omega⟩, fun b' hb' => ?_, fun a' ha' => ?_, fun a' ha' hne => ?_⟩
  · have hbb' := h.linked.mem_bounds hb'
    rcases h.linked.tiles.separated hb hb' with rfl | hlt | hlt
    · omega
    · omega
    · unfold Block.stop at *
      omega
  · by_cases hne : a' = a
    · exact Or.inr (by rw [hne])
    · obtain ⟨b', _, hh'⟩ := h.placed a' ha'
      have h1' := hh'.above
      have := hother a' ha' hne
      omega
  · obtain ⟨b', _, hh'⟩ := h.placed a' ha'
    have h1' := hh'.above
    have := hother a' ha' hne
    omega

/-- A `try_expand` for a held payload records the new size in that payload's own header. -/
theorem HeapInv.expandsApart_of_holds (h : HeapInv lost g.alloc g.live bs l) (hp : g.Holds p) :
    ExpandsApart g.alloc g.live p n al := by
  obtain ⟨a, ha, rfl⟩ := hp
  refine fun _ _ _ _ _ => recordsApart_iff.mpr fun a' ha' x hx hx' => ?_
  obtain ⟨b, _, hh⟩ := h.placed a ha
  have h1 := hh.above
  have h2 := (h.payloads_apart ha').2.2.1 a ha
  exact Mem.store64_of_outside g.alloc.mem (by omega)

/-- A member call keeps every payload it does not free exactly when it is isolating. -/
theorem HeapInv.isolating_iff (h : HeapInv lost g.alloc g.live bs l) (hadm : g.Admissible call) (hmember : call.Member)
    (hexec : g.exec call = some g') : g.Isolating call ↔
      ∀ a ∈ g.live, ¬ call.Frees a.payload → SamePayload a g.alloc.mem g'.alloc.mem := by
  refine ⟨(h.step hadm hexec).2, fun hsame => ?_⟩
  cases call with
  | tryExpand p n al =>
    refine fun hn htrust A ha hcan => recordsApart_iff.mpr fun a hal x hx hx' => ?_
    obtain ⟨r, -, hr, hbytes⟩ := h.exec_tryExpand hn hadm htrust ha hexec
    obtain rfl := hr.mp hcan
    exact (hbytes a hal x hx hx').symm.trans (hsame a hal id x hx hx')
  | userWrite x v => exact hmember
  | _ => trivial

/-- In every reachable state the payloads are apart from each other and from all headers, and
a member call keeps the bytes of every payload it does not free exactly when it is not a
`try_expand` that records its size inside a payload. -/
theorem payloads_isolated (h : Reachable g) : ∃ bs : List Block,
    (Tiles g.alloc.first g.alloc.segmentEnd bs ∧ ∀ b ∈ bs, HeaderAt g.alloc.mem b) ∧
    (g.live.map LiveAlloc.payload).Nodup ∧
    (∀ a ∈ g.live, (g.alloc.segmentBegin ≤ a.payload ∧ a.payload+a.size ≤ g.alloc.segmentEnd) ∧
      (∀ b ∈ bs, a.payload+a.size ≤ b.addr ∨ b.addr+32 ≤ a.payload) ∧
      (∀ a' ∈ g.live, a.payload+a.size ≤ a'.payload-16 ∨ a'.payload ≤ a.payload) ∧
      ∀ a' ∈ g.live, a' ≠ a → a.payload+a.size ≤ a'.payload ∨ a'.payload+a'.size ≤ a.payload) ∧
    ∀ call g', g.Admissible call → call.Member → g.exec call = some g' → (g.Isolating call ↔
      ∀ a ∈ g.live, ¬ call.Frees a.payload → SamePayload a g.alloc.mem g'.alloc.mem) := by
  obtain ⟨bs, l, hinv⟩ := h.inv
  have hl := hinv.linked
  refine ⟨bs, ⟨?_, hl.headers⟩, ?_, fun a ha => hinv.payloads_apart ha,
    fun call g' hadm hmember hexec => hinv.isolating_iff hadm hmember hexec⟩
  · rw [hl.geometry.segmentEnd_eq]
    exact hl.tiles
  · exact (List.nodup_map_iff_inj_on hinv.distinct.of_map).mpr fun a ha a' ha' heq => hinv.payload_unique ha ha' heq

/-- Freeing one of two payloads leaves the other one alone. -/
theorem payloads_isolated_holedHeap : holedHeap.live.map LiveAlloc.payload = [4448, 4352] ∧
    (∀ a ∈ holedHeap.live, ∀ a' ∈ holedHeap.live, a' ≠ a → a.payload+a.size ≤ a'.payload ∨ a'.payload+a'.size ≤ a.payload) ∧
    ∃ g', holedHeap.exec (.deallocate 4448) = some g' ∧
      ∀ a ∈ holedHeap.live, a.payload ≠ 4448 → SamePayload a holedHeap.alloc.mem g'.alloc.mem := by
  obtain ⟨bs, -, -, h1, h2⟩ := payloads_isolated (g := holedHeap) (smallRun_reachable _ _)
  obtain ⟨g', hexec⟩ := Option.isSome_iff_exists.mp (by decide +kernel : (holedHeap.exec (.deallocate 4448)).isSome = true)
  exact ⟨by decide +kernel, fun a ha => (h1 a ha).2.2.2, g', hexec,
    fun a ha hne => (h2 (.deallocate 4448) g' (by decide +kernel) trivial hexec).mp trivial a ha hne⟩

/-- The payload at 4288 has been freed, and its block given out again for a payload at 4256. -/
def staleHeap : Heap := smallRun [.allocate 16 64, .deallocate 4288, .allocate 200 16] (by decide +kernel)

/-- A `try_expand` for the freed payload at 4288 goes through, and overwrites bytes of the
200 the other caller holds from 4256 on. -/
theorem stale_expand_overwrites : ¬ ∀ (g g' : Heap) (call : Call), Reachable g → g.Admissible call → call.Member →
    g.exec call = some g' → ∀ a ∈ g.live, ¬ call.Frees a.payload → SamePayload a g.alloc.mem g'.alloc.mem := by
  intro hall
  have hold : staleHeap.alloc.mem 4280 = 16 := by decide +kernel
  have hnew : (staleHeap.exec (.tryExpand 4288 32 64)).map (fun g => g.alloc.mem 4280) = some 32 := by decide +kernel
  obtain ⟨g', hexec, hbyte⟩ := Option.map_eq_some_iff.mp hnew
  have hsame := hall staleHeap g' (.tryExpand 4288 32 64) (smallRun_reachable _ _) (by decide +kernel) trivial hexec
    ⟨4208, 4256, 200, 16⟩ (by decide +kernel) id 4280 (by decide) (by decide)
  rw [hold, hbyte] at hsame
  exact absurd hsame (by decide)

/-- `deallocate` throws `invalid_pointer` or `double_free`, and changes nothing but a counter. -/
def RefusesFree (s : Allocator) (p : ℕ) : Prop :=
  ∃ e c, (deallocate p).run s = (.error (.interprocess e), c) ∧ (e = .invalidPointer ∨ e = .doubleFree) ∧
    CountersOnly s c

/-- The 16 bytes below `p` read as the header of an allocation in the block `a` lies in. -/
def LeftoverHeader (m : Mem) (a : LiveAlloc) (p : ℕ) : Prop :=
  a.block+48 ≤ p ∧ p < a.block+blockSize m a.block ∧ headerBlock m p = a.block ∧
    headerRequestedSize m p ≤ a.block+blockSize m a.block-p

instance (m : Mem) (a : LiveAlloc) (p : ℕ) : Decidable (LeftoverHeader m a p) := inferInstanceAs (Decidable (_ ∧ _))

theorem HeapInv.trusts_iff_leftover (h : HeapInv (fun _ => False) g.alloc g.live bs l) :
    TrustsHeader g.alloc p ↔ ∃ a ∈ g.live, LeftoverHeader g.alloc.mem a p := by
  have hnames : ∀ {a b}, b ∈ bs → b.addr = a.block → (LeftoverHeader g.alloc.mem a p ↔ NamesBlock g.alloc.mem p b) := by
    intro a b hb heq
    unfold LeftoverHeader NamesBlock Block.stop
    rw [← heq, (h.linked.headers b hb).1]
  rw [h.trusts_iff]
  constructor
  · rintro ⟨b, hb, hf, hp⟩
    obtain ⟨a, ha, heq⟩ := (h.owned b hb hf).resolve_left id
    exact ⟨a, ha, (hnames hb heq.symm).mpr hp⟩
  · rintro ⟨a, ha, hp⟩
    obtain ⟨b, hb, hh⟩ := h.placed a ha
    exact ⟨b, hb, hh.allocated, (hnames hb hh.addr).mp hp⟩

theorem HeapInv.refusesFree_iff (h : HeapInv lost g.alloc g.live bs l) (hp : p ≠ 0) :
    RefusesFree g.alloc p ↔ ¬ TrustsHeader g.alloc p := by
  constructor
  · rintro ⟨e, c, hrun, -⟩ htrust
    obtain ⟨b, hb, hf, hnames⟩ := h.trusts_iff.mp htrust
    obtain ⟨-, r, c', hrun', -⟩ := h.toWellFormed.runs_deallocate hb hf hnames (C := fun _ => True)
      (Q := fun _ _ => True) (fun _ _ => trivial) fun _ _ _ => trivial
    rw [hrun'] at hrun
    cases (Prod.ext_iff.mp hrun).1
  · intro hno
    obtain ⟨-, e, c, hrun, he, hc⟩ := h.toSane.throws_deallocate hp fun b hb hf hn => hno (h.trusts_iff.mpr ⟨b, hb, hf, hn⟩)
    rcases he with rfl | rfl
    · exact ⟨_, c, hrun, Or.inl rfl, hc⟩
    · exact ⟨_, c, hrun, Or.inr rfl, hc⟩

/-- After any run, a payload that has been freed is refused by `deallocate` exactly when no
live allocation's block still holds a header for it. -/
theorem stale_free_refused_iff (h : Reachable g) (hp : p ∈ g.freed) :
    RefusesFree g.alloc p ↔ ∀ a ∈ g.live, ¬ LeftoverHeader g.alloc.mem a p := by
  obtain ⟨bs, l, hinv⟩ := h.inv
  rw [hinv.refusesFree_iff (h.freed_pos hp), hinv.trusts_iff_leftover]
  simp only [not_exists, not_and]

/-- The payload at 4256 has been freed, and its block given out again for a payload at 4288. -/
def reusedHeap : Heap := smallRun [.allocate 16 16, .deallocate 4256, .allocate 16 64] (by decide +kernel)

/-- A freed payload that is refused, and one whose block has been given out again. -/
theorem stale_free_refused_iff_decided : RefusesFree mixedHeap.alloc 4288 ∧ ¬RefusesFree reusedHeap.alloc 4256 := by
  have hreused : ¬∀ a ∈ reusedHeap.live, ¬LeftoverHeader reusedHeap.alloc.mem a 4256 := by decide +kernel
  refine ⟨(stale_free_refused_iff (smallRun_reachable _ _) (by decide +kernel)).mpr (by decide +kernel), fun hrefused => hreused ?_⟩
  exact (stale_free_refused_iff (smallRun_reachable _ _) (by decide +kernel)).mp hrefused

/-- Freeing the payload at 4256 a second time frees the block another caller holds. -/
theorem stale_free_accepted : ¬ ∀ (g : Heap) (p : ℕ), Reachable g → p ∈ g.freed → ¬ g.Holds p → RefusesFree g.alloc p := by
  intro hall
  obtain ⟨e, c, hrun, -⟩ := hall reusedHeap 4256 (smallRun_reachable _ _) (by decide +kernel) (by decide +kernel)
  have hok : ((deallocate 4256).run reusedHeap.alloc).1 = .ok () := by decide +kernel
  rw [hrun] at hok
  cases hok

/-- What a call that is not meant for it keeps of an allocation. -/
theorem Heap.exec_keeps {g g' : Heap} {call : Call} {a : LiveAlloc} (h : ∃ bs l, HeapInv (fun _ => False) g.alloc g.live bs l)
    (hadm : g.Admissible call) (hexec : g.exec call = some g') (ha : a ∈ g.live) (hfree : ¬ call.Frees a.payload)
    (hexpand : ∀ p n al, call = .tryExpand p n al → a.payload ≠ p ∧ ExpandsApart g.alloc g.live p n al)
    (hwrite : ∀ x b, call = .userWrite x b → x < a.payload ∨ a.payload+a.size ≤ x) :
    a ∈ g'.live ∧ SamePayload a g.alloc.mem g'.alloc.mem := by
  obtain ⟨bs, l, hinv⟩ := h
  have hstep := (hinv.step hadm hexec).2
  unfold Heap.exec at hexec
  -- the step says that the bytes stay; what is left is that the allocation stays on the list
  cases call with
  | allocate n al =>
    refine ⟨?_, hstep trivial a ha hfree⟩
    dsimp only at hexec
    split at hexec
    · obtain rfl := Option.some.inj hexec
      exact List.mem_append_right _ ha
    · obtain rfl := Option.some.inj hexec
      exact ha
    · cases hexec
  | allocateMany n k al =>
    refine ⟨?_, hstep trivial a ha hfree⟩
    dsimp only at hexec
    split at hexec
    · obtain rfl := Option.some.inj hexec
      exact List.mem_append_right _ ha
    · cases hexec
  | deallocate p =>
    refine ⟨?_, hstep trivial a ha hfree⟩
    dsimp only at hexec
    split at hexec
    · obtain rfl := Option.some.inj hexec
      exact List.mem_filter.mpr ⟨ha, by simpa [Call.Frees] using hfree⟩
    · obtain rfl := Option.some.inj hexec
      exact ha
    · cases hexec
  | deallocateMany ps =>
    refine ⟨?_, hstep trivial a ha hfree⟩
    dsimp only at hexec
    split at hexec
    · obtain rfl := Option.some.inj hexec
      exact List.mem_filter.mpr ⟨ha, by simpa [Call.Frees] using hfree⟩
    · cases hexec
  | tryExpand p n al =>
    obtain ⟨hne, hiso⟩ := hexpand p n al rfl
    refine ⟨?_, hstep hiso a ha hfree⟩
    dsimp only at hexec
    split at hexec
    · obtain rfl := Option.some.inj hexec
      exact List.mem_map.mpr ⟨a, ha, if_neg hne⟩
    · obtain rfl := Option.some.inj hexec
      exact ha
    · obtain rfl := Option.some.inj hexec
      exact ha
    · cases hexec
  | grow n =>
    refine ⟨?_, hstep trivial a ha hfree⟩
    dsimp only at hexec
    split at hexec
    · cases hexec
    · obtain rfl := Option.some.inj hexec
      exact ha
  | shrinkToFit =>
    refine ⟨?_, hstep trivial a ha hfree⟩
    dsimp only at hexec
    split at hexec
    · cases hexec
    · obtain rfl := Option.some.inj hexec
      exact ha
  | zeroFreeMemory =>
    refine ⟨?_, hstep trivial a ha hfree⟩
    dsimp only at hexec
    split at hexec
    · cases hexec
    · obtain rfl := Option.some.inj hexec
      exact ha
  | userWrite x b =>
    obtain rfl := Option.some.inj hexec
    refine ⟨ha, fun y h1 h2 => Function.update_of_ne ?_ _ _⟩
    have := hwrite x b rfl
    omega

end ShmNext
