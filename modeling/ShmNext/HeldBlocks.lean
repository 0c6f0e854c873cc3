import ShmNext.Restoration

/-! Which allocations a component holds in a segment, and which it has left alone since some earlier
moment. Where it holds nothing any more, the segment is what it was. -/
namespace ShmNext
open Prog

/-- Since `g₀` the allocations `kept` have been left alone. Besides them those of `mine` are held, each
given by its payload and size, and no others. -/
structure Holding (g₀ : Heap) (kept : List LiveAlloc) (g : Heap) (mine : List (ℕ × ℕ)) : Prop where
  heap : ∃ bs l, HeapInv (fun _ => False) g.alloc g.live bs l
  kept_live : ∀ a ∈ kept, a ∈ g.live
  kept_same : ∀ a ∈ kept, Undisturbed a g₀.alloc g.alloc
  mine_live : ∀ r ∈ mine, ∃ a ∈ g.live, a.payload = r.1 ∧ a.size = r.2
  distinct : (mine.map Prod.fst).Nodup
  apart : ∀ r ∈ mine, ∀ a ∈ kept, a.payload ≠ r.1
  covered : ∀ a ∈ g.live, a ∈ kept ∨ ∃ r ∈ mine, r.1 = a.payload
  place : g.alloc.place = g₀.alloc.place ∧ g.alloc.segmentSize = g₀.alloc.segmentSize

/-- Objects of `n` bytes aligned to `al` would not reach the end of the address space, wherever in the
segment they lay. -/
def AddressRoom (g : Heap) (n al : ℕ) : Prop :=
  ∀ A ∈ normalizeAlignment al, g.alloc.segmentBegin+g.alloc.segmentSize+n+A+64 ≤ 2^64

instance (g : Heap) (n al : ℕ) : Decidable (AddressRoom g n al) :=
  inferInstanceAs (Decidable (∀ A ∈ normalizeAlignment al, _ ≤ _))

variable {g g₀ : Heap} {kept : List LiveAlloc} {mine mine' : List (ℕ × ℕ)} {bs l : List Block} {a : LiveAlloc} {r : ℕ × ℕ}
  {n p al A sz : ℕ} {s c : Allocator}

/-- Then no layout that `allocate` computes for them wraps. -/
theorem HeapInv.allocateFits_of_room {lost : ℕ → Prop} (h : HeapInv lost g.alloc g.live bs l) (hroom : AddressRoom g n al) :
    AllocateFits g.alloc n al := by
  intro A hA r hr
  obtain ⟨k, hk, -, rfl, -⟩ := normalizeAlignment_some hA
  rw [h.toSane.scan_fits] at hr
  obtain rfl := Option.some.inj hr
  have hA64 := hroom _ hA
  rcases Nat.eq_zero_or_pos (headAddr (l.dropWhile fun b => !fits g.alloc.mem n (2^k) b.addr)) with h0 | hpos
  · exact Or.inl h0
  right
  cases hd : l.dropWhile fun b => !fits g.alloc.mem n (2^k) b.addr with
  | nil =>
    rw [hd] at hpos
    exact absurd hpos (Nat.lt_irrefl 0)
  | cons b rest =>
    have hb : b ∈ l := (List.dropWhile_sublist _).mem (hd ▸ List.mem_cons_self)
    have hin := (h.linked.mem_bounds (h.linked.listed b hb).1).2.1
    rw [Block.stop] at hin
    change LayoutFits b.addr n (2^k)
    have hspec := @exactPayload_spec b.addr k hk
    unfold LayoutFits
    omega

/-- Nor any that `try_expand` computes for a payload that is held. -/
theorem HeapInv.expandFits_of_room {lost : ℕ → Prop} (h : HeapInv lost g.alloc g.live bs l) (ha : a ∈ g.live)
    (hroom : AddressRoom g n al) : ExpandFits g.alloc a.payload n al := by
  intro A hA _
  obtain ⟨k, hk, -, rfl, -⟩ := normalizeAlignment_some hA
  have hA64 := hroom _ hA
  obtain ⟨b, hb, hh⟩ := h.placed a ha
  rw [hh.namesBlock.2.2.1]
  have hin := (h.linked.mem_bounds hb).2.1
  rw [Block.stop] at hin
  have hspec := @exactPayload_spec b.addr k hk
  unfold LayoutFits
  omega

/-- A payload that is held is given back, once. -/
theorem HeapInv.freed_release {lost : ℕ → Prop} (h : HeapInv lost g.alloc g.live bs l) (ha : a ∈ g.live) (s : Allocator) :
    (g.release s [a.payload]).freed = a.payload :: g.freed := by
  have hone : (g.live.filter (·.payload ∈ [a.payload])).map LiveAlloc.payload = [a.payload] := by
    have hsub : (g.live.filter (·.payload ∈ [a.payload])).map LiveAlloc.payload =
        (g.live.map LiveAlloc.payload).filter (· ∈ [a.payload]) := by
      rw [List.filter_map]
      rfl
    have hmem : a.payload ∈ g.live.map LiveAlloc.payload := List.mem_map_of_mem ha
    have hcount : (g.live.map LiveAlloc.payload).filter (· ∈ [a.payload]) = (g.live.map LiveAlloc.payload).filter (· == a.payload) :=
      List.filter_congr fun x _ => by rw [beq_eq_decide, decide_eq_decide, List.mem_singleton]
    rw [hsub, hcount, List.filter_beq, List.count_eq_one_of_mem h.payloads_nodup hmem]
    rfl
  unfold Heap.release
  dsimp only
  rw [hone]
  rfl

/-- The allocations that are not among the blocks `mine`. -/
def Heap.beside (g : Heap) (mine : List (ℕ × ℕ)) : List LiveAlloc := g.live.filter fun a => a.payload ∉ mine.map Prod.fst

theorem Heap.mem_beside {a : LiveAlloc} : a ∈ g.beside mine ↔ a ∈ g.live ∧ a.payload ∉ mine.map Prod.fst := by
  unfold Heap.beside
  rw [List.mem_filter, decide_eq_true_eq]

/-- The allocations that are held, by address and size. -/
def Heap.allocations (g : Heap) : List (ℕ × ℕ) := g.live.map fun a => (a.payload, a.size)

namespace Holding

theorem perm (h : Holding g₀ kept g mine) (hp : mine.Perm mine') : Holding g₀ kept g mine' := by
  obtain ⟨h1, h2, h3, h4, h5, h6, h7, h8⟩ := h
  refine ⟨h1, h2, h3, fun r hr => h4 r (hp.mem_iff.mpr hr), ((hp.map _).nodup_iff).mp h5,
    fun r hr => h6 r (hp.mem_iff.mpr hr), fun a ha => ?_, h8⟩
  refine (h7 a ha).imp_right ?_
  rintro ⟨r, hr, heq⟩
  exact ⟨r, hp.mem_iff.mp hr, heq⟩

/-- All that is held is `mine`, or kept from now on. -/
theorem start (hinv : HeapInv (fun _ => False) g.alloc g.live bs l)
    (hmine : ∀ r ∈ mine, ∃ a ∈ g.live, a.payload = r.1 ∧ a.size = r.2) (hnd : (mine.map Prod.fst).Nodup) :
    Holding g (g.live.filter fun a => a.payload ∉ mine.map Prod.fst) g mine := by
  refine ⟨⟨bs, l, hinv⟩, fun a ha => (List.mem_filter.mp ha).1, fun a _ => .refl a _, hmine, hnd, fun r hr a ha heq => ?_,
    fun a ha => ?_, rfl, rfl⟩
  · have hnot := of_decide_eq_true (List.mem_filter.mp ha).2
    exact hnot (heq ▸ List.mem_map_of_mem hr)
  · by_cases hin : a.payload ∈ mine.map Prod.fst
    · obtain ⟨r, hr, heq⟩ := List.mem_map.mp hin
      exact Or.inr ⟨r, hr, heq⟩
    · exact Or.inl (List.mem_filter.mpr ⟨ha, decide_eq_true hin⟩)

/-- All that is held counts. -/
theorem all (hinv : HeapInv (fun _ => False) g.alloc g.live bs l) : Holding g [] g g.allocations := by
  refine ⟨⟨bs, l, hinv⟩, fun a ha => (by cases ha), fun a ha => (by cases ha), fun r hr => ?_, ?_, fun r _ a ha => (by cases ha),
    fun a ha => Or.inr ⟨_, List.mem_map_of_mem ha, rfl⟩, rfl, rfl⟩
  · obtain ⟨a, ha, rfl⟩ := List.mem_map.mp hr
    exact ⟨a, ha, rfl, rfl⟩
  · unfold Heap.allocations
    rw [List.map_map]
    exact (List.Nodup.of_map _ hinv.distinct).map_on fun a ha b hb heq => hinv.payload_unique ha hb heq

theorem counters (h : Holding g₀ kept g mine) (hc : CountersOnly g.alloc s) : Holding g₀ kept { g with alloc := s } mine := by
  obtain ⟨⟨bs, l, hinv⟩, h2, h3, h4, h5, h6, h7, h8⟩ := h
  refine ⟨⟨bs, l, hinv.counters hc⟩, h2, fun a ha => (h3 a ha).trans (hc.undisturbed a), h4, h5, h6, h7, ?_⟩
  exact ⟨hc.place_eq.1.trans h8.1, hc.place_eq.2.trans h8.2⟩

/-- Where an allocation lies. -/
theorem bounds (h : Holding g₀ kept g mine) (hr : r ∈ mine) :
    0 < r.1 ∧ r.1+r.2 ≤ g.alloc.segmentBegin+g.alloc.segmentSize ∧ g.alloc.segmentBegin+g.alloc.segmentSize < 2^64 := by
  obtain ⟨bs, l, hinv⟩ := h.heap
  obtain ⟨a, ha, hp, hs⟩ := h.mine_live r hr
  have hpos := Nat.pos_of_ne_zero (hinv.payload_pos ha)
  have hin := (hinv.payloads_apart ha).1
  have hg := hinv.linked.geometry
  rw [hg.segmentEnd_eq] at hin
  have hend := hg.end_lt
  omega

/-- The segment lies where it lay. -/
theorem room_iff (h : Holding g₀ kept g mine) : AddressRoom g n al ↔ AddressRoom g₀ n al := by
  unfold AddressRoom
  rw [(ShmNext.place_eq h.place.1).2, h.place.2]

theorem room (h : Holding g₀ kept g mine) (hroom : AddressRoom g₀ n al) : AddressRoom g n al := h.room_iff.mpr hroom

/-- `allocate`: one more allocation, or nothing but counters. -/
theorem allocate (h : Holding g₀ kept g mine) (hn : 0 < n) (hn' : n < 2^64) (hal : normalizeAlignment al = some A)
    (hfits : AllocateFits g.alloc n al) :
    (∃ p s, (ShmNext.allocate n al).run g.alloc = (.ok p, s) ∧ p ≠ 0 ∧ (∀ a ∈ g.live, a.payload ≠ p) ∧
      (∀ a ∈ g.live, SamePayload a g.alloc.mem s.mem) ∧
      Holding g₀ kept { g with alloc := s, live := newAllocs s.mem n al [p] ++ g.live } ((p, n) :: mine)) ∨
    ∃ s, (ShmNext.allocate n al).run g.alloc = (.error (.interprocess .badAlloc), s) ∧ CountersOnly g.alloc s := by
  obtain ⟨⟨bs, l, hinv⟩, h2, h3, h4, h5, h6, h7, h8⟩ := h
  rcases hinv.run_allocate_undisturbed hn hn' hal hfits with
    ⟨p, s, hrun, hp, ⟨bs', l', hinv'⟩, hsame, hplace⟩ | hthrow
  · have hnew : ∀ a ∈ g.live, a.payload ≠ p := by
      intro a ha heq
      have hdup := hinv'.payload_unique (List.mem_cons_of_mem _ ha) List.mem_cons_self heq
      have hnd := List.nodup_cons.mp hinv'.distinct
      exact hnd.1 (List.mem_map.mpr ⟨a, ha, by rw [hdup]⟩)
    refine Or.inl ⟨p, s, hrun, hp, hnew, fun a ha => (hsame a ha).bytes, ?_⟩
    rw [newAllocs_one _ hp hal]
    refine ⟨⟨bs', l', hinv'⟩, fun a ha => List.mem_cons_of_mem _ (h2 a ha), fun a ha => (h3 a ha).trans (hsame a (h2 a ha)),
      fun r hr => ?_, ?_, fun r hr a ha => ?_, fun a ha => ?_, hplace.1.trans h8.1, hplace.2.trans h8.2⟩
    · rcases List.mem_cons.mp hr with rfl | hr
      · exact ⟨_, List.mem_cons_self, rfl, rfl⟩
      · obtain ⟨a, ha, heq⟩ := h4 r hr
        exact ⟨a, List.mem_cons_of_mem _ ha, heq⟩
    · refine List.nodup_cons.mpr ⟨fun hm => ?_, h5⟩
      obtain ⟨r, hr, heq⟩ := List.mem_map.mp hm
      obtain ⟨a, ha, hpay, -⟩ := h4 r hr
      exact hnew a ha (hpay.trans heq)
    · rcases List.mem_cons.mp hr with rfl | hr
      · exact hnew a (h2 a ha)
      · exact h6 r hr a ha
    · rcases List.mem_cons.mp ha with rfl | ha
      · exact Or.inr ⟨_, List.mem_cons_self, rfl⟩
      · refine (h7 a ha).imp_right ?_
        rintro ⟨r, hr, heq⟩
        exact ⟨r, List.mem_cons_of_mem _ hr, heq⟩
  · exact Or.inr hthrow

/-- `allocate` for `n` elements: one more allocation, or nothing but counters. -/
theorem allocateElements (h : Holding g₀ kept g mine) (hsz : 0 < sz) (hn : 0 < n) (hal : normalizeAlignment al = some A)
    (hfits : n ≤ (2^64-1)/sz → AllocateFits g.alloc (n*sz) al) :
    (∃ p s, (allocateElements sz al n).run g.alloc = (.ok p, s) ∧ p ≠ 0 ∧ (∀ a ∈ g.live, a.payload ≠ p) ∧
      (∀ a ∈ g.live, SamePayload a g.alloc.mem s.mem) ∧
      Holding g₀ kept { g with alloc := s, live := newAllocs s.mem (n*sz) al [p] ++ g.live } ((p, n*sz) :: mine)) ∨
    ∃ e s, (allocateElements sz al n).run g.alloc = (.error e, s) ∧ CountersOnly g.alloc s := by
  unfold ShmNext.allocateElements
  by_cases hmax : (2^64-1)/sz < n
  · rw [if_pos hmax]
    exact Or.inr ⟨_, _, rfl, .refl _⟩
  rw [if_neg hmax]
  have hmul : n*sz ≤ 2^64-1 := (Nat.mul_le_mul_right sz (not_lt.mp hmax)).trans (Nat.div_mul_le_self _ _)
  rcases h.allocate (Nat.mul_pos hn hsz) (by omega) hal (hfits (not_lt.mp hmax)) with
    ⟨p, s, hrun, hp, hnew, hsame, hhold⟩ | ⟨s, hrun, hc⟩
  · refine Or.inl ⟨p, s, ?_, hp, hnew, hsame, hhold⟩
    rw [run_bind_ok hrun, if_neg hp]
    rfl
  · exact Or.inr ⟨_, s, run_bind_error hrun _, hc⟩

/-- `deallocate` of an allocation that is held. -/
theorem deallocate (h : Holding g₀ kept g ((p, n) :: mine)) :
    ∃ s, (ShmNext.deallocate p).run g.alloc = (.ok (), s) ∧ (∀ a ∈ g.live, a.payload ≠ p → SamePayload a g.alloc.mem s.mem) ∧
      Holding g₀ kept (g.release s [p]) mine := by
  obtain ⟨⟨bs, l, hinv⟩, h2, h3, h4, h5, h6, h7, h8⟩ := h
  obtain ⟨a, ha, hpay, -⟩ := h4 _ List.mem_cons_self
  obtain rfl : a.payload = p := hpay
  obtain ⟨s, hrun, hinv', hsame, hplace⟩ := hinv.run_deallocate_undisturbed ha
  have hlive : (g.release s [a.payload]).live = g.live.filter (·.payload ≠ a.payload) :=
    List.filter_congr fun a' _ => by simp
  have hkeep : ∀ a' ∈ g.live, a'.payload ≠ a.payload → a' ∈ (g.release s [a.payload]).live := by
    intro a' ha' hne
    rw [hlive]
    exact List.mem_filter.mpr ⟨ha', decide_eq_true hne⟩
  have hne : ∀ r ∈ mine, r.1 ≠ a.payload := by
    intro r hr heq
    exact (List.nodup_cons.mp h5).1 (List.mem_map.mpr ⟨r, hr, heq⟩)
  have hkept : ∀ a' ∈ kept, a'.payload ≠ a.payload := h6 _ List.mem_cons_self
  refine ⟨s, hrun, fun a' ha' h' => (hsame a' ha' h').bytes, ?_, fun a' ha' => hkeep a' (h2 a' ha') (hkept a' ha'),
    fun a' ha' => (h3 a' ha').trans (hsame a' (h2 a' ha') (hkept a' ha')), fun r hr => ?_, (List.nodup_cons.mp h5).2,
    fun r hr => h6 r (List.mem_cons_of_mem _ hr), fun a' ha' => ?_, hplace.1.trans h8.1, hplace.2.trans h8.2⟩
  · rw [hlive]
    exact hinv'
  · obtain ⟨a', ha', hpay', hsize'⟩ := h4 r (List.mem_cons_of_mem _ hr)
    exact ⟨a', hkeep a' ha' (hpay' ▸ hne r hr), hpay', hsize'⟩
  · rw [hlive] at ha'
    obtain ⟨ha', hne'⟩ := List.mem_filter.mp ha'
    rcases h7 a' ha' with hk | ⟨r, hr, heq⟩
    · exact Or.inl hk
    · rcases List.mem_cons.mp hr with rfl | hr
      · exact absurd heq.symm (of_decide_eq_true hne')
      · exact Or.inr ⟨r, hr, heq⟩

/-- The payload is given back, once. -/
theorem freed_release {s : Allocator} (h : Holding g₀ kept g ((p, n) :: mine)) : (g.release s [p]).freed = p :: g.freed := by
  obtain ⟨bs, l, hinv⟩ := h.heap
  obtain ⟨a, ha, hpay, -⟩ := h.mine_live _ List.mem_cons_self
  obtain rfl : a.payload = p := hpay
  exact hinv.freed_release ha s

/-- Nothing is held besides what was kept: the chain and the free list are what they were. -/
theorem restored (h : Holding g₀ kept g []) (hinv : HeapInv (fun _ => False) g₀.alloc g₀.live bs l)
    (hkept : ∀ a ∈ g₀.live, a ∈ kept) (hsub : ∀ a ∈ kept, a ∈ g₀.live) :
    blockChain g.alloc = blockChain g₀.alloc ∧ freeList g.alloc = freeList g₀.alloc := by
  obtain ⟨⟨bs', l', hinv'⟩, h2, h3, -, -, -, h7, h8⟩ := h
  refine hinv.restored hinv' (fun a => ⟨fun ha => ?_, fun ha => h2 a (hkept a ha)⟩) (fun a ha => h3 a (hkept a ha)) h8
  rcases h7 a ha with hk | ⟨r, hr, -⟩
  · exact hsub a hk
  · cases hr

/-- And only then: a block that is held shows in the chain. -/
theorem restored_iff (h : Holding g₀ kept g mine) (hinv : HeapInv (fun _ => False) g₀.alloc g₀.live bs l)
    (hkept : ∀ a ∈ g₀.live, a ∈ kept) (hsub : ∀ a ∈ kept, a ∈ g₀.live) :
    (blockChain g.alloc = blockChain g₀.alloc ∧ freeList g.alloc = freeList g₀.alloc) ↔ mine = [] := by
  constructor
  · intro hsame
    obtain ⟨bs', l', hinv'⟩ := h.heap
    have hchain : bs' = bs := by
      rw [← hinv'.toSane.blockChain_eq, ← hinv.toSane.blockChain_eq]
      exact hsame.1
    subst hchain
    by_contra hcon
    obtain ⟨r, hr⟩ := List.exists_mem_of_ne_nil mine hcon
    obtain ⟨a, ha, hpay, -⟩ := h.mine_live r hr
    obtain ⟨b, hb, hholds⟩ := hinv'.placed a ha
    -- its block was allocated before, to somebody who holds it still
    rcases hinv.owned b hb hholds.allocated with hlost | ⟨a₀, ha₀, hblock⟩
    · exact hlost
    · have hlive := h.kept_live a₀ (hkept a₀ ha₀)
      have heq : a₀ = a := List.inj_on_of_nodup_map hinv'.distinct hlive ha (hblock.trans hholds.addr)
      exact h.apart r hr a₀ (hkept a₀ ha₀) (heq ▸ hpay)
  · rintro rfl
    exact h.restored hinv hkept hsub

/-- From here on `mine` is worked on, and the rest kept. -/
theorem focus {others : List (ℕ × ℕ)} (h : Holding g [] g (mine ++ others)) : Holding g (g.beside mine) g mine := by
  obtain ⟨bs, l, hinv⟩ := h.heap
  have hnd := h.distinct
  rw [List.map_append] at hnd
  exact .start hinv (fun r hr => h.mine_live r (List.mem_append_left _ hr)) (List.nodup_append.mp hnd).1

/-- A block that is not in focus is kept. -/
theorem kept_of_mem {others : List (ℕ × ℕ)} (h : Holding g [] g (mine ++ others)) (hr : r ∈ others) :
    ∃ a ∈ g.beside mine, a.payload = r.1 ∧ a.size = r.2 := by
  obtain ⟨a, ha, hpay, hsize⟩ := h.mine_live r (List.mem_append_right _ hr)
  refine ⟨a, Heap.mem_beside.mpr ⟨ha, fun hm => ?_⟩, hpay, hsize⟩
  have hnd := h.distinct
  rw [List.map_append] at hnd
  exact (List.nodup_append.mp hnd).2.2 _ hm _ (List.mem_map_of_mem hr) hpay

/-- The work is done: its blocks and the others are all there is. -/
theorem gather {others : List (ℕ × ℕ)} (h : Holding g₀ (g₀.beside mine) g mine') (hall : Holding g₀ [] g₀ (mine ++ others)) :
    Holding g [] g (mine' ++ others) := by
  refine ⟨h.heap, fun a ha => (by cases ha), fun a ha => (by cases ha), fun r hr => ?_, ?_, fun r _ a ha => (by cases ha),
    fun a ha => Or.inr ?_, rfl, rfl⟩
  · rcases List.mem_append.mp hr with hr | hr
    · exact h.mine_live r hr
    · obtain ⟨a, ha, hpay⟩ := hall.kept_of_mem hr
      exact ⟨a, h.kept_live a ha, hpay⟩
  · have hnd := hall.distinct
    rw [List.map_append] at hnd ⊢
    refine List.nodup_append.mpr ⟨h.distinct, (List.nodup_append.mp hnd).2.1, fun p hp q hq heq => ?_⟩
    obtain ⟨r, hr, rfl⟩ := List.mem_map.mp hp
    obtain ⟨s, hs, rfl⟩ := List.mem_map.mp hq
    obtain ⟨a, ha, hpay, -⟩ := hall.kept_of_mem hs
    exact h.apart r hr a ha (hpay.trans heq.symm)
  · rcases h.covered a ha with hk | ⟨r, hr, heq⟩
    · obtain ⟨hlive, hnot⟩ := Heap.mem_beside.mp hk
      rcases hall.covered a hlive with hk' | ⟨r, hr, heq⟩
      · cases hk'
      · refine ⟨r, List.mem_append_right _ ((List.mem_append.mp hr).resolve_left fun hm => hnot ?_), heq⟩
        exact List.mem_map.mpr ⟨r, hm, heq⟩
    · exact ⟨r, List.mem_append_left _ hr, heq⟩

end Holding

end ShmNext
