import Mathlib.Data.Nat.Log
import ShmNext.CanonicalState
import ShmNext.ElementStorage

/-! What allocator calls leave of the allocations they are not about, and that the chain and the
free list are back once the allocations are. -/
namespace ShmNext
open Prog

variable {s c d : Allocator} {a : LiveAlloc} {bs bs' l l' : List Block} {live live' news : List LiveAlloc} {n al A p k : ℕ}

/-- The bytes of the payload and the size of its block are the same. -/
structure Undisturbed (a : LiveAlloc) (s c : Allocator) : Prop where
  bytes : SamePayload a s.mem c.mem
  block_size : blockSize c.mem a.block = blockSize s.mem a.block

namespace Undisturbed

theorem refl (a : LiveAlloc) (s : Allocator) : Undisturbed a s s := ⟨.refl a _, rfl⟩

theorem trans (h : Undisturbed a s c) (h' : Undisturbed a c d) : Undisturbed a s d :=
  ⟨h.bytes.trans h'.bytes, h'.block_size.trans h.block_size⟩

end Undisturbed

theorem CountersOnly.undisturbed (h : CountersOnly s c) (a : LiveAlloc) : Undisturbed a s c := by
  obtain ⟨k, rfl⟩ := h
  exact ⟨.refl a _, rfl⟩

theorem CountersOnly.place_eq (h : CountersOnly s c) : c.place = s.place ∧ c.segmentSize = s.segmentSize := by
  obtain ⟨k, rfl⟩ := h
  exact ⟨rfl, rfl⟩

namespace HeapInv
variable {lost : ℕ → Prop}

/-- The block of a live allocation, as its header has it. -/
theorem block_mem (h : HeapInv lost s live bs l) (ha : a ∈ live) : ⟨a.block, blockSize s.mem a.block, false⟩ ∈ bs := by
  obtain ⟨b, hb, hh⟩ := h.placed a ha
  obtain ⟨hsize, -⟩ := h.linked.headers b hb
  obtain ⟨addr, size, free⟩ := b
  obtain rfl : addr = a.block := hh.addr
  obtain rfl : free = false := hh.allocated
  dsimp only at hsize
  rw [hsize]
  exact hb

theorem block_size_of_spared (h : HeapInv lost s live bs l) (h' : HeapInv lost c live' bs' l') (ha : a ∈ live) {g : Heap}
    (hg : g.alloc = c) (hspared : Spared live bs g) : blockSize c.mem a.block = blockSize s.mem a.block := by
  have hmem := hspared.chain _ (h.block_mem ha) rfl ⟨a, ha, rfl⟩
  rw [hg, h'.toSane.blockChain_eq] at hmem
  exact (h'.linked.headers _ hmem).1

/-- `allocate`: one more live allocation, or nothing but counters; the others are left alone. -/
theorem run_allocate_undisturbed (h : HeapInv lost s live bs l) (hn : 0 < n) (hn' : n < 2^64) (ha : normalizeAlignment al = some A)
    (hfits : AllocateFits s n al) :
    (∃ p c, (allocate n al).run s = (.ok p, c) ∧ p ≠ 0 ∧
      (∃ bs' l', HeapInv lost c (⟨headerBlock c.mem p, p, n, A⟩ :: live) bs' l') ∧ (∀ a ∈ live, Undisturbed a s c) ∧
      c.place = s.place ∧ c.segmentSize = s.segmentSize) ∨
    ∃ c, (allocate n al).run s = (.error (.interprocess .badAlloc), c) ∧ CountersOnly s c := by
  rcases h.run_allocate hn hn' ha hfits with ⟨p, c, hrun, hp, ⟨bs', l', hinv⟩, hbytes⟩ | hthrow
  · refine Or.inl ⟨p, c, hrun, hp, ⟨bs', l', hinv⟩, fun a hal => ⟨hbytes a hal, ?_⟩, ?_, ?_⟩
    · have hexec : (⟨s, live, []⟩ : Heap).exec (.allocate n al) = some ⟨c, newAllocs c.mem n al [p] ++ live, []⟩ := by
        unfold Heap.exec
        dsimp only
        rw [hrun]
      have hspared := @spared_allocate ⟨s, live, []⟩ _ bs l live lost n al h (fun _ ha => ha) ⟨hn', hfits⟩ hexec
      exact h.block_size_of_spared hinv hal rfl hspared
    · have := readsFields_place.allocate n al s
      rwa [hrun] at this
    · have := readsFields_size.allocate n al s
      rwa [hrun] at this
  · exact Or.inr hthrow

/-- `deallocate` of a live payload; the others are left alone. -/
theorem run_deallocate_undisturbed (h : HeapInv lost s live bs l) (ha : a ∈ live) :
    ∃ c, (deallocate a.payload).run s = (.ok (), c) ∧ (∃ bs' l', HeapInv lost c (live.filter (·.payload ≠ a.payload)) bs' l') ∧
      (∀ a' ∈ live, a'.payload ≠ a.payload → Undisturbed a' s c) ∧ c.place = s.place ∧ c.segmentSize = s.segmentSize := by
  obtain ⟨-, _, c, hrun, ⟨bs', l', hinv⟩, hbytes⟩ := h.runs_deallocate ha
  refine ⟨c, hrun, ⟨bs', l', hinv⟩, fun a' hal hne => ⟨hbytes a' hal hne, ?_⟩, ?_, ?_⟩
  · have hexec : (⟨s, live, []⟩ : Heap).exec (.deallocate a.payload) = some ((⟨s, live, []⟩ : Heap).release c [a.payload]) := by
      unfold Heap.exec
      dsimp only
      rw [hrun]
    have hkept : ∀ a' ∈ live.filter (·.payload ≠ a.payload), a' ∈ live := fun _ hm => (List.mem_filter.mp hm).1
    have hspared := @spared_deallocate ⟨s, live, []⟩ _ bs l (live.filter (·.payload ≠ a.payload)) lost a.payload h hkept
      (Or.inr (Or.inl ⟨a, ha, rfl⟩)) (fun a' hm => of_decide_eq_true (List.mem_filter.mp hm).2) hexec
    have hmem := hspared.chain _ (h.block_mem hal) rfl ⟨a', List.mem_filter.mpr ⟨hal, decide_eq_true hne⟩, rfl⟩
    have hchain : blockChain ((⟨s, live, []⟩ : Heap).release c [a.payload]).alloc = bs' := hinv.toSane.blockChain_eq
    rw [hchain] at hmem
    exact (hinv.linked.headers _ hmem).1
  · have := readsFields_place.deallocate a.payload s
    rwa [hrun] at this
  · have := readsFields_size.deallocate a.payload s
    rwa [hrun] at this

/-- Where the allocations are what they were, so are the chain and the free list, with their order. -/
theorem restored (h : HeapInv (fun _ => False) s live bs l) (h' : HeapInv (fun _ => False) c live' bs' l')
    (hlive : ∀ a, a ∈ live' ↔ a ∈ live) (hsame : ∀ a ∈ live, Undisturbed a s c)
    (hplace : c.place = s.place ∧ c.segmentSize = s.segmentSize) :
    blockChain c = blockChain s ∧ freeList c = freeList s := by
  obtain ⟨hfirst, hbegin⟩ := ShmNext.place_eq hplace.1
  have hall : ∀ b : Block, b.free = false → (b ∈ bs ↔ b ∈ bs') := by
    rintro ⟨addr, size, free⟩ hf
    obtain rfl : free = false := hf
    constructor
    · intro hb
      obtain ⟨a, ha, haddr⟩ := (h.owned _ hb rfl).resolve_left id
      obtain rfl : a.block = addr := haddr
      have hmem := h'.block_mem ((hlive a).mpr ha)
      rw [(hsame a ha).block_size] at hmem
      rwa [h.linked.addr_inj hb (h.block_mem ha) rfl]
    · intro hb
      obtain ⟨a, ha, haddr⟩ := (h'.owned _ hb rfl).resolve_left id
      obtain rfl : a.block = addr := haddr
      have hmem := h'.block_mem ha
      rw [(hsame a ((hlive a).mp ha)).block_size] at hmem
      rw [h'.linked.addr_inj hb hmem rfl]
      exact h.block_mem ((hlive a).mp ha)
  have hend : c.segmentBegin+c.segmentSize = s.segmentBegin+s.segmentSize := by rw [hbegin, hplace.2]
  obtain ⟨rfl, rfl⟩ := h.toWellFormed.eq_of_allocated h'.toWellFormed hfirst hend hall
  rw [h'.toSane.blockChain_eq, h'.toSane.freeList_eq, h.toSane.blockChain_eq, h.toSane.freeList_eq]
  exact ⟨rfl, rfl⟩

/-- Giving back the latest allocations, the latest first. -/
theorem run_freeAll_undisturbed (h : HeapInv lost s (news ++ live) bs l) :
    ∃ c, ((news.map LiveAlloc.payload).forM deallocate).run s = (.ok (), c) ∧ (∃ bs' l', HeapInv lost c live bs' l') ∧
      (∀ a ∈ live, Undisturbed a s c) ∧ c.place = s.place ∧ c.segmentSize = s.segmentSize := by
  induction news generalizing s bs l with
  | nil => exact ⟨s, rfl, ⟨bs, l, h⟩, fun a _ => .refl a s, rfl, rfl⟩
  | cons a news ih =>
    obtain ⟨c, hrun, ⟨bs₁, l₁, h₁⟩, hsame₁, hplace₁⟩ := h.run_deallocate_undisturbed (a := a) (by simp)
    have hnd := h.payloads_nodup
    rw [List.cons_append, List.map_cons, List.nodup_cons] at hnd
    have hother : ∀ a' ∈ news ++ live, a'.payload ≠ a.payload := fun a' ha' heq => hnd.1 (heq ▸ List.mem_map_of_mem ha')
    have hfilter : (a :: news ++ live).filter (·.payload ≠ a.payload) = news ++ live := by
      rw [List.cons_append, List.filter_cons_of_neg (by simp), List.filter_eq_self]
      exact fun a' ha' => decide_eq_true (hother a' ha')
    rw [hfilter] at h₁
    obtain ⟨d, hrest, hinv, hsame, hplace⟩ := ih h₁
    refine ⟨d, (run_bind_ok hrun _).trans hrest, hinv, fun a' ha' => ?_, hplace.1.trans hplace₁.1, hplace.2.trans hplace₁.2⟩
    have hm : a' ∈ news ++ live := List.mem_append_right _ ha'
    exact (hsame₁ a' (List.mem_cons_of_mem _ hm) (hother a' hm)).trans (hsame a' ha')

/-- The loop of `allocate_many`: all payloads are live, or none of them is and the others are left alone. -/
theorem run_allocateManyLoop_undisturbed {left : ℕ} (h : HeapInv lost s (news ++ live) bs l) (hn : 0 < n) (hn' : n < 2^64)
    (ha : normalizeAlignment al = some A) (hfits : ManyFits n al left s) :
    ∃ r c, (allocateManyLoop n al left (news.map LiveAlloc.payload)).run s = (.ok r, c) ∧
      (∀ a ∈ live, Undisturbed a s c) ∧ (c.place = s.place ∧ c.segmentSize = s.segmentSize) ∧
      ((∃ more, r = (((more ++ news).map LiveAlloc.payload).reverse, none) ∧ more.length = left ∧
        (∀ a ∈ more, a.size = n ∧ a.align = A) ∧ ∃ bs' l', HeapInv lost c (more ++ news ++ live) bs' l') ∨
      (∃ j < news.length+left, r = (List.replicate j 0, some (.interprocess .badAlloc)) ∧ ∃ bs' l', HeapInv lost c live bs' l')) := by
  induction left generalizing s bs l news with
  | zero => exact ⟨_, s, rfl, fun a _ => .refl a s, ⟨rfl, rfl⟩, Or.inl ⟨[], rfl, rfl, by simp, bs, l, h⟩⟩
  | succ left ih =>
    unfold allocateManyLoop
    rcases h.run_allocate_undisturbed hn hn' ha hfits.1 with ⟨p, c, hrun, hp, ⟨bs₁, l₁, hc⟩, hsame₁, hplace₁⟩ | ⟨c, hrun, hc⟩
    · have hstep : (allocate n al).attempt.run s = (.ok (.ok p), c) := by rw [run_attempt, hrun]
      obtain ⟨r, d, hr, hsame, hplace, hres⟩ := @ih _ _ _ (⟨headerBlock c.mem p, p, n, A⟩ :: news) hc
        (hfits.2 c (by unfold afterAllocate; rw [hrun]; rfl))
      refine ⟨r, d, (run_bind_ok hstep _).trans hr, fun a ha => (hsame₁ a (by simp [ha])).trans (hsame a ha),
        ⟨hplace.1.trans hplace₁.1, hplace.2.trans hplace₁.2⟩, ?_⟩
      rcases hres with ⟨more, rfl, hlen, hall, bs', l', hinv⟩ | ⟨j, hj, hres⟩
      · refine Or.inl ⟨more ++ [⟨headerBlock c.mem p, p, n, A⟩], by simp, by simp [hlen], ?_, bs', l', by simpa using hinv⟩
        intro a ha
        rcases List.mem_append.mp ha with ha | ha
        · exact hall a ha
        · rw [List.mem_singleton.mp ha]
          exact ⟨rfl, rfl⟩
      · exact Or.inr ⟨j, by rw [List.length_cons] at hj; omega, hres⟩
    · -- the payloads so far are given back, the latest first
      have hstep : (allocate n al).attempt.run s = (.ok (.error (.interprocess .badAlloc)), c) := by
        rw [run_attempt, hrun]
      obtain ⟨d, hd, hinv, hsame, hplace⟩ := (h.counters hc).run_freeAll_undisturbed
      refine ⟨_, d, (run_bind_ok hstep _).trans (run_bind_ok hd _), fun a ha => (hc.undisturbed a).trans (hsame a ha),
        ⟨hplace.1.trans hc.place_eq.1, hplace.2.trans hc.place_eq.2⟩, Or.inr ⟨news.length, by omega, ?_, hinv⟩⟩
      simp [List.eq_replicate_iff]

end HeapInv

/-- Alignments up to `2^63` are normalized; beyond, the doubling wraps to zero and never ends. -/
theorem normalizeAlignment_of_le (hal : al ≤ 2^63) : ∃ A, normalizeAlignment al = some A := by
  have hclog : Nat.clog 2 al ≤ 63 := (Nat.clog_mono_right 2 hal).trans (Nat.clog_pow 2 63 (by decide)).le
  refine ⟨2^max 4 (Nat.clog 2 al), normalizeLoop_reaches (j := 4) (le_max_left _ _) (by omega) (by omega) (fun i h4 hi => ?_) ?_⟩
  · exact (Nat.lt_clog_iff_pow_lt (by decide)).mp (by omega)
  · exact (Nat.le_pow_clog (by decide) al).trans (Nat.pow_le_pow_right (by decide) (le_max_right _ _))

/-- Live allocations of one size are apart. -/
theorem HeapInv.payloads_pairwise {lost : ℕ → Prop} (h : HeapInv lost s live bs l) (hsub : news.Sublist live)
    (hsize : ∀ a ∈ news, a.size = n) : (news.map LiveAlloc.payload).Pairwise fun p q => p+n ≤ q ∨ q+n ≤ p := by
  rw [List.pairwise_map]
  have hnd : live.Nodup := h.distinct.of_map
  refine (hnd.sublist hsub).pairwise_of_forall_ne fun a ha a' ha' hne => ?_
  have hapart := (HeapInv.payloads_apart (g := ⟨s, live, []⟩) h (hsub.mem ha)).2.2.2 a' (hsub.mem ha') hne.symm
  rwa [hsize a ha, hsize a' ha'] at hapart

/-- `allocate_many` is all or nothing. It fills `out` with payloads that are live, of the size asked for
and apart from each other, or it throws, all entries it has filled are null again, and the chain, the free list
and the earlier allocations are what they were. -/
theorem allocate_many_all_or_nothing {g : Heap} (h : HeapInv (fun _ => False) g.alloc g.live bs l)
    (hal : 0 < n → 0 < k → al ≤ 2^63) (hadm : g.Admissible (.allocateMany n k al)) : ∃ r c, (allocateMany n k al).run g.alloc = (.ok r, c) ∧
    ((r.2 = none ∧ r.1.length = k ∧ (0 < n → r.1.Pairwise (fun p q => p+n ≤ q ∨ q+n ≤ p) ∧
        (∀ p ∈ r.1, (allocationSize p).run c = (.ok n, c)) ∧ ∃ more : List LiveAlloc, r.1 = more.map LiveAlloc.payload ∧
          (∀ a ∈ more, a.size = n) ∧ ∃ bs' l', HeapInv (fun _ => False) c (more.reverse ++ g.live) bs' l')) ∨
      ((∃ e, r.2 = some e) ∧ r.1.length < k ∧ (∀ p ∈ r.1, p = 0) ∧
        blockChain c = blockChain g.alloc ∧ freeList c = freeList g.alloc ∧
        (∀ a ∈ g.live, SamePayload a g.alloc.mem c.mem) ∧ ∃ bs' l', HeapInv (fun _ => False) c g.live bs' l')) := by
  obtain ⟨hn', hfits⟩ := hadm
  unfold allocateMany
  rw [run_count_bind]
  change ManyFits n al k { g.alloc with counters := _ } at hfits
  generalize hd : ({ g.alloc with counters := _ } : Allocator) = d at hfits ⊢
  have hcd : CountersOnly g.alloc d := ⟨_, hd.symm⟩
  have hinv := h.counters hcd
  rcases Nat.eq_zero_or_pos n with rfl | hn
  · obtain ⟨c, hrun, -⟩ := @HeapInv.run_allocateManyLoop_zero al k [] d
    refine ⟨_, c, hrun, Or.inl ⟨rfl, by simp, fun hpos => absurd hpos (Nat.lt_irrefl 0)⟩⟩
  rcases Nat.eq_zero_or_pos k with rfl | hk
  · refine ⟨([], none), d, rfl, Or.inl ⟨rfl, rfl, fun _ => ⟨List.Pairwise.nil, fun p hp => ?_, [], rfl, fun a ha => ?_, bs, l, hinv⟩⟩⟩
    · exact absurd hp List.not_mem_nil
    · exact absurd ha List.not_mem_nil
  obtain ⟨A, hA⟩ := normalizeAlignment_of_le (hal hn hk)
  obtain ⟨r, c, hrun, hsame, hplace, hres⟩ :=
    @HeapInv.run_allocateManyLoop_undisturbed d bs l g.live [] n al A (fun _ => False) k hinv hn hn' hA hfits
  refine ⟨r, c, hrun, ?_⟩
  rcases hres with ⟨more, rfl, hlen, hall, bs', l', hc⟩ | ⟨j, hj, rfl, bs', l', hc⟩
  · rw [List.append_nil] at hc ⊢
    have hsize : ∀ a ∈ more, a.size = n := fun a ha => (hall a ha).1
    refine Or.inl ⟨rfl, by simp [hlen], fun _ => ⟨?_, fun p hp => ?_, more.reverse, by simp, by simpa using hsize, bs', l', ?_⟩⟩
    · have hpair := hc.payloads_pairwise (List.sublist_append_left more g.live) hsize
      exact List.pairwise_reverse.mpr (hpair.imp fun hpq => hpq.symm)
    · obtain ⟨a, ha, rfl⟩ := List.mem_map.mp (List.mem_reverse.mp hp)
      have hrun' := hc.run_allocationSize (List.mem_append_left _ ha)
      rwa [hsize a ha] at hrun'
    · rw [List.reverse_reverse]
      exact hc
  · have hback : ∀ a ∈ g.live, Undisturbed a g.alloc c := fun a ha => (hcd.undisturbed a).trans (hsame a ha)
    obtain ⟨hchain, hlist⟩ := h.restored hc (fun _ => Iff.rfl) hback ⟨hplace.1.trans hcd.place_eq.1, hplace.2.trans hcd.place_eq.2⟩
    refine Or.inr ⟨⟨_, rfl⟩, ?_, fun p hp => List.eq_of_mem_replicate hp, hchain, hlist, fun a ha => (hback a ha).bytes, bs', l', hc⟩
    simpa using hj

/-- On the small segment three blocks of 1000 bytes fit, four do not. -/
theorem allocate_many_all_or_nothing_small : ((allocateMany 1000 4 16).run smallHeap.alloc).1 =
      .ok ([0, 0, 0], some (.interprocess .badAlloc)) ∧
    blockChain ((allocateMany 1000 4 16).run smallHeap.alloc).2 = blockChain smallHeap.alloc := by
  obtain ⟨bs, l, hinv⟩ := smallHeap_reachable.inv
  obtain ⟨r, c, hrun, hres⟩ := allocate_many_all_or_nothing hinv (fun _ _ => by decide : 0 < 1000 → 0 < 4 → 16 ≤ 2^63)
    (by decide +kernel : smallHeap.Admissible (.allocateMany 1000 4 16))
  have hr : ((allocateMany 1000 4 16).run smallHeap.alloc).1 = .ok ([0, 0, 0], some (.interprocess .badAlloc)) := by
    decide +kernel
  refine ⟨hr, ?_⟩
  rw [hrun] at hr ⊢
  obtain rfl : r = ([0, 0, 0], some (.interprocess .badAlloc)) := Outcome.ok.inj hr
  rcases hres with ⟨hnone, -⟩ | ⟨-, -, -, hchain, -⟩
  · cases hnone
  · exact hchain

end ShmNext
