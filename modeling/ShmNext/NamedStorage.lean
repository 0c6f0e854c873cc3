import ShmNext.NamedEntries

/-! The storage of named objects: the three blocks of an entry, and the sections that take them and give them back. -/
namespace ShmNext
open Prog NamedObjectRegistry NamedOp NamedWorld SharedMemoryManager

variable {w w' : NamedWorld} {E : Buckets} {e : NamedEntry} {p q n al A : ℕ} {g g₀ : Heap} {kept : List LiveAlloc}
  {mine mine' : List (ℕ × ℕ)} {a : LiveAlloc} {α : Type} {Q : α → NamedWorld → Prop} {F : NamedThrown → NamedWorld → Prop}

namespace NamedWorld

/-- The allocations `mine` are held besides those of `kept`, and what is in a block fits there. -/
structure Stocked (g₀ : Heap) (kept : List LiveAlloc) (w : NamedWorld) (mine : List (ℕ × ℕ)) : Prop where
  holding : Holding g₀ kept w.heap mine
  placed : ∀ q c, w.cell q = some c → ∃ a ∈ w.heap.live, a.payload = q ∧ c.extent ≤ a.size

namespace Stocked

theorem perm (h : w.Stocked g₀ kept mine) (hp : mine.Perm mine') : w.Stocked g₀ kept mine' := ⟨h.holding.perm hp, h.placed⟩

/-- A heap that has the same bytes where the cells are. -/
theorem withHeap_eq (h : w.Stocked g₀ kept mine)
    (hsame : ∀ a ∈ w.heap.live, w.cell a.payload ≠ none → SamePayload a w.heap.alloc.mem g.alloc.mem) :
    w.withHeap g = { w with heap := g } := by
  have hcell : (fun q => (w.cell q).filter fun c => decide (∀ i < c.extent, g.alloc.mem (q+i) = w.heap.alloc.mem (q+i))) = w.cell := by
    funext q
    cases hq : w.cell q with
    | none => rfl
    | some c =>
      obtain ⟨a, ha, rfl, hext⟩ := h.placed q c hq
      have hbytes := hsame a ha (by rw [hq]; exact Option.some_ne_none c)
      refine Option.filter_eq_some_iff.mpr ⟨rfl, decide_eq_true fun i hi => hbytes _ ?_ ?_⟩ <;> omega
  unfold NamedWorld.withHeap
  rw [hcell]

/-- What is held lies above the null address. -/
theorem ne_zero (h : w.Stocked g₀ kept mine) {r : ℕ × ℕ} (hr : r ∈ mine) : r.1 ≠ 0 := Nat.pos_iff_ne_zero.mp (h.holding.bounds hr).1

/-- Cells have come and gone in blocks of one's own. -/
theorem withCell (h : w.Stocked g₀ kept mine) (hheap : w'.heap = w.heap)
    (hcell : ∀ q c, w'.cell q = some c → (∃ c', w.cell q = some c' ∧ c'.extent = c.extent) ∨ ∃ r ∈ mine, r.1 = q ∧ c.extent ≤ r.2) :
    w'.Stocked g₀ kept mine := by
  refine ⟨hheap.symm ▸ h.holding, fun q c hq => ?_⟩
  rw [hheap]
  rcases hcell q c hq with ⟨c', hc', hext⟩ | ⟨r, hr, rfl, hext⟩
  · rw [← hext]
    exact h.placed q c' hc'
  · obtain ⟨a, ha, hpay, hsize⟩ := h.holding.mine_live r hr
    exact ⟨a, ha, hpay, by rw [hsize]; exact hext⟩

/-- What is in the blocks has changed, but not how much room it takes. -/
theorem of_extents (h : w.Stocked g₀ kept mine) (hheap : w'.heap = w.heap)
    (hext : ∀ q, (w'.cell q).map NamedCell.extent = (w.cell q).map NamedCell.extent) : w'.Stocked g₀ kept mine := by
  refine h.withCell hheap fun q c hq => Or.inl ?_
  have hsome := hext q
  rw [hq, Option.map_some] at hsome
  obtain ⟨c', hc', hext⟩ := Option.map_eq_some_iff.mp hsome.symm
  exact ⟨c', hc', hext⟩

/-- What is in the blocks of an entry is what it says. -/
theorem withEntry (h : w.Stocked g₀ kept (e.blocks ++ mine)) (hheap : w'.heap = w.heap) (hs : w'.Shows e)
    (hframe : ∀ q, q ∉ e.addresses → w'.cell q = w.cell q) : w'.Stocked g₀ kept (e.blocks ++ mine) := by
  refine h.withCell hheap fun q c hq => ?_
  by_cases hmem : q ∈ e.addresses
  · right
    simp only [NamedEntry.addresses, List.mem_cons, List.not_mem_nil, or_false] at hmem
    rcases hmem with rfl | rfl | rfl
    · obtain rfl := Option.some.inj (hs.name.symm.trans hq)
      exact ⟨(e.nameAt, e.name.length+1), by simp [NamedEntry.blocks], rfl, le_rfl⟩
    · obtain rfl := Option.some.inj (hs.header.symm.trans hq)
      exact ⟨(e.header, namedObjectHeaderSize), by simp [NamedEntry.blocks], rfl, le_rfl⟩
    · obtain rfl := Option.some.inj (hs.object.symm.trans hq)
      exact ⟨(e.object, e.count*e.size), by simp [NamedEntry.blocks], rfl, le_rfl⟩
  · exact Or.inl ⟨c, (hframe q hmem) ▸ hq, rfl⟩

end Stocked

/-- The heap alone has changed. -/
def OnlyHeap (w w' : NamedWorld) : Prop := w' = { w with heap := w'.heap }

namespace OnlyHeap

theorem refl (w : NamedWorld) : w.OnlyHeap w := rfl

theorem trans {w'' : NamedWorld} (h : w.OnlyHeap w') (h' : w'.OnlyHeap w'') : w.OnlyHeap w'' := by
  unfold OnlyHeap at *
  rw [h', h]

theorem cell (h : w.OnlyHeap w') : w'.cell = w.cell := (congrArg NamedWorld.cell h).trans rfl

theorem buckets (h : w.OnlyHeap w') : w'.buckets = w.buckets := (congrArg NamedWorld.buckets h).trans rfl

/-- A block that held nothing has been given back. -/
theorem of_clear (h : { w with cell := Function.update w.cell p none }.OnlyHeap w') (hp : w.cell p = none) : w.OnlyHeap w' := by
  have hsame : ({ w with cell := Function.update w.cell p none } : NamedWorld) = w := by
    rw [← hp, Function.update_eq_self]
  rwa [hsame] at h

end OnlyHeap

/-- The lists read nothing but the counters, the buckets and the blocks of the entries. -/
theorem Lists.congr (h : w.Lists E) (hcell : ∀ e ∈ E.entries, ∀ q ∈ e.addresses, w'.cell q = w.cell q) (hbuckets : w'.buckets = w.buckets)
    (hready : w'.readyCount = w.readyCount) (htotal : w'.totalCount = w.totalCount) : w'.Lists E := by
  refine ⟨fun i hi => ?_, fun e he => (h.shows e he).congr (hcell e he), h.in_bucket, h.named, hready.trans h.ready,
    htotal.trans h.total, h.apart⟩
  rw [hbuckets]
  refine (h.chains i hi).congr fun q hq => ?_
  obtain ⟨e, he, rfl⟩ := List.mem_map.mp hq
  exact next_congr (hcell e (Lists.mem_entries_of_mem hi he) _ e.header_mem)

theorem Lists.onlyHeap (h : w.Lists E) (hw : w.OnlyHeap w') : w'.Lists E :=
  h.congr (fun _ _ q _ => congrFun hw.cell q) hw.buckets ((congrArg NamedWorld.readyCount hw).trans rfl)
    ((congrArg NamedWorld.totalCount hw).trans rfl)

/-- Headers are fewer than there are addresses, as none is at the null address. -/
theorem Lists.length_lt (h : w.Lists E) (hs : w.Stocked g₀ kept mine) : E.entries.length < walkFuel := by
  obtain ⟨bs, l, hinv⟩ := hs.holding.heap
  have hrow : ∀ q ∈ E.entries.map NamedEntry.header, q ≠ 0 ∧ q < 2^64 := by
    intro q hq
    obtain ⟨e, he, rfl⟩ := List.mem_map.mp hq
    refine ⟨h.header_ne_zero he, ?_⟩
    obtain ⟨a, ha, hpay, -⟩ := hs.placed _ _ (h.shows e he).header
    have hin := (hinv.payloads_apart ha).1
    have hg := hinv.linked.geometry
    rw [hg.segmentEnd_eq] at hin
    have hend := hg.end_lt
    omega
  have hnull : (0 :: E.entries.map NamedEntry.header).Nodup := List.nodup_cons.mpr ⟨fun hmem => (hrow 0 hmem).1 rfl, h.apart.headers⟩
  have hrange : 0 :: E.entries.map NamedEntry.header ⊆ List.range (2^64) := by
    intro q hq
    rcases List.mem_cons.mp hq with rfl | hq
    · exact List.mem_range.mpr (by decide)
    · exact List.mem_range.mpr (hrow q hq).2
  have hlen := (hnull.subperm hrange).length_le
  rwa [List.length_range, List.length_cons, List.length_map] at hlen

end NamedWorld

namespace NamedOp

theorem run_inAllocator_ok {call : Op α} {a : α} {s : Allocator} (h : call.run w.heap.alloc = (.ok a, s)) :
    (inAllocator call).run w = (.ok a, { w with heap := { w.heap with alloc := s } }) := by
  induction call generalizing w with
  | ret b =>
    cases h
    rfl
  | throw e => cases h
  | hang => cases h
  | read k ih => exact ih _ h
  | write f k ih => exact @ih { w with heap := { w.heap with alloc := f w.heap.alloc } } h

theorem run_inAllocator_error {call : Op α} {e : Thrown} {s : Allocator} (h : call.run w.heap.alloc = (.error e, s)) :
    (inAllocator call).run w = (.error (.manager e), { w with heap := { w.heap with alloc := s } }) := by
  induction call generalizing w with
  | ret b => cases h
  | throw e =>
    cases h
    rfl
  | hang => cases h
  | read k ih => exact ih _ h
  | write f k ih => exact @ih { w with heap := { w.heap with alloc := f w.heap.alloc } } h

theorem run_callAllocator_ok {call : Op α} {after : α → Heap → Heap} {a : α} {s : Allocator} (h : call.run w.heap.alloc = (.ok a, s)) :
    (callAllocator call after).run w = (.ok a, w.withHeap (after a { w.heap with alloc := s })) := by
  have hattempt : (inAllocator call).attempt.run w = (.ok (.ok a), { w with heap := { w.heap with alloc := s } }) := by
    rw [run_attempt, run_inAllocator_ok h]
  exact (run_read _ w).trans (run_bind_ok hattempt _)

theorem run_callAllocator_error {call : Op α} {after : α → Heap → Heap} {e : Thrown} {s : Allocator}
    (h : call.run w.heap.alloc = (.error e, s)) :
    (callAllocator call after).run w = (.error (.manager e), w.withHeap { w.heap with alloc := s }) := by
  have hattempt : (inAllocator call).attempt.run w = (.ok (.error (.manager e)), { w with heap := { w.heap with alloc := s } }) := by
    rw [run_attempt, run_inAllocator_error h]
  exact (run_read _ w).trans (run_bind_ok hattempt _)

theorem ends_callAllocator {call : Op α} {after : α → Heap → Heap}
    (h : call.Ends w.heap.alloc (fun a s => Q a (w.withHeap (after a { w.heap with alloc := s })))
      fun e s => F (.manager e) (w.withHeap { w.heap with alloc := s })) : (callAllocator call after).Ends w Q F := by
  rcases h.cases with ⟨a, s, hcall, hq⟩ | ⟨e, s, hcall, hf⟩
  · exact ends_of_ok (run_callAllocator_ok hcall) hq
  · exact ends_of_error (run_callAllocator_error hcall) hf

theorem ends_allocate (h : w.Stocked g₀ kept mine) (hn : 0 < n) (hal : normalizeAlignment al = some A) (hroom : AddressRoom g₀ n al) :
    (NamedOp.allocate n al).Ends w
      (fun p w' => p ≠ 0 ∧ w.cell p = none ∧ w.OnlyHeap w' ∧ w'.Stocked g₀ kept ((p, n) :: mine))
      fun e w' => e = .manager (.interprocess .badAlloc) ∧ w.OnlyHeap w' ∧ w'.Stocked g₀ kept mine := by
  obtain ⟨bs, l, hinv⟩ := h.holding.heap
  have hroom' := h.holding.room hroom
  have hsmall : n < 2^64 := by
    have := hroom' A hal
    omega
  refine ends_callAllocator ?_
  rcases h.holding.allocate hn hsmall hal (hinv.allocateFits_of_room hroom') with ⟨p, s, hrun, hp, hnew, hsame, hhold⟩ | ⟨s, hrun, hc⟩
  · refine ends_of_ok hrun ?_
    rw [h.withHeap_eq (g := { w.heap with alloc := s, live := newAllocs s.mem n al [p] ++ w.heap.live }) fun a ha _ => hsame a ha]
    refine ⟨hp, ?_, rfl, hhold, fun q c hq => ?_⟩
    · by_contra hcon
      obtain ⟨c, hc⟩ := Option.ne_none_iff_exists'.mp hcon
      obtain ⟨a, ha, hpay, -⟩ := h.placed p c hc
      exact hnew a ha hpay
    · obtain ⟨a, ha, hpay, hext⟩ := h.placed q c hq
      exact ⟨a, List.mem_append_right _ ha, hpay, hext⟩
  · refine ends_of_error hrun ?_
    have hmem := hc.mem_eq
    rw [h.withHeap_eq (g := { w.heap with alloc := s }) fun a _ _ => by rw [hmem]; exact .refl a _]
    exact ⟨rfl, rfl, h.holding.counters hc, h.placed⟩

/-- A block that holds nothing is given back. -/
theorem ends_deallocate_empty (h : w.Stocked g₀ kept ((p, n) :: mine)) (hp : w.cell p = none) :
    (callAllocator (ShmNext.deallocate p) fun _ g => g.release g.alloc [p]).Ends w
      (fun _ w' => w.OnlyHeap w' ∧ w'.Stocked g₀ kept mine ∧ w'.heap.freed = p :: w.heap.freed) F := by
  refine ends_callAllocator ?_
  obtain ⟨s, hrun, hsame, hhold⟩ := h.holding.deallocate
  refine ends_of_ok hrun ?_
  have hne : ∀ q, w.cell q ≠ none → q ≠ p := by
    rintro q hq rfl
    exact hq hp
  have heap_eq : w.withHeap (w.heap.release s [p]) = { w with heap := w.heap.release s [p] } :=
    h.withHeap_eq fun a ha hcell => hsame a ha (hne _ hcell)
  have hend : w.OnlyHeap (w.withHeap (w.heap.release s [p])) ∧ (w.withHeap (w.heap.release s [p])).Stocked g₀ kept mine ∧
      (w.withHeap (w.heap.release s [p])).heap.freed = p :: w.heap.freed := by
    rw [heap_eq]
    refine ⟨rfl, ⟨hhold, fun q c hq => ?_⟩, h.holding.freed_release⟩
    obtain ⟨a, ha, hpay, hext⟩ := h.placed q c hq
    refine ⟨a, List.mem_filter.mpr ⟨ha, ?_⟩, hpay, hext⟩
    have hqp := hne q (fun hnone => Option.some_ne_none c (hq.symm.trans hnone))
    rw [hpay]
    simpa using hqp
  exact hend

/-- What is in a block goes with it. -/
theorem ends_deallocate (h : w.Stocked g₀ kept ((p, n) :: mine)) :
    (NamedOp.deallocate p).Ends w
      (fun _ w' => { w with cell := Function.update w.cell p none }.OnlyHeap w' ∧ w'.Stocked g₀ kept mine ∧
        w'.heap.freed = p :: w.heap.freed) F := by
  have hclear : ({ w with cell := Function.update w.cell p none } : NamedWorld).Stocked g₀ kept ((p, n) :: mine) := by
    refine h.withCell rfl fun q c hq => Or.inl ⟨c, ?_, rfl⟩
    change Function.update w.cell p none q = some c at hq
    have hqp : q ≠ p := by
      rintro rfl
      rw [Function.update_self] at hq
      cases hq
    rwa [Function.update_of_ne hqp] at hq
  exact ends_store_bind (ends_deallocate_empty hclear (Function.update_self ..))

/-- To a null pointer nothing happens: the call is counted. -/
theorem run_deallocate_null (h : w.Stocked g₀ kept mine) : ∃ c, (NamedOp.deallocate 0).run w = (.ok (), { w with heap := { w.heap with alloc := c } }) ∧
    CountersOnly w.heap.alloc c ∧ c.counters.allocateCalls = w.heap.alloc.counters.allocateCalls := by
  have hnull : ∀ a ∈ w.heap.live, a.payload ≠ 0 := by
    obtain ⟨bs, l, hinv⟩ := h.holding.heap
    intro a ha heq
    obtain ⟨b, -, hb⟩ := hinv.placed a ha
    have := hb.above
    omega
  have hcell : w.cell 0 = none := by
    by_contra hcon
    obtain ⟨c, hc⟩ := Option.ne_none_iff_exists'.mp hcon
    obtain ⟨a, ha, hpay, -⟩ := h.placed 0 c hc
    exact hnull a ha hpay
  have hsame : ({ w with cell := Function.update w.cell 0 none } : NamedWorld) = w := by
    rw [← hcell, Function.update_eq_self]
  obtain ⟨s, hrun, hc, hcalls⟩ : ∃ s, (ShmNext.deallocate 0).run w.heap.alloc = (.ok (), s) ∧ CountersOnly w.heap.alloc s ∧
      s.counters.allocateCalls = w.heap.alloc.counters.allocateCalls := ⟨_, rfl, ⟨_, rfl⟩, rfl⟩
  have hheap : ({ w.heap with alloc := s } : Heap).release s [0] = { w.heap with alloc := s } := by
    unfold Heap.release
    have hlive : w.heap.live.filter (fun a => a.payload ∉ [0]) = w.heap.live :=
      List.filter_eq_self.mpr fun a ha => decide_eq_true (by simpa using hnull a ha)
    have hfreed : w.heap.live.filter (fun a => a.payload ∈ [0]) = [] :=
      List.filter_eq_nil_iff.mpr fun a ha => by simpa using hnull a ha
    rw [hlive, hfreed]
    rfl
  refine ⟨s, ?_, hc, hcalls⟩
  unfold NamedOp.deallocate setCell
  rw [run_store_bind, hsame, run_callAllocator_ok hrun, hheap, h.withHeap_eq fun a _ _ => by rw [hc.mem_eq]; exact .refl a _]

theorem ends_deallocate_null (h : w.Stocked g₀ kept mine) :
    (NamedOp.deallocate 0).Ends w (fun _ w' => w.OnlyHeap w' ∧ w'.Stocked g₀ kept mine ∧ w'.heap.freed = w.heap.freed) F := by
  obtain ⟨s, hrun, hc, -⟩ := run_deallocate_null h
  exact ends_of_ok hrun ⟨rfl, ⟨h.holding.counters hc, h.placed⟩, rfl⟩

end NamedOp

/-- No layout that `allocate` computes for the three blocks wraps. -/
structure NamedRoom (g : Heap) (T : NamedType) (name : List UInt8) (count : ℕ) : Prop where
  object : count ≤ (2^64-1)/T.size → AddressRoom g (count*T.size) T.align
  header : AddressRoom g namedObjectHeaderSize namedObjectHeaderAlign
  name : AddressRoom g (name.length+1) 1

theorem NamedType.normalizes (T : NamedType) : ∃ A, normalizeAlignment T.align = some A := by
  obtain ⟨k, hk, hal⟩ := T.align_pow
  exact ⟨_, hal ▸ normalizeAlignment_two_pow hk⟩

namespace SharedMemoryManager

/-- Storage for the three blocks, or for none of them. -/
theorem ends_allocateStorage {len : ℕ} (h : w.Stocked g₀ kept mine) (hn : 0 < n) (hal : normalizeAlignment al = some A)
    (hroom : AddressRoom g₀ n al) (hheader : AddressRoom g₀ namedObjectHeaderSize namedObjectHeaderAlign)
    (hname : AddressRoom g₀ (len+1) 1) :
    (allocateStorage n al len).Ends w
      (fun r w' => w.cell r.1 = none ∧ w.cell r.2.1 = none ∧ w.cell r.2.2 = none ∧ w.OnlyHeap w' ∧
        w'.Stocked g₀ kept ((r.2.2, len+1) :: (r.2.1, namedObjectHeaderSize) :: (r.1, n) :: mine))
      fun e w' => e = .manager (.interprocess .badAlloc) ∧ w.OnlyHeap w' ∧ w'.Stocked g₀ kept mine := by
  unfold allocateStorage
  refine (ends_allocate h hn hal hroom).attempt_bind (fun e w₁ h₁ => ?_) fun object w₁ h₁ => ?_
  · obtain ⟨rfl, honly, hst⟩ := h₁
    -- nothing has been allocated: all three pointers are null
    unfold releaseStorage
    refine (ends_deallocate_null hst).bind fun _ w₂ h₂ => (ends_deallocate_null h₂.2.1).bind fun _ w₃ h₃ =>
      (ends_deallocate_null h₃.2.1).bind fun _ w₄ h₄ => ends_throw ?_
    exact ⟨rfl, honly.trans (h₂.1.trans (h₃.1.trans h₄.1)), h₄.2.1⟩
  obtain ⟨-, hobject, honly₁, hst₁⟩ := h₁
  have hheaderAlign : normalizeAlignment namedObjectHeaderAlign = some 16 := by decide
  refine (ends_allocate hst₁ (by decide) hheaderAlign hheader).attempt_bind (fun e w₂ h₂ => ?_) fun header w₂ h₂ => ?_
  · obtain ⟨rfl, hsame, hst⟩ := h₂
    have honly := honly₁.trans hsame
    unfold releaseStorage
    refine (ends_deallocate_null hst).bind fun _ w₃ h₃ => (ends_deallocate_null h₃.2.1).bind fun _ w₄ h₄ =>
      (ends_deallocate h₄.2.1).bind fun _ w₅ h₅ => ends_throw ?_
    have honly₄ := honly.trans (h₃.1.trans h₄.1)
    exact ⟨rfl, honly₄.trans (h₅.1.of_clear (by rw [honly₄.cell]; exact hobject)), h₅.2.1⟩
  obtain ⟨-, hraw₁, hsame₁, hst₂⟩ := h₂
  have hheaderCell : w.cell header = none := honly₁.cell ▸ hraw₁
  have honly₂ := honly₁.trans hsame₁
  have hnameAlign : normalizeAlignment 1 = some 16 := by decide
  refine (ends_allocate hst₂ (Nat.succ_pos len) hnameAlign hname).attempt_bind (fun e w₃ h₃ => ?_) fun name w₃ h₃ => ?_
  · obtain ⟨rfl, hsame, hst⟩ := h₃
    have honly := honly₂.trans hsame
    unfold releaseStorage
    refine (ends_deallocate_null hst).bind fun _ w₄ h₄ => (ends_deallocate h₄.2.1).bind fun _ w₅ h₅ =>
      (ends_deallocate h₅.2.1).bind fun _ w₆ h₆ => ends_throw ?_
    have honly₄ := honly.trans h₄.1
    have honly₅ := honly₄.trans (h₅.1.of_clear (by rw [honly₄.cell]; exact hheaderCell))
    exact ⟨rfl, honly₅.trans (h₆.1.of_clear (by rw [honly₅.cell]; exact hobject)), h₆.2.1⟩
  · obtain ⟨-, hraw₂, hsame₂, hst₃⟩ := h₃
    have hnameCell : w.cell name = none := honly₂.cell ▸ hraw₂
    exact ends_pure ⟨hobject, hheaderCell, hnameCell, honly₂.trans hsame₂, hst₃⟩

end SharedMemoryManager

end ShmNext
