import ShmNext.HeapSafety

/-! What an executor that dies inside an allocator call leaves behind, once `check_sanity`
has accepted it. -/
namespace ShmNext
open Prog

variable {g : Heap} {call : Call} {s c : Allocator} {bs l : List Block} {live : List LiveAlloc} {p n al : ℕ}
  {lost : ℕ → Prop}

/-- The calls that work on one block. -/
def Call.Single : Call → Prop
  | .allocate _ _ | .deallocate _ | .tryExpand _ _ _ | .grow _ | .shrinkToFit => True
  | _ => False

/-- The state a call leaves in `s` when it is cut off after some of its stores. -/
def Call.Crash (s c : Allocator) : Call → Prop
  | .allocate size al => (ShmNext.allocate size al).Crash s c
  | .allocateMany size count al => (ShmNext.allocateMany size count al).Crash s c
  | .deallocate p => (ShmNext.deallocate p).Crash s c
  | .deallocateMany ps => (ShmNext.deallocateMany ps).Crash s c
  | .tryExpand p newSize al => (ShmNext.tryExpand p newSize al).Crash s c
  | .grow newSegmentSize => (ShmNext.grow newSegmentSize).Crash s c
  | .shrinkToFit => ShmNext.shrinkToFit.Crash s c
  | .zeroFreeMemory => ShmNext.zeroFreeMemory.Crash s c
  | .userWrite x v => c = s ∨ c = { s with mem := Function.update s.mem x v }

/-- The allocations a call does not end. -/
def Heap.kept (g : Heap) (call : Call) : List LiveAlloc := g.live.filter fun a => ¬ call.Frees a.payload

theorem kept_of_frees (h : ∀ a ∈ g.live, ¬ call.Frees a.payload) : g.kept call = g.live :=
  List.filter_eq_self.mpr fun a ha => decide_eq_true (h a ha)

/-- A program whose only store is a counter. -/
theorem countersOnly_of_trace {α : Type} {q : Op α} {d : Allocator} (hd : CountersOnly s d) (ht : q.trace s = [d])
    (hc : q.Crash s c) : CountersOnly s c := by
  unfold Crash at hc
  rw [ht] at hc
  rcases List.mem_cons.mp hc with rfl | hc
  · exact .refl _
  · exact List.mem_singleton.mp hc ▸ hd

namespace HeapInv

theorem crashOk_counters (h : HeapInv lost s live bs l) (hc : CountersOnly s c) : CrashOk live s c := fun _ =>
  h.intact_of_free hc.changes (h.toWellFormed.counters hc) fun _ hb _ => hb

theorem crash_allocate (h : HeapInv lost s live bs l) (hn' : n < 2^64) (hfits : AllocateFits s n al)
    (hc : (allocate n al).Crash s c) : CrashOk live s c := by
  by_cases hn : n = 0
  · subst hn
    have hruns : (allocate 0 al).Runs s (CountersOnly s) fun _ _ => True := by
      unfold allocate
      exact runs_count_bind fun d hd => ⟨hd, runs_pure trivial⟩
    exact h.crashOk_counters (hruns.crash (.refl s) hc)
  cases ha : normalizeAlignment al with
  | none =>
    obtain ⟨d, hd, -, ht⟩ := allocate_hang (s := s) hn ha
    exact h.crashOk_counters (countersOnly_of_trace hd ht hc)
  | some A =>
    have hself := h.crashOk_counters (.refl s)
    cases hfind : l.find? (fun b => fits s.mem n A b.addr) with
    | none => exact (h.throws_allocate (Nat.pos_of_ne_zero hn) ha hfind).crash hself hc
    | some b =>
      exact (h.runs_allocate (Nat.pos_of_ne_zero hn) hn' ha hfind (hfits.layoutFits h.toSane ha hfind)).crash hself hc

theorem crash_tryExpand (h : HeapInv lost s live bs l) (hn' : n < 2^64) (hfits : ExpandFits s p n al)
    (hapart : ExpandsApart s live p n al) (hc : (tryExpand p n al).Crash s c) : CrashOk live s c := by
  have hrefused : (p = 0 ∨ n = 0 ∨ ∀ b ∈ bs, b.free = false → ¬ NamesBlock s.mem p b) → CrashOk live s c := fun hno =>
    h.crashOk_counters ((h.toSane.runs_tryExpand_refused hno).crash (.refl s) hc)
  by_cases hn : n = 0
  · exact hrefused (Or.inr (Or.inl hn))
  by_cases htrust : TrustsHeader s p
  · obtain ⟨b, hb, hf, hnames⟩ := h.trusts_iff.mp htrust
    cases ha : normalizeAlignment al with
    | none =>
      obtain ⟨d, hd, -, ht⟩ := h.toSane.tryExpand_hang hb hf hnames (Nat.pos_of_ne_zero hn) ha
      exact h.crashOk_counters (countersOnly_of_trace hd ht hc)
    | some A =>
      have hfit : LayoutFits b.addr n A := hnames.2.2.1 ▸ hfits A ha htrust.2.1
      refine (h.runs_tryExpand hb hf hnames (Nat.pos_of_ne_zero hn) hn' ha hfit).crash
        (fun _ => h.crashOk_counters (.refl s)) hc fun hcan => ?_
      exact hapart hn htrust A ha (by rw [hnames.2.2.1]; exact hcan)
  · exact hrefused (Or.inr (Or.inr fun b hb hf hn => htrust (h.trusts_iff.mpr ⟨b, hb, hf, hn⟩)))

/-- A `try_expand` that records its size inside a payload ends in a state `check_sanity`
accepts and in which that payload has changed. -/
theorem expandsApart_of_crash (h : HeapInv lost s live bs l) (hn' : n < 2^64) (hfits : ExpandFits s p n al)
    (hok : ∀ c, (tryExpand p n al).Crash s c → CrashOk live s c) : ExpandsApart s live p n al := by
  intro hn htrust A ha hcan
  obtain ⟨b, hb, hf, hnames⟩ := h.trusts_iff.mp htrust
  have hfit : LayoutFits b.addr n A := hnames.2.2.1 ▸ hfits A ha htrust.2.1
  obtain ⟨-, r, c, hrun, ⟨bs', l', hinv⟩, hr, hbytes⟩ :=
    h.runs_tryExpand hb hf hnames (Nat.pos_of_ne_zero hn) hn' ha hfit
  obtain rfl := hr.mp (by rw [← hnames.2.2.1]; exact hcan)
  have hcrash : (tryExpand p n al).Crash s c := by
    have hlast := crash_run (tryExpand p n al) s
    rw [hrun] at hlast
    exact hlast
  obtain ⟨_, _, -, hsame⟩ := hok c hcrash hinv.toSane.checkSanity_eq_true
  exact recordsApart_iff.mpr fun a hal x hx hx' => (hbytes a hal x hx hx').symm.trans ((hsame a hal).1 x hx hx')

theorem crash_deallocate (h : HeapInv lost g.alloc g.live bs l) (hadm : g.Admissible (.deallocate p))
    (hc : (deallocate p).Crash g.alloc c) : CrashOk (g.kept (.deallocate p)) g.alloc c := by
  by_cases hp : p = 0
  · subst hp
    have hkept : g.kept (.deallocate 0) = g.live := kept_of_frees fun a ha => h.payload_pos ha
    rw [hkept]
    exact h.runs_deallocate_null.crash (h.crashOk_counters (.refl _)) hc
  have hsub : ∀ d, CrashOk g.live g.alloc d → CrashOk (g.kept (.deallocate p)) g.alloc d := by
    intro d hok hs
    obtain ⟨bs', l', hwf, hall⟩ := hok hs
    exact ⟨bs', l', hwf, fun a ha => hall a (List.mem_filter.mp ha).1⟩
  by_cases hlive : g.Holds p
  · obtain ⟨a, ha, rfl⟩ := hlive
    have hkept : g.live.filter (·.payload ≠ a.payload) = g.kept (.deallocate a.payload) := rfl
    have hruns := h.runs_deallocate ha
    rw [hkept] at hruns
    exact hruns.crash (hsub _ (h.crashOk_counters (.refl _))) hc
  · have hno := hadm.resolve_left hp |>.resolve_left hlive
    refine hsub c (h.crashOk_counters ((h.toSane.throws_deallocate hp fun b hb hf hn => ?_).crash (.refl _) hc))
    exact hno (h.trusts_iff.mpr ⟨b, hb, hf, hn⟩)

theorem crash_single (h : HeapInv lost g.alloc g.live bs l) (hsingle : call.Single) (hadm : g.Admissible call)
    (hiso : g.Isolating call) (hc : call.Crash g.alloc c) : CrashOk (g.kept call) g.alloc c := by
  have hself := h.crashOk_counters (.refl g.alloc)
  cases call with
  | allocate n al =>
    rw [kept_of_frees fun _ _ => id]
    exact h.crash_allocate hadm.1 hadm.2 hc
  | deallocate p => exact h.crash_deallocate hadm hc
  | tryExpand p n al =>
    rw [kept_of_frees fun _ _ => id]
    exact h.crash_tryExpand hadm.1 hadm.2 hiso hc
  | grow n =>
    rw [kept_of_frees fun _ _ => id]
    exact (h.runs_grow hadm.1 hadm.2).crash hself hc
  | shrinkToFit =>
    rw [kept_of_frees fun _ _ => id]
    exact h.runs_shrinkToFit.crash hself hc
  | allocateMany | deallocateMany | zeroFreeMemory | userWrite => exact hsingle.elim

end HeapInv

/-- After a crash inside a call that `check_sanity` accepts, the segment is well formed and
the allocations the call does not end are intact, for every cut exactly when the call is not
a `try_expand` that records its size inside a payload. -/
theorem crash_harmless_iff (h : HeapInv lost g.alloc g.live bs l) (hsingle : call.Single) (hadm : g.Admissible call) :
    g.Isolating call ↔
      ∀ c, call.Crash g.alloc c → checkSanity c = true → Intact (g.kept call) g.alloc c := by
  refine ⟨fun hiso c hc => h.crash_single hsingle hadm hiso hc, fun hok => ?_⟩
  cases call with
  | tryExpand p n al =>
    rw [kept_of_frees fun _ _ => id] at hok
    exact h.expandsApart_of_crash hadm.1 hadm.2 hok
  | userWrite => exact hsingle
  | _ => trivial

/-- An allocation cut off behind its eleventh store: the free list is in order again, the caller has nothing yet. -/
theorem crash_harmless_holedHeap : ∃ c, ((allocate 100 32).trace holedHeap.alloc)[10]? = some c ∧ checkSanity c = true ∧
    Intact (holedHeap.kept (.allocate 100 32)) holedHeap.alloc c := by
  obtain ⟨bs, l, h⟩ := (smallRun_reachable _ _ : Reachable holedHeap).inv
  obtain ⟨c, hc⟩ : ∃ c, ((allocate 100 32).trace holedHeap.alloc)[10]? = some c := Option.isSome_iff_exists.mp (by decide +kernel)
  have hsane : (((allocate 100 32).trace holedHeap.alloc)[10]?).map checkSanity = some true := by decide +kernel
  rw [hc, Option.map_some, Option.some_inj] at hsane
  have hcut : (Call.allocate 100 32).Crash holedHeap.alloc c := List.mem_cons_of_mem _ (List.mem_of_getElem? hc)
  exact ⟨c, hc, hsane, (@crash_harmless_iff _ (.allocate 100 32) _ _ _ h trivial (by decide +kernel)).mp trivial c hcut hsane⟩

/-- The state a `try_expand` for a freed payload ends in is accepted, with a live payload changed. -/
theorem stale_expand_crash_accepted : ¬ ∀ (lost : ℕ → Prop) (g : Heap) (bs l : List Block) (call : Call) (c : Allocator),
    HeapInv lost g.alloc g.live bs l → call.Single → g.Admissible call → call.Crash g.alloc c → checkSanity c = true →
    Intact (g.kept call) g.alloc c := by
  intro hall
  obtain ⟨bs, l, h⟩ := (smallRun_reachable _ _ : Reachable staleHeap).inv
  have hsane : checkSanity ((tryExpand 4288 32 64).run staleHeap.alloc).2 = true := by decide +kernel
  have hold : staleHeap.alloc.mem 4280 = 16 := by decide +kernel
  have hnew : ((tryExpand 4288 32 64).run staleHeap.alloc).2.mem 4280 = 32 := by decide +kernel
  have hintact := hall _ staleHeap bs l (.tryExpand 4288 32 64) _ h trivial (by decide +kernel) (crash_run _ _) hsane
  obtain ⟨_, _, -, hsame⟩ := hintact
  have hbyte := (hsame ⟨4208, 4256, 200, 16⟩ (by decide +kernel)).1 4280 (by decide) (by decide)
  rw [hold, hnew] at hbyte
  exact absurd hbyte (by decide)

end ShmNext
