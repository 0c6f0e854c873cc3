import ShmNext.LiveAllocations

/-! Runs of the allocator: any sequence of member calls and of callers' writes into
their payloads, with the live allocations recorded beside the state. -/
namespace ShmNext
open Prog

variable {s c : Allocator} {b : Block} {a : LiveAlloc} {bs l : List Block} {live : List LiveAlloc}
  {n al A : ℕ} {ps : List ℕ} {lost : ℕ → Prop}

/-- The layout of the block `allocate` takes, if any, is formed without wrapping. -/
def AllocateFits (s : Allocator) (size requestedAlignment : ℕ) : Prop :=
  ∀ A ∈ normalizeAlignment requestedAlignment, ∀ r ∈ scanChain (nextFree s.mem) (fits s.mem size A) walkFuel 0 s.head,
    r.2 = 0 ∨ LayoutFits r.2 size A

instance (s : Allocator) (size al : ℕ) : Decidable (AllocateFits s size al) :=
  inferInstanceAs (Decidable (∀ A ∈ normalizeAlignment al, ∀ r ∈ scanChain _ _ _ _ _, r.2 = 0 ∨ LayoutFits r.2 size A))

/-- The state in which `allocate` returns. -/
def afterAllocate (size requestedAlignment : ℕ) (s : Allocator) : Option Allocator :=
  match (allocate size requestedAlignment).run s with
  | (.ok _, s') => some s'
  | _ => none

/-- The same for the calls the loop of `allocate_many` makes one after the other. -/
def ManyFits (size requestedAlignment : ℕ) : ℕ → Allocator → Prop
  | 0, _ => True
  | left+1, s => AllocateFits s size requestedAlignment ∧
      ∀ s' ∈ afterAllocate size requestedAlignment s, ManyFits size requestedAlignment left s'

instance ManyFits.decidable (size al : ℕ) : (left : ℕ) → (s : Allocator) → Decidable (ManyFits size al left s)
  | 0, _ => isTrue trivial
  | left+1, s =>
    haveI := ManyFits.decidable size al left
    inferInstanceAs (Decidable (AllocateFits s size al ∧ ∀ s' ∈ afterAllocate size al s, ManyFits size al left s'))

/-- The layout `try_expand` computes for the block below `ptr` is formed without wrapping. -/
def ExpandFits (s : Allocator) (ptr newSize requestedAlignment : ℕ) : Prop :=
  ∀ A ∈ normalizeAlignment requestedAlignment, isValidPayload s ptr (headerBlock s.mem ptr) = true →
    LayoutFits (headerBlock s.mem ptr) newSize A

instance (s : Allocator) (ptr newSize al : ℕ) : Decidable (ExpandFits s ptr newSize al) :=
  inferInstanceAs (Decidable (∀ A ∈ normalizeAlignment al, isValidPayload s ptr (headerBlock s.mem ptr) = true →
    LayoutFits (headerBlock s.mem ptr) newSize A))

theorem AllocateFits.layoutFits (h : Sane s bs l) (hfits : AllocateFits s n al) (ha : normalizeAlignment al = some A)
    (hfind : l.find? (fun b => fits s.mem n A b.addr) = some b) : LayoutFits b.addr n A := by
  obtain ⟨hb, us, vs, rfl, hus⟩ := List.find?_eq_some_iff_append.mp hfind
  have hscan := h.scan_fits (n := n) (A := A)
  have hall : ∀ c ∈ us, (fun c : Block => !fits s.mem n A c.addr) c = true := by simpa using hus
  rw [List.dropWhile_append_of_pos hall, List.dropWhile_cons_of_neg (by simp [hb])] at hscan
  exact (hfits A ha _ hscan).resolve_left (h.linked.chain.ne_zero b.addr (by simp))

namespace HeapInv

/-- `allocate` for a positive size: one more live allocation, or nothing but counters. -/
theorem run_allocate (h : HeapInv lost s live bs l) (hn : 0 < n) (hn' : n < 2^64) (ha : normalizeAlignment al = some A)
    (hfits : AllocateFits s n al) :
    (∃ p c, (allocate n al).run s = (.ok p, c) ∧ p ≠ 0 ∧
      (∃ bs' l', HeapInv lost c (⟨headerBlock c.mem p, p, n, A⟩ :: live) bs' l') ∧
      ∀ a ∈ live, SamePayload a s.mem c.mem) ∨
    ∃ c, (allocate n al).run s = (.error (.interprocess .badAlloc), c) ∧ CountersOnly s c := by
  cases hfind : l.find? (fun b => fits s.mem n A b.addr) with
  | none =>
    obtain ⟨-, e, c, hrun, rfl, hc⟩ := h.throws_allocate hn ha hfind
    exact Or.inr ⟨c, hrun, hc⟩
  | some b =>
    obtain ⟨-, p, c, hrun, -, ⟨bs', l', hc⟩, hbytes⟩ :=
      h.runs_allocate hn hn' ha hfind (hfits.layoutFits h.toSane ha hfind)
    obtain ⟨d, _, hd⟩ := hc.placed _ List.mem_cons_self
    have hblock : headerBlock c.mem p = b.addr := hd.header.block_eq
    exact Or.inl ⟨p, c, hrun, hc.payload_pos List.mem_cons_self, ⟨bs', l', by rw [hblock]; exact hc⟩, hbytes⟩

/-- Freeing a list of live payloads and nulls, each payload once. -/
theorem run_deallocateAll (h : HeapInv lost s live bs l) (hps : ∀ p ∈ ps, p ≠ 0 → ∃ a ∈ live, a.payload = p)
    (hnd : (ps.filter (· ≠ 0)).Nodup) : ∃ c, (ps.forM deallocate).run s = (.ok (), c) ∧
      (∃ bs' l', HeapInv lost c (live.filter (·.payload ∉ ps)) bs' l') ∧
      ∀ a ∈ live, a.payload ∉ ps → SamePayload a s.mem c.mem := by
  -- null pointers are passed over; any other frees its payload, and the rest are live still
  induction ps generalizing s live bs l with
  | nil => exact ⟨s, rfl, ⟨bs, l, by simpa using h⟩, fun a _ _ => .refl a s.mem⟩
  | cons p ps ih =>
    have hrest : ∀ {c d : Allocator}, (deallocate p).run s = (.ok (), c) → (ps.forM deallocate).run c = (.ok (), d) →
        ((p :: ps).forM deallocate).run s = (.ok (), d) := fun h1 h2 => (run_bind_ok h1 _).trans h2
    by_cases hp : p = 0
    · subst hp
      obtain ⟨-, _, c, hrun, hc⟩ := h.runs_deallocate_null
      obtain ⟨d, hd, ⟨bs', l', hinv⟩, hbytes⟩ := ih (h.counters hc) (fun q hq => hps q (List.mem_cons_of_mem _ hq))
        (by simpa using hnd)
      have hfilter : live.filter (·.payload ∉ 0 :: ps) = live.filter (·.payload ∉ ps) :=
        List.filter_congr fun a ha => by simp [h.payload_pos ha]
      refine ⟨d, hrest hrun hd, ⟨bs', l', hfilter ▸ hinv⟩, fun a ha hap => ?_⟩
      exact hc.mem_eq ▸ hbytes a ha fun hm => hap (List.mem_cons_of_mem _ hm)
    · obtain ⟨a₀, ha₀, rfl⟩ := hps p List.mem_cons_self hp
      obtain ⟨-, _, c, hrun, ⟨bs₁, l₁, hc⟩, hbytes₁⟩ := h.runs_deallocate ha₀
      rw [List.filter_cons_of_pos (by simpa using hp), List.nodup_cons] at hnd
      have hps' : ∀ q ∈ ps, q ≠ 0 → ∃ a ∈ live.filter (·.payload ≠ a₀.payload), a.payload = q := by
        intro q hq hq0
        obtain ⟨a, ha, rfl⟩ := hps q (List.mem_cons_of_mem _ hq) hq0
        refine ⟨a, List.mem_filter.mpr ⟨ha, decide_eq_true fun heq => hnd.1 ?_⟩, rfl⟩
        exact heq ▸ List.mem_filter.mpr ⟨hq, by simpa using hq0⟩
      obtain ⟨d, hd, ⟨bs', l', hinv⟩, hbytes⟩ := ih hc hps' hnd.2
      have hfilter : (live.filter (·.payload ≠ a₀.payload)).filter (·.payload ∉ ps) =
          live.filter (·.payload ∉ a₀.payload :: ps) := by
        rw [List.filter_filter]
        refine List.filter_congr fun a _ => ?_
        rw [Bool.eq_iff_iff]
        simp only [Bool.and_eq_true, decide_eq_true_iff, List.mem_cons, not_or]
        tauto
      refine ⟨d, hrest hrun hd, ⟨bs', l', hfilter ▸ hinv⟩, fun a ha hap => ?_⟩
      rw [List.mem_cons, not_or] at hap
      exact (hbytes₁ a ha hap.1).trans
        (hbytes a (List.mem_filter.mpr ⟨ha, by simpa using hap.1⟩) hap.2)

/-- Giving back the latest allocations brings back the earlier ones. -/
theorem run_freeAll {news : List LiveAlloc} (h : HeapInv lost s (news ++ live) bs l) :
    ∃ c, ((news.map LiveAlloc.payload).forM deallocate).run s = (.ok (), c) ∧
      (∃ bs' l', HeapInv lost c live bs' l') ∧ ∀ a ∈ live, SamePayload a s.mem c.mem := by
  have hd := h.distinct
  rw [List.map_append, List.nodup_append] at hd
  have hother : ∀ a ∈ live, a.payload ∉ news.map LiveAlloc.payload := by
    intro a ha hm
    obtain ⟨a', ha', heq⟩ := List.mem_map.mp hm
    have := h.payload_unique (List.mem_append_left _ ha') (List.mem_append_right _ ha) heq
    exact hd.2.2 _ (List.mem_map_of_mem ha') _ (List.mem_map_of_mem ha) (congrArg _ this)
  have hnd : ((news.map LiveAlloc.payload).filter (· ≠ 0)).Nodup := by
    refine List.Nodup.filter _ ((List.nodup_map_iff_inj_on hd.1.of_map).mpr fun a ha a' ha' heq => ?_)
    exact h.payload_unique (List.mem_append_left _ ha) (List.mem_append_left _ ha') heq
  obtain ⟨c, hrun, ⟨bs', l', hc⟩, hbytes⟩ := @run_deallocateAll _ _ _ _ (news.map LiveAlloc.payload) _ h (fun p hp _ => by
    obtain ⟨a, ha, rfl⟩ := List.mem_map.mp hp
    exact ⟨a, List.mem_append_left _ ha, rfl⟩) hnd
  have hfilter : (news ++ live).filter (·.payload ∉ news.map LiveAlloc.payload) = live := by
    rw [List.filter_append, List.filter_eq_nil_iff.mpr, List.nil_append, List.filter_eq_self]
    · exact fun a ha => decide_eq_true (hother a ha)
    · exact fun a ha => by simpa using ⟨a, ha, rfl⟩
  exact ⟨c, hrun, ⟨bs', l', hfilter ▸ hc⟩, fun a ha => hbytes a (List.mem_append_right _ ha) (hother a ha)⟩

/-- The loop of `allocate_many`: either all payloads are live, or none of them is left. -/
theorem run_allocateManyLoop {news : List LiveAlloc} {left : ℕ} (h : HeapInv lost s (news ++ live) bs l) (hn : 0 < n)
    (hn' : n < 2^64) (ha : normalizeAlignment al = some A) (hfits : ManyFits n al left s) :
    ∃ r c, (allocateManyLoop n al left (news.map LiveAlloc.payload)).run s = (.ok r, c) ∧
      (∀ a ∈ live, SamePayload a s.mem c.mem) ∧
      ((∃ more, r = (((more ++ news).map LiveAlloc.payload).reverse, none) ∧ more.length = left ∧
        (∀ a ∈ more, a.size = n ∧ a.align = A) ∧ ∃ bs' l', HeapInv lost c (more ++ news ++ live) bs' l') ∨
      (∃ k, r = (List.replicate k 0, some (.interprocess .badAlloc)) ∧ ∃ bs' l', HeapInv lost c live bs' l')) := by
  induction left generalizing s bs l news with
  | zero =>
    exact ⟨_, s, rfl, fun a _ => .refl a s.mem, Or.inl ⟨[], rfl, rfl, by simp, bs, l, by simpa using h⟩⟩
  | succ left ih =>
    unfold allocateManyLoop
    rcases h.run_allocate hn hn' ha hfits.1 with ⟨p, c, hrun, hp, ⟨bs₁, l₁, hc⟩, hbytes⟩ | ⟨c, hrun, hc⟩
    · have hstep : (allocate n al).attempt.run s = (.ok (.ok p), c) := by rw [run_attempt, hrun]
      obtain ⟨r, d, hr, hbytes', hres⟩ := @ih _ _ _ (⟨headerBlock c.mem p, p, n, A⟩ :: news) (by simpa using hc)
        (hfits.2 c (by unfold afterAllocate; rw [hrun]; rfl))
      refine ⟨r, d, (run_bind_ok hstep _).trans hr, fun a ha => (hbytes a (by simp [ha])).trans (hbytes' a ha), ?_⟩
      rcases hres with ⟨more, rfl, hlen, hall, bs', l', hinv⟩ | hres
      · refine Or.inl ⟨more ++ [⟨headerBlock c.mem p, p, n, A⟩], by simp, by simp [hlen], ?_, bs', l', by simpa using hinv⟩
        intro a ha
        rcases List.mem_append.mp ha with ha | ha
        · exact hall a ha
        · rw [List.mem_singleton.mp ha]
          exact ⟨rfl, rfl⟩
      · exact Or.inr hres
    · have hstep : (allocate n al).attempt.run s = (.ok (.error (.interprocess .badAlloc)), c) := by
        rw [run_attempt, hrun]
      obtain ⟨d, hd, hinv, hbytes⟩ := (h.counters hc).run_freeAll
      refine ⟨_, d, (run_bind_ok hstep _).trans (run_bind_ok hd _), fun a ha => hc.mem_eq ▸ hbytes a ha,
        Or.inr ⟨news.length, ?_, hinv⟩⟩
      simp [List.eq_replicate_iff]

end HeapInv

end ShmNext
