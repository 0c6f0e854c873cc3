import ShmNext.RequestBounds
import ShmNext.ObjectLifetimes

/-! Storage that containers hold in the segment: live allocations, each filled from its
start with elements, and what allocator calls do to them. -/
namespace ShmNext
open Prog

variable {s c : Allocator} {a : LiveAlloc} {bs l : List Block} {live : List LiveAlloc} {lost : ℕ → Prop} {g g' : Heap}
  {n p al A sz : ℕ}

/-- The search of `allocate` comes to a block. -/
def FindsBlock (s : Allocator) (size requestedAlignment : ℕ) : Prop :=
  ∃ A ∈ normalizeAlignment requestedAlignment,
    ∃ r ∈ scanChain (nextFree s.mem) (fits s.mem size A) walkFuel 0 s.head, r.2 ≠ 0

namespace HeapInv

theorem payloads_nodup (h : HeapInv lost s live bs l) : (live.map LiveAlloc.payload).Nodup :=
  List.Nodup.map_on (fun _ ha _ ha' heq => h.payload_unique ha ha' heq) h.distinct.of_map

/-- `allocation_size` of a live payload is the size last asked for. -/
theorem run_allocationSize (h : HeapInv lost s live bs l) (ha : a ∈ live) :
    (allocationSize a.payload).run s = (.ok a.size, s) := by
  obtain ⟨b, hb, hh⟩ := h.placed a ha
  obtain ⟨hhas, hvalid, hfree⟩ := h.trusts_iff.mpr ⟨b, hb, hh.allocated, hh.namesBlock⟩
  have hsize : headerRequestedSize s.mem a.payload = a.size := hh.header.size_eq
  unfold allocationSize
  rw [if_neg (h.payload_pos ha), run_get_bind, hhas]
  dsimp only
  rw [hvalid, hfree, hsize]
  rfl

/-- The scan of the free list stops at a block that covers the layout. -/
theorem findsBlock_iff (h : HeapInv lost s live bs l) (ha : normalizeAlignment al = some A) :
    FindsBlock s n al ↔ l.find? (fun b => fits s.mem n A b.addr) ≠ none := by
  have hscan := h.toSane.scan_fits (n := n) (A := A)
  have hnil : headAddr (l.dropWhile fun b => !fits s.mem n A b.addr) = 0 ↔
      l.find? (fun b => fits s.mem n A b.addr) = none := by
    rw [List.find?_eq_none]
    constructor
    · intro hzero b hb hfits
      cases hd : l.dropWhile fun b => !fits s.mem n A b.addr with
      | nil =>
        have := List.dropWhile_eq_nil_iff.mp hd b hb
        simp [hfits] at this
      | cons c cs =>
        rw [hd] at hzero
        have hc : c ∈ l := (List.dropWhile_sublist _).mem (hd ▸ List.mem_cons_self)
        exact h.linked.chain.ne_zero c.addr (List.mem_map_of_mem hc) hzero
    · intro hnone
      rw [List.dropWhile_eq_nil_iff.mpr fun b hb => by simpa using hnone b hb]
      rfl
  have hne := not_congr hnil
  unfold FindsBlock
  rw [ha]
  refine Iff.trans ?_ hne
  constructor
  · rintro ⟨_, hA, r, hr, hr0⟩
    obtain rfl := Option.some.inj hA
    rw [hscan] at hr
    obtain rfl := Option.some.inj hr
    exact hr0
  · exact fun h0 => ⟨A, rfl, _, hscan, h0⟩

/-- `allocate` returns a payload where the scan finds a block, else it throws. -/
theorem allocate_returns_iff (h : HeapInv lost s live bs l) (hn : 0 < n) (hn' : n < 2^64) (ha : normalizeAlignment al = some A)
    (hfits : AllocateFits s n al) : (∃ p c, (allocate n al).run s = (.ok p, c)) ↔ FindsBlock s n al := by
  rw [h.findsBlock_iff ha]
  cases hfind : l.find? (fun b => fits s.mem n A b.addr) with
  | none =>
    obtain ⟨-, e, c, hrun, -⟩ := h.throws_allocate hn ha hfind
    simp [hrun]
  | some b =>
    obtain ⟨-, p, c, hrun, -⟩ := h.runs_allocate hn hn' ha hfind (hfits.layoutFits h.toSane ha hfind)
    simp [hrun]

/-- `allocate` for `n` elements returns where the scan finds a block. -/
theorem allocateElements_returns_iff (h : HeapInv lost s live bs l) (hsz : 0 < sz) (hn : 0 < n) (hal : normalizeAlignment al = some A)
    (hfits : n ≤ (2^64-1)/sz → AllocateFits s (n*sz) al) :
    (∃ p c, (ShmNext.allocateElements sz al n).run s = (.ok p, c)) ↔ n ≤ (2^64-1)/sz ∧ FindsBlock s (n*sz) al := by
  unfold ShmNext.allocateElements
  by_cases hmax : (2^64-1)/sz < n
  · rw [if_pos hmax]
    constructor
    · rintro ⟨p, c, hrun⟩
      cases (Prod.ext_iff.mp hrun).1
    · exact fun hle => absurd hle.1 (Nat.not_le.mpr hmax)
  rw [if_neg hmax]
  have hmul : n*sz ≤ 2^64-1 := (Nat.mul_le_mul_right sz (not_lt.mp hmax)).trans (Nat.div_mul_le_self _ _)
  have hfit := hfits (not_lt.mp hmax)
  rw [← h.allocate_returns_iff (Nat.mul_pos hn hsz) (by omega) hal hfit]
  rcases h.run_allocate (Nat.mul_pos hn hsz) (by omega) hal hfit with ⟨p, c, hrun, hp, -⟩ | ⟨c, hrun, -⟩
  · refine ⟨fun _ => ⟨not_lt.mp hmax, p, c, hrun⟩, fun _ => ⟨p, c, ?_⟩⟩
    rw [run_bind_ok hrun, if_neg hp]
    rfl
  · rw [run_bind_error hrun, hrun]
    constructor
    · rintro ⟨p, t, hok⟩
      cases (Prod.ext_iff.mp hok).1
    · rintro ⟨-, p, t, hok⟩
      cases (Prod.ext_iff.mp hok).1

/-- `try_expand` of a live payload returns whether the block, or it and a free successor, have room. -/
theorem tryExpand_true_iff (h : HeapInv lost s live bs l) (ha : a ∈ live) (hn : 0 < n) (hn' : n < 2^64)
    (hal : normalizeAlignment al = some A) (hfits : ExpandFits s a.payload n al) {r : Bool}
    (hrun : (tryExpand a.payload n al).run s = (.ok r, c)) : r = true ↔ CanExpand s (headerBlock s.mem a.payload) a.payload n A := by
  obtain ⟨b, hb, hh⟩ := h.placed a ha
  have hblock : headerBlock s.mem a.payload = b.addr := hh.namesBlock.2.2.1
  have hfit : LayoutFits b.addr n A := hblock ▸ hfits A hal (h.trusts_iff.mpr ⟨b, hb, hh.allocated, hh.namesBlock⟩).2.1
  obtain ⟨-, r', c', hrun', -, hcan, -⟩ := h.runs_tryExpand hb hh.allocated hh.namesBlock hn hn' hal hfit
  rw [hrun'] at hrun
  cases hrun
  rw [hblock]
  exact hcan.symm

/-- `try_expand` for a live payload: it has the new size, or nothing but counters has changed. -/
theorem run_tryExpand_held (h : HeapInv lost g.alloc g.live bs l) (ha : a ∈ g.live) (hn : 0 < n) (hn' : n < 2^64)
    (hal : normalizeAlignment al = some A) (hfits : ExpandFits g.alloc a.payload n al) :
    (∃ c, (tryExpand a.payload n al).run g.alloc = (.ok true, c) ∧
      (∃ bs' l', HeapInv lost c (resized g.live a.payload n) bs' l') ∧ ∀ a' ∈ g.live, SamePayload a' g.alloc.mem c.mem) ∨
    ∃ c, (tryExpand a.payload n al).run g.alloc = (.ok false, c) ∧ CountersOnly g.alloc c := by
  obtain ⟨b, hb, hh⟩ := h.placed a ha
  have htrust := h.trusts_iff.mpr ⟨b, hb, hh.allocated, hh.namesBlock⟩
  have hblock : headerBlock g.alloc.mem a.payload = b.addr := hh.namesBlock.2.2.1
  have hfit : LayoutFits b.addr n A := hblock ▸ hfits A hal htrust.2.1
  obtain ⟨-, r, c, hrun, hinv, hcan, hbytes⟩ := h.runs_tryExpand hb hh.allocated hh.namesBlock hn hn' hal hfit
  obtain ⟨xs, ys, rfl⟩ := List.append_of_mem hb
  have hfail : (tryExpand a.payload n al).Runs g.alloc (fun _ => True) fun r c => r = false → CountersOnly g.alloc c := by
    refine h.toWellFormed.runs_tryExpand hh.allocated hh.namesBlock hn hal (fun _ _ => trivial) (fun _ c hc _ => hc) ?_
    exact fun _ _ => ⟨fun _ _ _ => trivial, fun c _ _ hr => by cases hr⟩
  obtain ⟨-, r', c', hrun', hcounters⟩ := hfail
  rw [hrun] at hrun'
  cases hrun'
  cases r with
  | false => exact Or.inr ⟨c, hrun, hcounters rfl⟩
  | true =>
    refine Or.inl ⟨c, hrun, hinv, fun a' ha' => ?_⟩
    have hapart : ExpandsApart g.alloc g.live a.payload n al := h.expandsApart_of_holds ⟨a, ha, rfl⟩
    have hrec := recordsApart_iff.mp <| hapart (by omega) htrust A hal (hblock ▸ hcan.mpr rfl)
    exact (hrec a' ha').trans (hbytes a' ha')

end HeapInv

/-- A live allocation used as a row of elements. -/
structure Region (V : Type) where
  base : ℕ
  bytes : ℕ
  cells : List (ℕ × V)

variable {V : Type} {o o' : Objects V} {r : Region V} {rs rs' : List (Region V)} {m : Mem} {cells : List (ℕ × V)} {v : V}

/-- The regions are live allocations of whole slots, filled with their elements, and no
element is alive anywhere else. -/
structure Stored (sz : ℕ) (g : Heap) (o : Objects V) (rs : List (Region V)) : Prop where
  heap : ∃ bs l, HeapInv (fun _ => False) g.alloc g.live bs l
  live : ∀ r ∈ rs, ∃ a ∈ g.live, a.payload = r.base ∧ a.size = r.bytes
  distinct : (rs.map Region.base).Nodup
  whole : ∀ r ∈ rs, r.cells.length*sz ≤ r.bytes
  filled : ∀ r ∈ rs, Filled o.slot r.base r.bytes sz r.cells
  outside : ∀ q y, o.slot q = some y → ∃ r ∈ rs, r.base ≤ q ∧ q < r.base+r.bytes
  accounted : o.Accounted

namespace Stored

theorem perm (h : Stored sz g o rs) (hp : rs.Perm rs') : Stored sz g o rs' := by
  obtain ⟨h1, h2, h3, h4, h5, h6, h7⟩ := h
  refine ⟨h1, fun r hr => h2 r (hp.mem_iff.mpr hr), ((hp.map _).nodup_iff).mp h3, fun r hr => h4 r (hp.mem_iff.mpr hr),
    fun r hr => h5 r (hp.mem_iff.mpr hr), fun q y hq => ?_, h7⟩
  obtain ⟨r, hr, hin⟩ := h6 q y hq
  exact ⟨r, hp.mem_iff.mp hr, hin⟩

/-- Different regions share no byte. -/
theorem apart (h : Stored sz g o rs) {r r' : Region V} (hr : r ∈ rs) (hr' : r' ∈ rs) (hne : r'.base ≠ r.base) :
    r.base+r.bytes ≤ r'.base ∨ r'.base+r'.bytes ≤ r.base := by
  obtain ⟨bs, l, hinv⟩ := h.heap
  obtain ⟨a, ha, hb, hs⟩ := h.live r hr
  obtain ⟨a', ha', hb', hs'⟩ := h.live r' hr'
  have hdiff : a' ≠ a := by
    rintro rfl
    exact hne (hb'.symm.trans hb)
  have := (hinv.payloads_apart ha).2.2.2 a' ha' hdiff
  omega

theorem bounds (h : Stored sz g o rs) (hr : r ∈ rs) :
    0 < r.base ∧ 0 < r.bytes ∧ r.bytes < 2^63 ∧ r.base+r.bytes+48 ≤ 2^64 := by
  obtain ⟨bs, l, hinv⟩ := h.heap
  obtain ⟨a, ha, hb, hs⟩ := h.live r hr
  obtain ⟨b, hbm, hh⟩ := hinv.placed a ha
  have h1 := hh.above
  have h2 := hh.within
  have h3 := hh.pos
  have hg := hinv.linked.geometry
  have hend := (hinv.linked.mem_bounds hbm).2.1
  have hin := (hinv.payloads_apart ha).1
  have hroom := hg.end_room
  have hlt := hg.size_lt
  rw [hg.segmentEnd_eq] at hin
  omega

theorem end_lt (h : Stored sz g o rs) (hr : r ∈ rs) : r.base+r.bytes < 2^64 := by
  have := h.bounds hr
  omega

/-- The elements survive a change of the bytes outside all regions. -/
theorem surviving_eq (h : Stored sz g o rs)
    (hm : ∀ r ∈ rs, ∀ x, r.base ≤ x → x < r.base+r.bytes → m x = g.alloc.mem x) :
    o.surviving sz g.alloc.mem m = o := by
  apply Objects.surviving_eq
  intro q y hq i hi
  obtain ⟨r, hr, h1, h2⟩ := h.outside q y hq
  rw [h.filled r hr q h1 h2] at hq
  obtain ⟨j, rfl, hj⟩ := cellAt_some hq
  have hlt : j+1 ≤ r.cells.length := (List.getElem?_eq_some_iff.mp hj).1
  have hmul : (j+1)*sz ≤ r.bytes := (Nat.mul_le_mul_right sz hlt).trans (h.whole r hr)
  rw [Nat.succ_mul] at hmul
  exact hm r hr _ (by omega) (by omega)

/-- Another heap that still has the allocations, with the same bytes in them. -/
theorem reheap (h : Stored sz g o rs) (hinv : ∃ bs l, HeapInv (fun _ => False) g'.alloc g'.live bs l)
    (hkeep : ∀ r ∈ rs, ∀ a ∈ g.live, a.payload = r.base → a ∈ g'.live ∧ SamePayload a g.alloc.mem g'.alloc.mem) :
    Stored sz g' (o.surviving sz g.alloc.mem g'.alloc.mem) rs := by
  rw [h.surviving_eq fun r hr x h1 h2 => ?_]
  · refine ⟨hinv, fun r hr => ?_, h.distinct, h.whole, h.filled, h.outside, h.accounted⟩
    obtain ⟨a, ha, hb, hs⟩ := h.live r hr
    exact ⟨a, (hkeep r hr a ha hb).1, hb, hs⟩
  · obtain ⟨a, ha, hb, hs⟩ := h.live r hr
    exact (hkeep r hr a ha hb).2 x (by omega) (by omega)

theorem counters (h : Stored sz g o rs) (hc : CountersOnly g.alloc s) :
    Stored sz { g with alloc := s } (o.surviving sz g.alloc.mem s.mem) rs := by
  obtain ⟨bs, l, hinv⟩ := h.heap
  refine h.reheap ⟨bs, l, hinv.counters hc⟩ fun r _ a ha _ => ⟨ha, ?_⟩
  rw [hc.mem_eq]
  exact .refl a _

/-- A region more, as yet without elements. -/
theorem fresh (h : Stored sz g o rs) (hr : ∃ a ∈ g.live, a.payload = p ∧ a.size = n)
    (hnew : ∀ r ∈ rs, r.base ≠ p) : Stored sz g o (⟨p, n, []⟩ :: rs) := by
  have hlive : ∀ r ∈ (⟨p, n, []⟩ : Region V) :: rs, ∃ a ∈ g.live, a.payload = r.base ∧ a.size = r.bytes := by
    intro r hm
    rcases List.mem_cons.mp hm with rfl | hm
    · exact hr
    · exact h.live r hm
  obtain ⟨bs, l, hinv⟩ := h.heap
  obtain ⟨a, ha, rfl, rfl⟩ := hr
  refine ⟨⟨bs, l, hinv⟩, hlive, ?_, fun r hm => ?_, fun r hm => ?_, fun q y hq => ?_, h.accounted⟩
  · rw [List.map_cons, List.nodup_cons]
    refine ⟨fun hm => ?_, h.distinct⟩
    obtain ⟨r, hm, heq⟩ := List.mem_map.mp hm
    exact hnew r hm heq
  · rcases List.mem_cons.mp hm with rfl | hm
    · exact (Nat.zero_mul sz).le.trans (Nat.zero_le _)
    · exact h.whole r hm
  · rcases List.mem_cons.mp hm with rfl | hm
    · intro q h1 h2
      have hnone : o.slot q = none := by
        by_contra hcon
        obtain ⟨y, hy⟩ := Option.ne_none_iff_exists'.mp hcon
        obtain ⟨r, hr, h3, h4⟩ := h.outside q y hy
        obtain ⟨a', ha', hb', hs'⟩ := h.live r hr
        have hdiff : a' ≠ a := by
          rintro rfl
          exact hnew r hr hb'.symm
        have := (hinv.payloads_apart ha).2.2.2 a' ha' hdiff
        dsimp only at h1 h2
        omega
      rw [hnone]
      unfold cellAt
      split <;> rfl
    · exact h.filled r hm
  · obtain ⟨r, hm, hin⟩ := h.outside q y hq
    exact ⟨r, List.mem_cons_of_mem _ hm, hin⟩

/-- A region without elements may be left out. -/
theorem drop (h : Stored sz g o (r :: rs)) (hr : r.cells = []) : Stored sz g o rs := by
  obtain ⟨h1, h2, h3, h4, h5, h6, h7⟩ := h
  refine ⟨h1, fun r' hm => h2 r' (List.mem_cons_of_mem _ hm), (List.nodup_cons.mp h3).2,
    fun r' hm => h4 r' (List.mem_cons_of_mem _ hm), fun r' hm => h5 r' (List.mem_cons_of_mem _ hm), fun q y hq => ?_, h7⟩
  obtain ⟨r', hm, hin⟩ := h6 q y hq
  rcases List.mem_cons.mp hm with rfl | hm
  · rw [h5 r' List.mem_cons_self q hin.1 hin.2, hr] at hq
    obtain ⟨j, -, hj⟩ := cellAt_some hq
    cases hj
  · exact ⟨r', hm, hin⟩

/-- The allocation of a region has become longer. Nothing else is alive in the new bytes. -/
theorem widen (h : Stored sz g o (r :: rs)) (hsz : 0 < sz) (hinv : ∃ bs l, HeapInv (fun _ => False) g'.alloc g'.live bs l)
    (hlive : ∀ r' ∈ ({ r with bytes := n } : Region V) :: rs, ∃ a ∈ g'.live, a.payload = r'.base ∧ a.size = r'.bytes)
    (hle : r.bytes ≤ n) : Stored sz g' o ({ r with bytes := n } :: rs) := by
  have hnone : ∀ q, r.base+r.bytes ≤ q → q < r.base+n → o.slot q = none := by
    intro q h1 h2
    by_contra hcon
    obtain ⟨y, hy⟩ := Option.ne_none_iff_exists'.mp hcon
    obtain ⟨r', hr', h3, h4⟩ := h.outside q y hy
    rcases List.mem_cons.mp hr' with rfl | hr'
    · omega
    obtain ⟨bs, l, hinv⟩ := hinv
    obtain ⟨a, ha, hb, hs⟩ := hlive _ List.mem_cons_self
    obtain ⟨a', ha', hb', hs'⟩ := hlive r' (List.mem_cons_of_mem _ hr')
    have hdiff : a' ≠ a := by
      rintro rfl
      exact (List.nodup_cons.mp h.distinct).1 (List.mem_map.mpr ⟨r', hr', hb'.symm.trans hb⟩)
    have := (hinv.payloads_apart ha).2.2.2 a' ha' hdiff
    dsimp only at hb hs
    omega
  have hwhole := h.whole r List.mem_cons_self
  refine ⟨hinv, hlive, h.distinct, fun r' hm => ?_, fun r' hm => ?_, fun q y hq => ?_, h.accounted⟩
  · rcases List.mem_cons.mp hm with rfl | hm
    · exact hwhole.trans hle
    · exact h.whole r' (List.mem_cons_of_mem _ hm)
  · rcases List.mem_cons.mp hm with rfl | hm
    · intro q h1 h2
      by_cases hq : q < r.base+r.bytes
      · exact h.filled r List.mem_cons_self q h1 hq
      · rw [hnone q (by omega) h2]
        exact (cellAt_beyond hsz (by dsimp only; omega)).symm
    · exact h.filled r' (List.mem_cons_of_mem _ hm)
  · obtain ⟨r', hm, h1, h2⟩ := h.outside q y hq
    rcases List.mem_cons.mp hm with rfl | hm
    · exact ⟨_, List.mem_cons_self, show r'.base ≤ q from h1, show q < r'.base+n by omega⟩
    · exact ⟨r', List.mem_cons_of_mem _ hm, h1, h2⟩

/-- One slot of a region is written. -/
theorem write (h : Stored sz g o (r :: rs)) (hsz : 0 < sz) {z : Option (ℕ × V)} (hn : n*sz < r.bytes)
    (hslot : o'.slot = Function.update o.slot (r.base+n*sz) z) (hacc : o'.Accounted)
    (hcells : ∀ j, cells[j]? = if j = n then z else r.cells[j]?) (hlen : cells.length*sz ≤ r.bytes) :
    Stored sz g o' ({ r with cells := cells } :: rs) := by
  have hother : ∀ r' ∈ rs, ∀ q, r'.base ≤ q → q < r'.base+r'.bytes → o'.slot q = o.slot q := by
    intro r' hm q h1 h2
    rw [hslot]
    refine Function.update_of_ne ?_ _ _
    rintro rfl
    have hne : r'.base ≠ r.base := fun heq => (List.nodup_cons.mp h.distinct).1 (heq ▸ List.mem_map_of_mem hm)
    have := h.apart List.mem_cons_self (List.mem_cons_of_mem _ hm) hne
    omega
  refine ⟨h.heap, fun r' hm => ?_, h.distinct, fun r' hm => ?_, fun r' hm => ?_, fun q y hq => ?_, hacc⟩
  · rcases List.mem_cons.mp hm with rfl | hm
    · exact h.live r List.mem_cons_self
    · exact h.live r' (List.mem_cons_of_mem _ hm)
  · rcases List.mem_cons.mp hm with rfl | hm
    · exact hlen
    · exact h.whole r' (List.mem_cons_of_mem _ hm)
  · rcases List.mem_cons.mp hm with rfl | hm
    · rw [hslot]
      exact (h.filled r List.mem_cons_self).update hsz hcells
    · exact (h.filled r' (List.mem_cons_of_mem _ hm)).congr (hother r' hm)
  · by_cases hqp : q = r.base+n*sz
    · exact ⟨_, List.mem_cons_self, show r.base ≤ q by omega, show q < r.base+r.bytes by omega⟩
    · rw [hslot, Function.update_of_ne hqp] at hq
      obtain ⟨r', hm, hin⟩ := h.outside q y hq
      rcases List.mem_cons.mp hm with rfl | hm
      · exact ⟨_, List.mem_cons_self, hin⟩
      · exact ⟨r', List.mem_cons_of_mem _ hm, hin⟩

theorem slot_eq (h : Stored sz g o rs) (hsz : 0 < sz) (hr : r ∈ rs) (hn : n*sz < r.bytes) :
    o.slot (r.base+n*sz) = r.cells[n]? :=
  (h.filled r hr).slot_eq hsz hn

/-- An element is constructed behind the last. -/
theorem push (h : Stored sz g o (r :: rs)) (hsz : 0 < sz) (hroom : (r.cells.length+1)*sz ≤ r.bytes) (v : V) :
    Stored sz g (o.insert (r.base+r.cells.length*sz) v) ({ r with cells := r.cells ++ [(o.made, v)] } :: rs) := by
  have hlt : r.cells.length*sz < r.bytes := by
    rw [Nat.succ_mul] at hroom
    omega
  have hnone : o.slot (r.base+r.cells.length*sz) = none := by
    rw [h.slot_eq hsz List.mem_cons_self hlt]
    exact List.getElem?_eq_none le_rfl
  exact h.write hsz hlt rfl (h.accounted.insert hnone v) (getElem?_push _ _) (by simpa using hroom)

/-- The last element is destroyed. -/
theorem pop {y : ℕ × V} (h : Stored sz g o (r :: rs)) (hsz : 0 < sz) (hr : r.cells = cells ++ [y]) :
    Stored sz g (o.remove (r.base+cells.length*sz)) ({ r with cells := cells } :: rs) := by
  have hwhole := h.whole r List.mem_cons_self
  rw [hr, List.length_append, List.length_singleton, Nat.succ_mul] at hwhole
  have hlt : cells.length*sz < r.bytes := by omega
  have hsome : o.slot (r.base+cells.length*sz) = some y := by
    rw [h.slot_eq hsz List.mem_cons_self hlt, hr, getElem?_push, if_pos rfl]
  exact h.write hsz hlt rfl (h.accounted.remove hsome) (fun j => by rw [hr]; exact getElem?_pop _ _ _) hlt.le

/-- An element is given another value. -/
theorem assign {y : ℕ × V} (h : Stored sz g o (r :: rs)) (hsz : 0 < sz) (hn : r.cells[n]? = some y) (v : V) :
    Stored sz g (o.assign (r.base+n*sz) v) ({ r with cells := r.cells.set n (y.1, v) } :: rs) := by
  have hlt := (List.getElem?_eq_some_iff.mp hn).1
  have hwhole := h.whole r List.mem_cons_self
  have hmul : (n+1)*sz ≤ r.bytes := (Nat.mul_le_mul_right sz hlt).trans hwhole
  rw [Nat.succ_mul] at hmul
  have hin : n*sz < r.bytes := by omega
  have hslot : o.slot (r.base+n*sz) = some y := (h.slot_eq hsz List.mem_cons_self hin).trans hn
  refine h.write (z := some (y.1, v)) hsz hin ?_ (h.accounted.assign _ v) (fun j => ?_) ?_
  · rw [Objects.assign_slot, hslot]
    rfl
  · rw [List.getElem?_set]
    by_cases hj : n = j
    · rw [if_pos hj, if_pos hj.symm, if_pos hlt]
    · rw [if_neg hj, if_neg (Ne.symm hj)]
  · rw [List.length_set]
    exact hwhole

/-! Allocator calls. -/

/-- `allocate` for `n` elements: a region without elements, or nothing but counters. -/
theorem allocateElements (h : Stored sz g o rs) (hsz : 0 < sz) (hn : 0 < n) (hal : normalizeAlignment al = some A)
    (hfits : n ≤ (2^64-1)/sz → AllocateFits g.alloc (n*sz) al) :
    (∃ p s, (allocateElements sz al n).run g.alloc = (.ok p, s) ∧ p ≠ 0 ∧
      Stored sz { g with alloc := s, live := newAllocs s.mem (n*sz) al [p] ++ g.live } (o.surviving sz g.alloc.mem s.mem)
        (⟨p, n*sz, []⟩ :: rs)) ∨
    ∃ e s, (allocateElements sz al n).run g.alloc = (.error e, s) ∧ Stored sz { g with alloc := s } (o.surviving sz g.alloc.mem s.mem) rs := by
  unfold ShmNext.allocateElements
  by_cases hmax : (2^64-1)/sz < n
  · rw [if_pos hmax]
    exact Or.inr ⟨_, _, rfl, h.counters (.refl _)⟩
  rw [if_neg hmax]
  have hmul : n*sz ≤ 2^64-1 := (Nat.mul_le_mul_right sz (not_lt.mp hmax)).trans (Nat.div_mul_le_self _ _)
  obtain ⟨bs, l, hinv⟩ := h.heap
  rcases hinv.run_allocate (Nat.mul_pos hn hsz) (by omega) hal (hfits (not_lt.mp hmax)) with
    ⟨p, s, hrun, hp, hinv', hbytes⟩ | ⟨s, hrun, hc⟩
  · refine Or.inl ⟨p, s, ?_, hp, ?_⟩
    · rw [run_bind_ok hrun, if_neg hp]
      rfl
    · rw [newAllocs_one _ hp hal]
      obtain ⟨bs', l', hinv'⟩ := hinv'
      have hheap : Stored sz { g with alloc := s, live := ⟨headerBlock s.mem p, p, n*sz, A⟩ :: g.live }
          (o.surviving sz g.alloc.mem s.mem) rs :=
        h.reheap ⟨bs', l', hinv'⟩ fun r _ a ha _ => ⟨List.mem_cons_of_mem _ ha, hbytes a ha⟩
      refine hheap.fresh ⟨_, List.mem_cons_self, rfl, rfl⟩ fun r hr heq => ?_
      obtain ⟨a, ha, hb, -⟩ := h.live r hr
      have hdup := hinv'.payload_unique (List.mem_cons_of_mem _ ha) List.mem_cons_self (hb.trans heq)
      have hnd := List.nodup_cons.mp hinv'.distinct
      exact hnd.1 (List.mem_map.mpr ⟨a, ha, by rw [hdup]⟩)
  · exact Or.inr ⟨_, s, run_bind_error hrun _, h.counters hc⟩

theorem allocateElements_returns_iff (h : Stored sz g o rs) (hsz : 0 < sz) (hn : 0 < n) (hal : normalizeAlignment al = some A)
    (hfits : n ≤ (2^64-1)/sz → AllocateFits g.alloc (n*sz) al) :
    (∃ p s, (ShmNext.allocateElements sz al n).run g.alloc = (.ok p, s)) ↔ n ≤ (2^64-1)/sz ∧ FindsBlock g.alloc (n*sz) al := by
  obtain ⟨bs, l, hinv⟩ := h.heap
  exact hinv.allocateElements_returns_iff hsz hn hal hfits

/-- `deallocate` of a region whose elements have been destroyed. -/
theorem deallocate (h : Stored sz g o (r :: rs)) (hr : r.cells = []) :
    ∃ s, (ShmNext.deallocate r.base).run g.alloc = (.ok (), s) ∧
      Stored sz (g.release s [r.base]) (o.surviving sz g.alloc.mem s.mem) rs := by
  have hrest := h.drop hr
  obtain ⟨bs, l, hinv⟩ := h.heap
  obtain ⟨a, ha, hb, hs⟩ := h.live r List.mem_cons_self
  obtain ⟨-, _, s, hrun, hinv', hbytes⟩ := hinv.runs_deallocate ha
  refine ⟨s, hb ▸ hrun, ?_⟩
  have hfilter : (g.release s [r.base]).live = g.live.filter (·.payload ≠ a.payload) := by
    rw [hb]
    exact List.filter_congr fun a' _ => by simp
  have hheap : ∃ bs' l', HeapInv (fun _ => False) (g.release s [r.base]).alloc (g.release s [r.base]).live bs' l' := by
    rw [hfilter]
    exact hinv'
  apply hrest.reheap hheap
  intro r' hr' a' ha' hb'
  have hne : a'.payload ≠ a.payload := by
    rw [hb, hb']
    exact fun heq => (List.nodup_cons.mp h.distinct).1 (heq ▸ List.mem_map_of_mem hr')
  rw [hfilter]
  exact ⟨List.mem_filter.mpr ⟨ha', by simpa using hne⟩, hbytes a' ha' hne⟩

/-- `try_expand` of a region: it has the new size, or nothing but counters has changed. -/
theorem tryExpand (h : Stored sz g o (r :: rs)) (hn : 0 < n*sz) (hn' : n*sz < 2^64) (hal : normalizeAlignment al = some A)
    (hfits : ExpandFits g.alloc r.base (n*sz) al) (hgrow : r.bytes ≤ n*sz) :
    (∃ s, (ShmNext.tryExpand r.base (n*sz) al).run g.alloc = (.ok true, s) ∧
      Stored sz { g with alloc := s, live := resized g.live r.base (n*sz) } (o.surviving sz g.alloc.mem s.mem)
        ({ r with bytes := n*sz } :: rs)) ∨
    ∃ s, (ShmNext.tryExpand r.base (n*sz) al).run g.alloc = (.ok false, s) ∧ CountersOnly g.alloc s ∧
      Stored sz { g with alloc := s } (o.surviving sz g.alloc.mem s.mem) (r :: rs) := by
  obtain ⟨bs, l, hinv⟩ := h.heap
  obtain ⟨a, ha, hb, hs⟩ := h.live r List.mem_cons_self
  rcases hinv.run_tryExpand_held ha hn hn' hal (hb ▸ hfits) with ⟨s, hrun, ⟨bs', l', hinv'⟩, hbytes⟩ | ⟨s, hrun, hc⟩
  · refine Or.inl ⟨s, hb ▸ hrun, ?_⟩
    rw [hb] at hinv'
    have hsame : o.surviving sz g.alloc.mem s.mem = o := by
      refine h.surviving_eq fun r' hr' x h1 h2 => ?_
      obtain ⟨a', ha', hb', hs'⟩ := h.live r' hr'
      exact hbytes a' ha' x (by omega) (by omega)
    rw [hsame]
    have hlive : ∀ r' ∈ ({ r with bytes := n*sz } : Region V) :: rs,
        ∃ a' ∈ resized g.live r.base (n*sz), a'.payload = r'.base ∧ a'.size = r'.bytes := by
      intro r' hr'
      rcases List.mem_cons.mp hr' with rfl | hr'
      · exact ⟨{ a with size := n*sz }, List.mem_map.mpr ⟨a, ha, if_pos hb⟩, hb, rfl⟩
      · obtain ⟨a', ha', hb', hs'⟩ := h.live r' (List.mem_cons_of_mem _ hr')
        have hne : a'.payload ≠ r.base := by
          rw [hb']
          exact fun heq => (List.nodup_cons.mp h.distinct).1 (heq ▸ List.mem_map_of_mem hr')
        exact ⟨a', List.mem_map.mpr ⟨a', ha', if_neg hne⟩, hb', hs'⟩
    have hsz : 0 < sz := Nat.pos_of_ne_zero fun h0 => by simp [h0] at hn
    exact h.widen hsz ⟨bs', l', hinv'⟩ hlive hgrow
  · exact Or.inr ⟨s, hb ▸ hrun, hc, h.counters hc⟩

end Stored

/-- The regions are all there is: no allocation is held besides them. -/
structure StoredExactly (sz : ℕ) (g : Heap) (o : Objects V) (rs : List (Region V)) : Prop extends Stored sz g o rs where
  covered : ∀ a ∈ g.live, ∃ r ∈ rs, r.base = a.payload

/-- The allocation `a` as a region without elements. -/
def LiveAlloc.idle (V : Type) (a : LiveAlloc) : Region V := ⟨a.payload, a.size, []⟩

/-- The allocations besides the regions. -/
def unownedRegions (g : Heap) (rs : List (Region V)) : List (Region V) :=
  (g.live.filter fun a => a.payload ∉ rs.map Region.base).map (LiveAlloc.idle V)

namespace Stored

theorem dropIdle (h : Stored sz g o (rs ++ rs')) (hidle : ∀ r ∈ rs', r.cells = []) : Stored sz g o rs := by
  induction rs' with
  | nil => rwa [List.append_nil] at h
  | cons r rs' ih =>
    have hdrop := (h.perm List.perm_middle).drop (hidle r List.mem_cons_self)
    exact ih hdrop fun r' hr => hidle r' (List.mem_cons_of_mem _ hr)

/-- With the other allocations as regions without elements, the regions are all there is. -/
theorem exactly (h : Stored sz g o rs) : StoredExactly sz g o (rs ++ unownedRegions g rs) := by
  obtain ⟨bs, l, hinv⟩ := h.heap
  -- a region more for each live allocation that none of `rs` is in: it holds no element
  have hmem : ∀ r ∈ unownedRegions g rs, ∃ a ∈ g.live, a.idle V = r ∧ a.payload ∉ rs.map Region.base := by
    intro r hr
    obtain ⟨a, ha, hidle⟩ := List.mem_map.mp hr
    obtain ⟨ha, hb⟩ := List.mem_filter.mp ha
    exact ⟨a, ha, hidle, by simpa using hb⟩
  refine ⟨⟨⟨bs, l, hinv⟩, fun r hr => ?_, ?_, fun r hr => ?_, fun r hr => ?_, fun q y hq => ?_, h.accounted⟩, fun a ha => ?_⟩
  · rcases List.mem_append.mp hr with hr | hr
    · exact h.live r hr
    · obtain ⟨a, ha, rfl, -⟩ := hmem r hr
      exact ⟨a, ha, rfl, rfl⟩
  · rw [List.map_append]
    refine List.nodup_append.mpr ⟨h.distinct, ?_, fun b hb b' hb' heq => ?_⟩
    · have hnd := (List.filter_sublist (p := fun a : LiveAlloc => a.payload ∉ rs.map Region.base) (l := g.live)).map LiveAlloc.payload
      have hpay : (unownedRegions g rs).map Region.base =
          (g.live.filter fun a => a.payload ∉ rs.map Region.base).map LiveAlloc.payload := List.map_map
      rw [hpay]
      exact hnd.nodup hinv.payloads_nodup
    · obtain ⟨r, hr, rfl⟩ := List.mem_map.mp hb'
      obtain ⟨a, -, rfl, hnot⟩ := hmem r hr
      rw [heq] at hb
      exact hnot hb
  · rcases List.mem_append.mp hr with hr | hr
    · exact h.whole r hr
    · obtain ⟨a, -, rfl, -⟩ := hmem r hr
      exact (Nat.zero_mul sz).le.trans (Nat.zero_le _)
  · rcases List.mem_append.mp hr with hr | hr
    · exact h.filled r hr
    · obtain ⟨a, ha, rfl, hnot⟩ := hmem r hr
      have hfresh := h.fresh (p := a.payload) ⟨a, ha, rfl, rfl⟩ fun r' hr' heq => hnot (heq ▸ List.mem_map_of_mem hr')
      exact hfresh.filled _ List.mem_cons_self
  · obtain ⟨r, hr, hin⟩ := h.outside q y hq
    exact ⟨r, List.mem_append_left _ hr, hin⟩
  · by_cases hown : a.payload ∈ rs.map Region.base
    · obtain ⟨r, hr, hb⟩ := List.mem_map.mp hown
      exact ⟨r, List.mem_append_left _ hr, hb⟩
    · refine ⟨a.idle V, List.mem_append_right _ (List.mem_map_of_mem (List.mem_filter.mpr ⟨ha, ?_⟩)), rfl⟩
      simpa using hown

end Stored

namespace StoredExactly

theorem perm (h : StoredExactly sz g o rs) (hp : rs.Perm rs') : StoredExactly sz g o rs' := by
  refine ⟨h.toStored.perm hp, fun a ha => ?_⟩
  obtain ⟨r, hr, hb⟩ := h.covered a ha
  exact ⟨r, hp.mem_iff.mp hr, hb⟩

/-- Other objects in the same regions. -/
theorem refill (h : StoredExactly sz g o (r :: rs)) (hst : Stored sz g o' ({ r with cells := cells } :: rs)) :
    StoredExactly sz g o' ({ r with cells := cells } :: rs) := by
  refine ⟨hst, fun a ha => ?_⟩
  obtain ⟨r', hr, hb⟩ := h.covered a ha
  rcases List.mem_cons.mp hr with rfl | hr
  · exact ⟨_, List.mem_cons_self, hb⟩
  · exact ⟨r', List.mem_cons_of_mem _ hr, hb⟩

theorem push (h : StoredExactly sz g o (r :: rs)) (hsz : 0 < sz) (hroom : (r.cells.length+1)*sz ≤ r.bytes) (v : V) :
    StoredExactly sz g (o.insert (r.base+r.cells.length*sz) v) ({ r with cells := r.cells ++ [(o.made, v)] } :: rs) :=
  h.refill (h.toStored.push hsz hroom v)

theorem pop {y : ℕ × V} (h : StoredExactly sz g o (r :: rs)) (hsz : 0 < sz) (hr : r.cells = cells ++ [y]) :
    StoredExactly sz g (o.remove (r.base+cells.length*sz)) ({ r with cells := cells } :: rs) :=
  h.refill (h.toStored.pop hsz hr)

theorem assign {y : ℕ × V} (h : StoredExactly sz g o (r :: rs)) (hsz : 0 < sz) (hn : r.cells[n]? = some y) (v : V) :
    StoredExactly sz g (o.assign (r.base+n*sz) v) ({ r with cells := r.cells.set n (y.1, v) } :: rs) :=
  h.refill (h.toStored.assign hsz hn v)

theorem allocateElements (h : StoredExactly sz g o rs) (hsz : 0 < sz) (hn : 0 < n) (hal : normalizeAlignment al = some A)
    (hfits : n ≤ (2^64-1)/sz → AllocateFits g.alloc (n*sz) al) :
    (∃ p s, (allocateElements sz al n).run g.alloc = (.ok p, s) ∧ p ≠ 0 ∧
      StoredExactly sz { g with alloc := s, live := newAllocs s.mem (n*sz) al [p] ++ g.live }
        (o.surviving sz g.alloc.mem s.mem) (⟨p, n*sz, []⟩ :: rs)) ∨
    ∃ e s, (allocateElements sz al n).run g.alloc = (.error e, s) ∧
      StoredExactly sz { g with alloc := s } (o.surviving sz g.alloc.mem s.mem) rs := by
  rcases h.toStored.allocateElements hsz hn hal hfits with ⟨p, s, hrun, hp, hst⟩ | ⟨e, s, hrun, hst⟩
  · refine Or.inl ⟨p, s, hrun, hp, hst, fun a ha => ?_⟩
    dsimp only at ha
    rw [newAllocs_one _ hp hal] at ha
    rcases List.mem_cons.mp ha with rfl | ha
    · exact ⟨_, List.mem_cons_self, rfl⟩
    · obtain ⟨r, hr, hb⟩ := h.covered a ha
      exact ⟨r, List.mem_cons_of_mem _ hr, hb⟩
  · exact Or.inr ⟨e, s, hrun, hst, h.covered⟩

theorem deallocate (h : StoredExactly sz g o (r :: rs)) (hr : r.cells = []) :
    ∃ s, (ShmNext.deallocate r.base).run g.alloc = (.ok (), s) ∧
      StoredExactly sz (g.release s [r.base]) (o.surviving sz g.alloc.mem s.mem) rs := by
  obtain ⟨s, hrun, hst⟩ := h.toStored.deallocate hr
  refine ⟨s, hrun, hst, fun a ha => ?_⟩
  obtain ⟨ha, hne⟩ := List.mem_filter.mp ha
  obtain ⟨r', hr', hb⟩ := h.covered a ha
  rcases List.mem_cons.mp hr' with rfl | hr'
  · simp [hb] at hne
  · exact ⟨r', hr', hb⟩

theorem tryExpand (h : StoredExactly sz g o (r :: rs)) (hn : 0 < n*sz) (hn' : n*sz < 2^64) (hal : normalizeAlignment al = some A)
    (hfits : ExpandFits g.alloc r.base (n*sz) al) (hgrow : r.bytes ≤ n*sz) :
    (∃ s, (ShmNext.tryExpand r.base (n*sz) al).run g.alloc = (.ok true, s) ∧
      StoredExactly sz { g with alloc := s, live := resized g.live r.base (n*sz) } (o.surviving sz g.alloc.mem s.mem)
        ({ r with bytes := n*sz } :: rs)) ∨
    ∃ s, (ShmNext.tryExpand r.base (n*sz) al).run g.alloc = (.ok false, s) ∧ CountersOnly g.alloc s ∧
      StoredExactly sz { g with alloc := s } (o.surviving sz g.alloc.mem s.mem) (r :: rs) := by
  rcases h.toStored.tryExpand hn hn' hal hfits hgrow with ⟨s, hrun, hst⟩ | ⟨s, hrun, hc, hst⟩
  · refine Or.inl ⟨s, hrun, hst, fun a ha => ?_⟩
    obtain ⟨a', ha', rfl⟩ := List.mem_map.mp ha
    obtain ⟨r', hr', hb⟩ := h.covered a' ha'
    have hpay : (if a'.payload = r.base then { a' with size := n*sz } else a').payload = a'.payload := by
      split <;> rfl
    rw [hpay]
    rcases List.mem_cons.mp hr' with rfl | hr'
    · exact ⟨_, List.mem_cons_self, hb⟩
    · exact ⟨r', List.mem_cons_of_mem _ hr', hb⟩
  · exact Or.inr ⟨s, hrun, hc, hst, h.covered⟩

end StoredExactly

end ShmNext
