import ShmNext.BestFit
import ShmNext.Restoration

/-! `try_expand`: exactly when it says yes, and what the chain is then. -/
namespace ShmNext
open Prog

variable {s c : Allocator} {g : Heap} {a : LiveAlloc} {b : Block} {bs l xs ys : List Block} {n al A p total : ℕ}

/-- What the chain `xs ++ b :: ys` becomes when `b` is expanded to `total` bytes: the same where `b` has them,
else `b` takes the free block behind it, and what it does not need of that becomes a block again. -/
inductive ExpandedChain (xs : List Block) (b : Block) (ys : List Block) (total : ℕ) : List Block → Prop
  | fits (ht : total ≤ b.size) : ExpandedChain xs b ys total (xs ++ b :: ys)
  | takes {d : Block} {ys' : List Block} (hy : ys = d :: ys') (hd : d.free = true) (ht : b.size < total)
      (hroom : total ≤ b.size+d.size) :
      ExpandedChain xs b ys total (xs ++ cutBlock ⟨b.addr, b.size+d.size, false⟩ total ++ ys')

/-- The block, or the block and a free successor, have `total` bytes. -/
def RoomFor (b : Block) (ys : List Block) (total : ℕ) : Prop :=
  total ≤ b.size ∨ ∃ d ys', ys = d :: ys' ∧ d.free = true ∧ total ≤ b.size+d.size

theorem le_expandRoom_iff : total ≤ expandRoom b ys ↔ RoomFor b ys total := by
  constructor
  · intro hle
    rcases expandRoom_cases hle with hfit | ⟨d, ys', rfl, hd, -, hroom⟩
    · exact Or.inl hfit
    · exact Or.inr ⟨d, ys', rfl, hd, hroom⟩
  · rintro (hfit | ⟨d, ys', rfl, hd, hroom⟩)
    · exact hfit.trans (Nat.le_add_right _ _)
    · unfold expandRoom
      simpa only [hd, if_true] using hroom

/-- The chain `try_expand` leaves at a pointer whose header names the block `b`. -/
theorem Sane.tryExpand_chain (h : Sane s (xs ++ b :: ys) l) (hb : b.free = false) (hp : NamesBlock s.mem p b) (hn : 0 < n)
    (ha : normalizeAlignment al = some A) (hfit : LayoutFits b.addr n A) :
    (tryExpand p n al).Runs s (fun _ => True) fun r c => (r = false → CountersOnly s c) ∧
      (r = true → ∃ bs' l', Sane c bs' l' ∧ ExpandedChain xs b ys (makeLayout b.addr n A).totalSize bs' ∧
        ((makeLayout b.addr n A).totalSize ≤ b.size → l' = l)) := by
  obtain ⟨k, hk, hk', rfl, -⟩ := normalizeAlignment_some ha
  have hlay := makeLayout_spec hk hk' hfit hn
  refine h.runs_tryExpand hb hp hn ha (fun _ _ => trivial) (fun _ c hc => ⟨fun _ => hc, fun hr => (by cases hr)⟩) ?_
  intro hpay hroom d hd
  have hsane := h.counters hd
  rcases expandRoom_cases hroom with hfits | ⟨e, ys', rfl, he, hlt, hle⟩
  · refine hsane.runs_expandBlock_fits (by simp) hb hp.1 hp.2.1 hfits fun c hc _ => ⟨trivial, fun hr => (by cases hr), fun _ => ?_⟩
    exact ⟨_, l, hc, .fits hfits, fun _ => rfl⟩
  · refine hsane.runs_expandBlock_grows hb he hp.1 hp.2.1 hlt hle hlay.total_aligned (fun _ _ _ => trivial) (fun _ _ _ => trivial)
      (fun _ _ _ => trivial) fun c _ hc => ⟨fun hr => (by cases hr), fun _ => ?_⟩
    rw [handedOut_eq_cutBlock (b := ⟨b.addr, b.size+e.size, false⟩) hle] at hc
    exact ⟨_, _, hc, .takes rfl he hlt hle, fun hfits => absurd hfits (Nat.not_le.mpr hlt)⟩

/-- `try_expand` of a live payload in the block `b`. -/
theorem HeapInv.tryExpand_live (h : HeapInv (fun _ => False) g.alloc g.live (xs ++ b :: ys) l) (ha : a ∈ g.live)
    (hb : b.addr = a.block) (hn : n < 2^64) (hA : normalizeAlignment al = some A) (hfit : LayoutFits b.addr n A) :
    ∃ r c, (tryExpand a.payload n al).run g.alloc = (.ok r, c) ∧
      (r = true ↔ 0 < n ∧ (makeLayout b.addr n A).payload = a.payload ∧ RoomFor b ys (makeLayout b.addr n A).totalSize) ∧
      (r = true → (allocationSize a.payload).run c = (.ok n, c) ∧ (∀ a' ∈ g.live, SamePayload a' g.alloc.mem c.mem) ∧
        ∃ bs' l', HeapInv (fun _ => False) c (resized g.live a.payload n) bs' l' ∧
          ExpandedChain xs b ys (makeLayout b.addr n A).totalSize bs' ∧
          ((makeLayout b.addr n A).totalSize ≤ b.size → freeList c = freeList g.alloc)) ∧
      (r = false → CountersOnly g.alloc c) := by
  obtain ⟨b', hb', hh⟩ := h.placed a ha
  obtain rfl : b' = b := h.linked.addr_inj hb' (by simp) (hh.addr.trans hb.symm)
  rcases Nat.eq_zero_or_pos n with rfl | hpos
  · obtain ⟨-, r, c, hrun, rfl, hc⟩ := h.toSane.runs_tryExpand_refused (a := al) (p := a.payload) (Or.inr (Or.inl rfl))
    exact ⟨false, c, hrun, by simp, fun hr => (by cases hr), fun _ => hc⟩
  have hnames := hh.namesBlock
  obtain ⟨-, r, c, hrun, hfalse, htrue⟩ := h.toSane.tryExpand_chain hh.allocated hnames hpos hA hfit
  obtain ⟨-, r', c', hrun', ⟨bs₁, l₁, hinv⟩, hcan, hbytes⟩ := h.runs_tryExpand hb' hh.allocated hnames hpos hn hA hfit
  rw [hrun] at hrun'
  cases hrun'
  have hiff : CanExpand g.alloc b'.addr a.payload n A ↔
      (makeLayout b'.addr n A).payload = a.payload ∧ RoomFor b' ys (makeLayout b'.addr n A).totalSize := by
    unfold CanExpand
    rw [h.toSane.roomAt_eq, le_expandRoom_iff]
  refine ⟨r, c, hrun, ?_, fun hr => ?_, hfalse⟩
  · rw [← hcan, hiff]
    exact ⟨fun hr => ⟨hpos, hr⟩, fun hr => hr.2⟩
  · subst hr
    obtain ⟨bs', l', hsane, hchain, hlist⟩ := htrue rfl
    obtain rfl := hsane.chain_unique hinv.toSane
    have hheld : ({ a with size := n } : LiveAlloc) ∈ resized g.live a.payload n := List.mem_map.mpr ⟨a, ha, if_pos rfl⟩
    have hblock : headerBlock g.alloc.mem a.payload = b'.addr := hnames.2.2.1
    have htrust := h.trusts_iff.mpr ⟨b', hb', hh.allocated, hnames⟩
    have hapart : ExpandsApart g.alloc g.live a.payload n al := h.expandsApart_of_holds ⟨a, ha, rfl⟩
    have hrecord := recordsApart_iff.mp <| hapart (by omega) htrust A hA (hblock ▸ hcan.mpr rfl)
    refine ⟨hinv.run_allocationSize hheld, fun a' ha' => (hrecord a' ha').trans (hbytes a' ha'), _, l₁, hinv, hchain, fun hle => ?_⟩
    rw [hsane.freeList_eq, hlist hle, h.toSane.freeList_eq]

/-- `try_expand` says yes exactly when the layout for the new size starts at the payload again and the block, or it and
a free successor, have room. Then only that block, its successor and the size have changed; where it says
no, and for nothing, at null and at pointers outside the segment, nothing but counters has. -/
theorem try_expand_exact (h : HeapInv (fun _ => False) g.alloc g.live bs l) (hn : n < 2^64) :
    (al ≤ 2^63 → ∀ a ∈ g.live, ∀ xs b ys, bs = xs ++ b :: ys → b.addr = a.block → ∃ A, normalizeAlignment al = some A ∧
      (LayoutFits b.addr n A → ∃ r c, (tryExpand a.payload n al).run g.alloc = (.ok r, c) ∧
        (r = true ↔ 0 < n ∧ (makeLayout b.addr n A).payload = a.payload ∧ RoomFor b ys (makeLayout b.addr n A).totalSize) ∧
        (r = true → (allocationSize a.payload).run c = (.ok n, c) ∧ (∀ a' ∈ g.live, SamePayload a' g.alloc.mem c.mem) ∧
          ∃ bs' l', HeapInv (fun _ => False) c (resized g.live a.payload n) bs' l' ∧
            ExpandedChain xs b ys (makeLayout b.addr n A).totalSize bs' ∧
            ((makeLayout b.addr n A).totalSize ≤ b.size → freeList c = freeList g.alloc)) ∧
        (r = false → CountersOnly g.alloc c))) ∧
    ∀ p, p = 0 ∨ n = 0 ∨ p < g.alloc.segmentBegin ∨ g.alloc.segmentEnd ≤ p →
      ∃ c, (tryExpand p n al).run g.alloc = (.ok false, c) ∧ CountersOnly g.alloc c := by
  refine ⟨fun hal => ?_, fun p hp => ?_⟩
  · obtain ⟨A, hA⟩ := normalizeAlignment_of_le hal
    rintro a ha xs b ys rfl hb
    exact ⟨A, hA, h.tryExpand_live ha hb hn hA⟩
  · have hno : p = 0 ∨ n = 0 ∨ ∀ b ∈ bs, b.free = false → ¬NamesBlock g.alloc.mem p b := by
      refine hp.imp_right (Or.imp_right fun hout b hb _ hnames => ?_)
      have hbounds := h.linked.mem_bounds hb
      have hg := h.linked.geometry
      have hself := hg.self_below
      have hbegin := hg.self_ge
      rw [hg.segmentEnd_eq] at hout
      have h1 := hnames.1
      have h2 := hnames.2.1
      unfold Block.stop at *
      omega
    obtain ⟨-, r, c, hrun, rfl, hc⟩ := h.toSane.runs_tryExpand_refused (a := al) hno
    exact ⟨c, hrun, hc⟩

/-- The small segment with one allocation of 16 bytes. -/
def oneSmall : Heap := smallRun [.allocate 16 16] (by decide +kernel)

theorem try_expand_exact_oneSmall : ∃ c, (tryExpand 4256 40 16).run oneSmall.alloc = (.ok true, c) ∧
    (allocationSize 4256).run c = (.ok 40, c) := by
  obtain ⟨bs, l, hinv⟩ := Reachable.inv (g := oneSmall) (smallRun_reachable _ _)
  have ha : (⟨4208, 4256, 16, 16⟩ : LiveAlloc) ∈ oneSmall.live := by decide +kernel
  obtain ⟨xs, ys, hbs⟩ := List.append_of_mem (hinv.block_mem ha)
  obtain ⟨A, hA, hexact⟩ := (try_expand_exact hinv (by decide : 40 < 2^64)).1 (by decide : 16 ≤ 2^63) _ ha xs _ ys hbs rfl
  obtain rfl : 16 = A := Option.some.inj ((by decide : normalizeAlignment 16 = some 16).symm.trans hA)
  obtain ⟨r, c, hrun, -, htrue, -⟩ := hexact (show LayoutFits 4208 40 16 by decide)
  have hr : ((tryExpand 4256 40 16).run oneSmall.alloc).1 = .ok true := by decide +kernel
  obtain rfl : r = true := by
    rw [show (tryExpand 4256 40 16).run oneSmall.alloc = (.ok r, c) from hrun] at hr
    exact Outcome.ok.inj hr
  exact ⟨c, hrun, (htrue rfl).1⟩

end ShmNext
