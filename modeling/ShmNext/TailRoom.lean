import ShmNext.CanonicalState

/-! Every allocated block ends with the segment, or far enough from its end for one more block:
`grow` can always give back the tail that `shrink_to_fit` has dropped. -/
namespace ShmNext
open Prog

variable {s c : Allocator} {g g' : Heap} {b t : Block} {a e n al used : ℕ} {bs bs' l l' xs ys : List Block}

def TailRoom (e : ℕ) (bs : List Block) : Prop :=
  ∀ b ∈ bs, b.free = false → 48 ≤ b.size ∧ (b.stop = e ∨ b.stop+48 ≤ e)

/-- The full invariant with room behind the allocated blocks. -/
def Roomy (s : Allocator) : Prop :=
  ∃ bs l, WellFormed s bs l ∧ TailRoom (s.segmentBegin+s.segmentSize) bs

namespace TailRoom

theorem of_allocated (h : TailRoom e bs) (hall : ∀ d ∈ bs', d.free = false → d ∈ bs) : TailRoom e bs' :=
  fun d hd hf => h d (hall d hd hf) hf

/-- Taking the low part of a block: what is cut off has room for a header, and else the block ends
where an allocated one begins. -/
theorem handedOut (h : ∀ d ∈ xs ++ ys, d.free = false → 48 ≤ d.size ∧ (d.stop = e ∨ d.stop+48 ≤ e))
    (ht : Tiles b.stop e ys) (hhead : ∀ y ∈ ys.head?, y.free = false) (hu : 48 ≤ used) (hle : used ≤ b.size) :
    TailRoom e (handedOut xs b used ys) := by
  intro d hd hf
  unfold ShmNext.handedOut at hd
  simp only [List.mem_append, List.mem_cons] at hd
  rcases hd with hd | rfl | hd | hd
  · exact h d (by simp [hd]) hf
  · have hstop := ht.le
    unfold lowPart Block.stop at *
    dsimp only
    split
    · refine ⟨by omega, ?_⟩
      cases ys with
      | nil =>
        have := Tiles.nil_iff.mp ht
        exact Or.inl this
      | cons y ys =>
        have hy := h y (by simp) (hhead y rfl)
        have hb := ht.bounds List.mem_cons_self
        have := ht.1
        unfold Block.stop at hb
        exact Or.inr (by omega)
    · exact ⟨hu, Or.inr (by omega)⟩
  · rw [(mem_restPart.mp hd).2] at hf
    cases hf
  · exact h d (by simp [hd]) hf

/-- A new end behind the old one: far enough from the last block where that is allocated. -/
theorem grow {e' : ℕ} (h : TailRoom e bs) (ht : Tiles a e bs) (hlt : e < e')
    (hlast : (∀ b ∈ bs.getLast?, b.free = false) → e+48 ≤ e') : TailRoom e' bs := by
  intro d hd hf
  obtain ⟨h1, h2⟩ := h d hd hf
  refine ⟨h1, Or.inr ?_⟩
  rcases h2 with h2 | h2
  · -- only the last block ends with the segment
    obtain ⟨xs, ys, rfl, -, hy⟩ := ht.split hd
    cases ys with
    | nil =>
      have := hlast fun b hb => by
        rw [List.getLast?_append, List.getLast?_singleton] at hb
        obtain rfl : d = b := by simpa using hb
        exact hf
      omega
    | cons y ys =>
      have := (hy.bounds List.mem_cons_self).2.1
      have := (hy.bounds List.mem_cons_self).2.2.1
      have := hy.1
      unfold Block.stop at *
      omega
  · omega

/-- The end of the segment at a free last block, behind an allocated one. -/
theorem drop (h : TailRoom e (xs ++ [t])) (ht : Tiles a e (xs ++ [t])) (hco : Coalesced (xs ++ [t])) (hf : t.free = true) :
    TailRoom t.addr xs := by
  intro d hd hdf
  refine ⟨(h d (by simp [hd]) hdf).1, ?_⟩
  obtain ⟨hx, -⟩ := ht.middle
  obtain ⟨us, vs, rfl, -, hv⟩ := hx.split hd
  rcases List.eq_nil_or_concat vs with rfl | ⟨ws, w, rfl⟩
  · exact Or.inl (Tiles.nil_iff.mp hv)
  · -- the block in front of the free one is allocated, and behind `d`
    rw [List.concat_eq_append] at *
    have hw : w.free = false := ((Coalesced.free_middle hf).mp hco).2.2.1 w
      (by rw [← List.cons_append, ← List.append_assoc, List.getLast?_append, List.getLast?_singleton]; rfl)
    have hsize := (h w (by simp) hw).1
    obtain ⟨hws, hwt⟩ := hv.middle
    have h1 := hws.le
    have h2 := Tiles.nil_iff.mp hwt
    unfold Block.stop at *
    exact Or.inr (by omega)

end TailRoom

namespace Roomy

theorem of_allocated (ht : TailRoom (s.segmentBegin+s.segmentSize) bs) (hc : WellFormed c bs' l')
    (hend : c.segmentBegin+c.segmentSize = s.segmentBegin+s.segmentSize)
    (hall : ∀ d ∈ bs', d.free = false → d ∈ bs) : Roomy c :=
  ⟨bs', l', hc, hend ▸ ht.of_allocated hall⟩

theorem counters (h : Roomy s) (hc : CountersOnly s c) : Roomy c := by
  obtain ⟨bs, l, hwf, ht⟩ := h
  exact of_allocated ht (hwf.counters hc) (hc.changes (W := fun _ => False)).limit_eq fun _ hd _ => hd

theorem allocate (h : Roomy s) (hn' : n < 2^64) (hfits : AllocateFits s n al) : Roomy ((allocate n al).run s).2 := by
  have hr := h
  obtain ⟨bs, l, hwf, ht⟩ := h
  by_cases hn : n = 0
  · subst hn
    exact hr.counters ⟨_, rfl⟩
  cases ha : normalizeAlignment al with
  | none =>
    obtain ⟨d, hd, hrun, -⟩ := allocate_hang (s := s) hn ha
    rw [hrun]
    exact hr.counters hd
  | some A =>
    cases hfind : l.find? (fun b => fits s.mem n A b.addr) with
    | none =>
      have hthrow := hwf.toSane.throws_allocate (Nat.pos_of_ne_zero hn) ha (by simpa using hfind)
      exact hthrow.preserves fun _ c hc => hr.counters hc.2
    | some b =>
      have hfit := hfits.layoutFits hwf.toSane ha hfind
      obtain ⟨hb, us, vs, rfl, hus⟩ := List.find?_eq_some_iff_append.mp hfind
      have hbl := hwf.linked.listed b (by simp)
      obtain ⟨xs, ys, rfl⟩ := List.append_of_mem hbl.1
      obtain ⟨k, hk, hk', rfl, -⟩ := normalizeAlignment_some ha
      have htotal := (makeLayout_spec hk hk' hfit (Nat.pos_of_ne_zero hn)).total_ge
      have hle := ((hwf.toSane.fits_iff hbl.1).mp hb).2
      have hhead := ((Coalesced.free_middle hbl.2).mp hwf.coalesced).2.2.2
      refine (hwf.toSane.runs_allocate (C := fun _ => True) (Nat.pos_of_ne_zero hn) hn' ha (by simpa using hus) hb hfit
        (fun _ _ => trivial) fun c hch hc _ => ⟨_, _, hwf.hand_out hc, ?_⟩).preserves fun _ _ h => h
      rw [hch.limit_eq]
      refine TailRoom.handedOut (fun d hd => ht d ?_) hwf.linked.tiles.middle.2 hhead (by omega) hle
      simp only [List.mem_append, List.mem_cons] at hd ⊢
      tauto

theorem deallocate (p : ℕ) : (ShmNext.deallocate p).Preserves Roomy := by
  intro s h
  have hr := h
  obtain ⟨bs, l, hwf, ht⟩ := h
  by_cases hp : p = 0
  · subst hp
    rw [deallocate_null]
    exact hr.counters ⟨_, rfl⟩
  by_cases hnames : ∃ b ∈ bs, b.free = false ∧ NamesBlock s.mem p b
  · obtain ⟨b, hb, hf, hnames⟩ := hnames
    refine (hwf.runs_deallocate (C := fun _ => True) hb hf hnames (fun _ _ => trivial) ?_).preserves fun _ _ h => h
    rintro c hch ⟨bs', l', hc, hall⟩
    exact of_allocated ht hc hch.limit_eq fun d hd hdf => ((hall d hdf).mp hd).1
  · simp only [not_exists, not_and] at hnames
    have hthrow := hwf.toSane.throws_deallocate hp hnames
    exact hthrow.preserves fun _ c hc => hr.counters hc.2

/-- The loop of `allocate_many`, with the frees it ends with on an exception. -/
theorem allocateManyLoop {left : ℕ} (h : Roomy s) (hn' : n < 2^64) (hfits : ManyFits n al left s) (out : List ℕ) :
    Roomy ((allocateManyLoop n al left out).run s).2 := by
  induction left generalizing s out with
  | zero => exact h
  | succ left ih =>
    have hc := h.allocate hn' hfits.1
    unfold ShmNext.allocateManyLoop
    rw [run_bind, run_attempt]
    rcases hr : (ShmNext.allocate n al).run s with ⟨p | e | _, c⟩ <;> rw [hr] at hc
    · exact ih hc (hfits.2 c (by unfold afterAllocate; rw [hr]; rfl)) _
    · exact ((preserves_forM deallocate out).bind fun _ => preserves_pure _) c hc
    · exact hc

theorem tryExpand {p : ℕ} (h : Roomy s) (hfits : ExpandFits s p n al) : Roomy ((tryExpand p n al).run s).2 := by
  have hr := h
  obtain ⟨bs, l, hwf, ht⟩ := h
  -- a refusal moves no block
  by_cases hrefused : p = 0 ∨ n = 0 ∨ ∀ b ∈ bs, b.free = false → ¬ NamesBlock s.mem p b
  · have hrun := hwf.toSane.runs_tryExpand_refused (a := al) hrefused
    exact hrun.preserves fun _ c hc => hr.counters hc.2
  simp only [not_or, not_forall, not_not] at hrefused
  obtain ⟨-, hn, b, hb, hf, hnames⟩ := hrefused
  cases ha : normalizeAlignment al with
  | none =>
    obtain ⟨d, hd, hrun, -⟩ := hwf.toSane.tryExpand_hang hb hf hnames (Nat.pos_of_ne_zero hn) ha
    rw [hrun]
    exact hr.counters hd
  | some A =>
    have hvalid := (hwf.toSane.valid_iff.mpr ⟨b, hb, hnames⟩).2
    have hfit := hfits A ha hvalid
    rw [hnames.2.2.1] at hfit
    obtain ⟨xs, ys, rfl⟩ := List.append_of_mem hb
    obtain ⟨k, hk, hk', rfl, -⟩ := normalizeAlignment_some ha
    have htotal := (makeLayout_spec hk hk' hfit (Nat.pos_of_ne_zero hn)).total_ge
    refine (hwf.toSane.runs_tryExpand (C := fun _ => True) hf hnames (Nat.pos_of_ne_zero hn) ha (fun _ _ => trivial)
      (fun _ c hc => hr.counters hc) fun _ hroom d hd => ?_).preserves fun _ _ h => h
    have hwd := hwf.counters hd
    have hend : d.segmentBegin+d.segmentSize = s.segmentBegin+s.segmentSize := (hd.changes (W := fun _ => False)).limit_eq
    -- the block is cut in place, or takes the free one behind it
    rcases expandRoom_cases hroom with hfit | ⟨y, ys, rfl, hy, hlt, hle⟩
    · refine hwd.toSane.runs_expandBlock_fits hb hf hnames.1 hnames.2.1 hfit fun c hc hch => ⟨trivial, ?_⟩
      exact ⟨_, l, ⟨hc, hwf.sorted, hwf.coalesced⟩, by
        rw [show c.segmentBegin+c.segmentSize = _ from (hch.changes (W := fun _ => False)).limit_eq]
        exact hend ▸ ht⟩
    · refine hwd.toSane.runs_expandBlock_grows hf hy hnames.1 hnames.2.1 hlt hle (makeLayout_total_aligned _ _ _)
        (fun _ _ _ => trivial) (fun _ _ _ => trivial) (fun _ _ _ => trivial) fun c hch hc => ?_
      have htail := hwf.linked.tiles.middle.2
      refine ⟨_, _, hwd.of_cut_grown hf hy hc, ?_⟩
      rw [show c.segmentBegin+c.segmentSize = s.segmentBegin+s.segmentSize from hch.limit_eq.trans hend]
      refine TailRoom.handedOut (fun d hd => ht d ?_) ?_ ?_ (by omega) hle
      · simp only [List.mem_append, List.mem_cons] at hd ⊢
        tauto
      · have hadj := htail.1
        have hrest := htail.2.2.2
        unfold Block.stop at *
        dsimp only
        rwa [add_assoc] at hrest
      · have hright := ((Coalesced.allocated_middle hf).mp hwf.coalesced).2
        exact fun z hz => by simpa [hy] using (List.isChain_cons.mp hright).1 z hz

theorem zeroFreeMemory : ShmNext.zeroFreeMemory.Preserves Roomy := by
  rintro s ⟨bs, l, hwf, ht⟩
  refine hwf.toSane.runs_zeroFreeMemory.preserves fun _ c hc => ?_
  exact of_allocated ht ⟨hc.1, hwf.sorted, hwf.coalesced⟩ hc.2.limit_eq fun _ hd _ => hd

theorem grow (h : Roomy s) (hroom : s.segmentBegin+n+48 ≤ 2^64) (hn : n < 2^63) : Roomy ((ShmNext.grow n).run s).2 := by
  have hr := h
  obtain ⟨bs, l, hwf, ht⟩ := h
  refine (hwf.runs_growTo (C := fun _ => True) (Q := fun _ c => Roomy c) hroom hn (fun _ _ _ => trivial) (fun _ => hr)
    ?_).preserves fun _ _ h => h
  rintro hlt hlast c hch ⟨bs', l', hc, hall⟩
  have hend : c.segmentBegin+c.segmentSize = s.segmentBegin+n/16*16 := hch.limit_eq
  refine ⟨bs', l', hc, hend ▸ ?_⟩
  refine (ht.grow hwf.linked.tiles (by omega) fun hfree => ?_).of_allocated fun d hd hdf => (hall d hdf).mp hd
  have := hlast hfree
  omega

theorem shrinkToFit : ShmNext.shrinkToFit.Preserves Roomy := by
  intro s h
  have hr := h
  obtain ⟨bs, l, hwf, ht⟩ := h
  refine (hwf.runs_shrinkTo (C := fun _ => True) (Q := fun _ c => Roomy c) (fun _ _ _ => trivial) hr ?_ ?_).preserves
    fun _ _ h => h
  · rintro xs t rfl - hf c hch hc
    have hend : c.segmentBegin+c.segmentSize = s.segmentBegin+(t.addr-s.segmentBegin) := hch.limit_eq
    have hbegin := (hwf.linked.mem_bounds (b := t) (by simp)).1
    have h1 := hwf.linked.geometry.self_below
    have h2 := hwf.linked.geometry.self_ge
    refine ⟨xs, _, hc, ?_⟩
    rw [hend, show s.segmentBegin+(t.addr-s.segmentBegin) = t.addr from by omega]
    exact ht.drop hwf.linked.tiles hwf.coalesced hf
  · rintro t rfl - - c - hc
    refine ⟨_, _, hc, fun d hd hf => ?_⟩
    rw [List.mem_singleton.mp hd] at hf
    cases hf

/-- Any call that does not resize the segment. -/
theorem exec {lost : ℕ → Prop} {call : Call} (h : Roomy g.alloc) (hinv : HeapInv lost g.alloc g.live bs l)
    (hadm : g.Admissible call) (hexec : g.exec call = some g') (hgrow : ∀ n, call ≠ .grow n)
    (hshrink : call ≠ .shrinkToFit) : Roomy g'.alloc := by
  unfold Heap.exec at hexec
  cases call with
  | allocate n al =>
    have hc := h.allocate hadm.1 hadm.2
    dsimp only at hexec
    split at hexec <;> rename_i hrun <;> rw [hrun] at hc <;> first | (obtain rfl := Option.some.inj hexec; exact hc) | cases hexec
  | allocateMany n k al =>
    have hc : Roomy ((allocateMany n k al).run g.alloc).2 := (h.counters ⟨_, rfl⟩).allocateManyLoop hadm.1 hadm.2 []
    dsimp only at hexec
    split at hexec <;> rename_i hrun
    · rw [hrun] at hc
      obtain rfl := Option.some.inj hexec
      exact hc
    · cases hexec
  | deallocate p =>
    have hc := deallocate p _ h
    dsimp only at hexec
    split at hexec <;> rename_i hrun <;> rw [hrun] at hc <;> first | (obtain rfl := Option.some.inj hexec; exact hc) | cases hexec
  | deallocateMany ps =>
    have hc : Roomy ((deallocateMany ps).run g.alloc).2 := preserves_forM deallocate ps _ (h.counters ⟨_, rfl⟩)
    dsimp only at hexec
    split at hexec <;> rename_i hrun
    · rw [hrun] at hc
      obtain rfl := Option.some.inj hexec
      exact hc
    · cases hexec
  | tryExpand p n al =>
    have hc := h.tryExpand hadm.2
    dsimp only at hexec
    split at hexec <;> rename_i hrun <;> rw [hrun] at hc <;> first | (obtain rfl := Option.some.inj hexec; exact hc) | cases hexec
  | grow n => exact absurd rfl (hgrow n)
  | shrinkToFit => exact absurd rfl hshrink
  | zeroFreeMemory =>
    have hc := zeroFreeMemory _ h
    dsimp only at hexec
    split at hexec
    · cases hexec
    · rename_i hrun
      obtain rfl := Option.some.inj hexec
      rw [hrun] at hc
      exact hc
  | userWrite x v =>
    obtain ⟨a, ha, h1, h2⟩ := hadm
    obtain rfl := Option.some.inj hexec
    obtain ⟨bs', l', hwf, ht⟩ := h
    have hw := (hinv.userWrite ha h1 h2 v).toWellFormed
    exact ⟨bs, l, hw, hwf.toSane.chain_unique hinv.toSane ▸ ht⟩

end Roomy

end ShmNext
