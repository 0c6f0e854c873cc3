import ShmNext.DeallocateSpec

/-! `try_expand` on a well-formed segment: in place when the block has room, into a
free physical successor otherwise, and not at all where neither covers the layout. -/
namespace ShmNext
open Prog

variable {s : Allocator} {b n : Block} {bs l xs ys : List Block} {C : Allocator → Prop} {p size total : ℕ}

/-- The size `try_expand` can give the block `b` with `ys` behind it. -/
def expandRoom (b : Block) (ys : List Block) : ℕ :=
  b.size + match ys with
    | [] => 0
    | n :: _ => if n.free then n.size else 0

theorem le_lowPart_size {b : Block} {used : ℕ} (h : used ≤ b.size) : used ≤ (lowPart b used).size := by
  unfold lowPart
  simp only
  split_ifs <;> omega

theorem expandRoom_cases {b : Block} {ys : List Block} {total : ℕ} (h : total ≤ expandRoom b ys) :
    total ≤ b.size ∨ ∃ n ys', ys = n :: ys' ∧ n.free = true ∧ b.size < total ∧ total ≤ b.size+n.size := by
  by_cases hfit : total ≤ b.size
  · exact Or.inl hfit
  refine Or.inr ?_
  unfold expandRoom at h
  cases ys with
  | nil => simp only at h; omega
  | cons n ys =>
    cases hf : n.free with
    | false => simp only [hf, Bool.false_eq_true, if_false] at h; omega
    | true => exact ⟨n, ys, rfl, hf, by omega, by simpa only [hf, if_true] using h⟩

/-- The same size read off the headers, as `try_expand` does. -/
def roomAt (s : Allocator) (block : ℕ) : ℕ :=
  blockSize s.mem block +
    if physicalNext s block = 0 ∨ blockIsFree s.mem (physicalNext s block) = false then 0
    else blockSize s.mem (physicalNext s block)

theorem Sane.roomAt_eq (h : Sane s (xs ++ b :: ys) l) : roomAt s b.addr = expandRoom b ys := by
  unfold roomAt expandRoom
  rw [(h.linked.headers b (by simp)).1, h.linked.physicalNext_eq]
  cases ys with
  | nil => rw [if_pos (Or.inl headAddr_nil)]
  | cons n ys =>
    have hn : n ∈ xs ++ b :: n :: ys := by simp
    rw [headAddr_cons, (h.linked.headers n hn).1, (h.linked.headers n hn).isFree]
    cases hf : n.free with
    | false => simp [hf]
    | true => simp [hf, Freeing.addr_ne_zero h.linked hn]

/-- The bytes a `try_expand` in `b` writes before it is done: free ones, and the block's size. -/
def InGrowing (bs : List Block) (b : Block) (x : ℕ) : Prop := InFree bs x ∨ (b.addr ≤ x ∧ x < b.addr+8)

/-- The last store of a successful `try_expand`: the new size in the word below `p`. -/
def Allocator.recordSize (s : Allocator) (p size : ℕ) : Allocator := { s with mem := s.mem.store64 (p-8) size }

/-- What a `try_expand` at `p` in `b` has done so far, without or with that last store. -/
def Growing (bs : List Block) (b : Block) (p size : ℕ) (s c : Allocator) : Prop :=
  ChangesOnly (InGrowing bs b) s c ∨ ChangesOnly (InGrowing bs b) (s.recordSize p size) c

/-- `b` is still there, of size `k` at least, and so are all other allocated blocks. -/
def Expanded (bs : List Block) (b : Block) (k : ℕ) (c : Allocator) : Prop :=
  ∃ bs' l' size, WellFormed c bs' l' ∧ k ≤ size ∧
    AllocatedAre bs' fun d => d = ⟨b.addr, size, false⟩ ∨ (d ∈ bs ∧ d ≠ b)

theorem WellFormed.expanded_self (h : WellFormed s bs l) (hbm : b ∈ bs) (hb : b.free = false) {k : ℕ}
    (hk : k ≤ b.size) : Expanded bs b k s := by
  refine ⟨bs, l, b.size, h, hk, fun d _ => ?_⟩
  rw [← hb]
  constructor
  · intro hd
    by_cases heq : d = b
    · exact Or.inl heq
    · exact Or.inr ⟨hd, heq⟩
  · rintro (rfl | ⟨hd, _⟩)
    · exact hbm
    · exact hd

theorem runs_expandFailure {Q : Bool → Allocator → Prop} (h : ∀ c, CountersOnly s c → C c ∧ Q false c) :
    expandFailure.Runs s C Q :=
  runs_count_bind fun c hc => ⟨(h c hc).1, runs_pure (h c hc).2⟩

theorem ChangesOnly.recordSize {W : ℕ → Prop} {c : Allocator} (h : ChangesOnly W s c) :
    ChangesOnly W (s.recordSize p size) (c.recordSize p size) := by
  refine ⟨h.self, h.segmentBase, h.segmentSize, h.firstBlock, fun x hx => ?_⟩
  unfold Allocator.recordSize Mem.store64 Mem.storeLE
  dsimp only
  rw [h.bytes x hx]

/-- The store of the requested size and the success counter. -/
theorem runs_recordSize (h : Sane s bs l) (hbm : b ∈ bs) (hb : b.free = false) (hp : b.addr+48 ≤ p)
    (hp' : p < b.stop) {Q : Bool → Allocator → Prop}
    (hk : ∀ c, Sane c bs l → CountersOnly (s.recordSize p size) c → C c ∧ Q true c) :
    (do
      storeMem fun m => m.store64 (p-8) size
      expandSuccess).Runs s C Q := by
  have hs : Sane (s.recordSize p size) bs l :=
    h.inside (m := s.mem.store64 (p-8) size) hbm hb fun x hx => Mem.store64_of_outside _ (by omega)
  refine runs_store_bind (hk _ hs (.refl _)).1 (runs_count_bind fun c hc => ?_)
  obtain ⟨h1, h2⟩ := hk c (hs.counters hc) hc
  exact ⟨h1, runs_pure h2⟩

namespace Sane

theorem runs_expandBlock_fits (h : Sane s bs l) (hbm : b ∈ bs) (hb : b.free = false) (hp : b.addr+48 ≤ p)
    (hp' : p < b.stop) (ht : total ≤ b.size) {Q : Bool → Allocator → Prop}
    (hk : ∀ c, Sane c bs l → CountersOnly (s.recordSize p size) c → C c ∧ Q true c) :
    (expandBlock p b.addr size total).Runs s C Q := by
  unfold expandBlock
  refine runs_get_bind ?_
  rw [(h.linked.headers b hbm).1, if_pos ht]
  exact runs_recordSize h hbm hb hp hp' hk

theorem runs_expandBlock_fails (h : Sane s (xs ++ b :: ys) l) (ht : expandRoom b ys < total)
    {Q : Bool → Allocator → Prop} (hk : ∀ c, CountersOnly s c → C c ∧ Q false c) :
    (expandBlock p b.addr size total).Runs s C Q := by
  have hroom : b.size ≤ expandRoom b ys := Nat.le_add_right _ _
  unfold expandBlock
  refine runs_get_bind ?_
  rw [(h.linked.headers b (by simp)).1, if_neg (by omega)]
  simp only [h.linked.physicalNext_eq]
  cases ys with
  | nil =>
    rw [if_pos (Or.inl headAddr_nil)]
    exact runs_expandFailure hk
  | cons n ys =>
    have hn : n ∈ xs ++ b :: n :: ys := by simp
    have hnb := h.linked.mem_bounds hn
    have hlt := h.linked.stop_lt hn
    have hbb := h.linked.mem_bounds (b := b) (by simp)
    have hadj : n.addr = b.stop := h.linked.tiles.middle.2.1
    simp only [headAddr_cons, (h.linked.headers n hn).1, (h.linked.headers n hn).isFree]
    cases hf : n.free with
    | false =>
      rw [if_pos (Or.inr rfl)]
      exact runs_expandFailure hk
    | true =>
      have hsum : add64 b.size n.size = b.size+n.size := by unfold add64 Block.stop at *; omega
      simp only [expandRoom, hf, if_true] at ht
      rw [if_neg (by simp [Freeing.addr_ne_zero h.linked hn]), hsum, if_pos ht]
      exact runs_expandFailure hk

theorem runs_expandBlock_grows (h : Sane s (xs ++ b :: n :: ys) l) (hb : b.free = false) (hn : n.free = true)
    (hp : b.addr+48 ≤ p) (hp' : p < b.stop) (ht : b.size < total) (ht' : total ≤ b.size+n.size)
    (h16 : total%16 = 0) {Q : Bool → Allocator → Prop}
    (hbad : ∀ c, ChangesOnly (InGrowing (xs ++ b :: n :: ys) b) s c → checkSanity c = false → C c)
    (hbig : ∀ c, ChangesOnly (InGrowing (xs ++ b :: n :: ys) b) s c →
      Sane c (xs ++ ⟨b.addr, b.size+n.size, false⟩ :: ys) (l.erase n) → C c)
    (hcut : ∀ c, Growing (xs ++ b :: n :: ys) b p size s c →
      Sane c (handedOut xs ⟨b.addr, b.size+n.size, false⟩ total ys)
        (relist ⟨b.addr, b.size+n.size, false⟩ total (l.erase n)) → C c)
    (hQ : ∀ c, ChangesOnly (InGrowing (xs ++ b :: n :: ys) b) (s.recordSize p size) c →
      Sane c (handedOut xs ⟨b.addr, b.size+n.size, false⟩ total ys)
        (relist ⟨b.addr, b.size+n.size, false⟩ total (l.erase n)) → Q true c) :
    (expandBlock p b.addr size total).Runs s C Q := by
  have hbm : b ∈ xs ++ b :: n :: ys := by simp
  have hnm : n ∈ xs ++ b :: n :: ys := by simp
  have hbb := h.linked.mem_bounds hbm
  have hnb := h.linked.mem_bounds hnm
  have hlt := h.linked.stop_lt hnm
  have hadj : n.addr = b.stop := h.linked.tiles.middle.2.1
  have hsum : add64 b.size n.size = b.size+n.size := by unfold add64 Block.stop at *; omega
  unfold expandBlock
  refine runs_get_bind ?_
  rw [(h.linked.headers b hbm).1, if_neg (by omega)]
  simp only [h.linked.physicalNext_eq, headAddr_cons, (h.linked.headers n hnm).1, (h.linked.headers n hnm).isFree, hn, hsum]
  rw [if_neg (by simp [Freeing.addr_ne_zero h.linked hnm]), if_neg (by omega)]
  have hnl : n ∈ l := h.exact n hnm hn
  have hnd := h.linked.nodup
  have hoff : n ∉ l.erase n := fun hm => (hnd.mem_erase_iff.mp hm).1 rfl
  have hbl : b ∉ l := fun hm => by simp [(h.linked.listed b hm).2] at hb
  have hboff : b ∉ l.erase n := fun hm => hbl (List.mem_of_mem_erase hm)
  have hfree : ∀ x, InFree (xs ++ b :: n :: ys) x → InGrowing (xs ++ b :: n :: ys) b x := fun x hx => Or.inl hx
  refine Runs.bind (Q := fun _ c => Linked c (c.segmentBegin+c.segmentSize) (xs ++ b :: n :: ys) (l.erase n) ∧
      ChangesOnly (InGrowing (xs ++ b :: n :: ys) b) s c) ?_ ?_
  · refine h.linked.runs_removeFreeBlock hnl fun c hc hch => ?_
    refine ⟨hbad c (hch.mono hfree) (hc.not_sane hnm hn hoff), ?_, hch.mono hfree⟩
    rw [hch.limit_eq]
    exact hc
  rintro _ c ⟨hc, hch⟩
  -- from the store of the combined size on, the segment is sane with the larger block
  have hjoin := hc.join (m := c.mem.store64 b.addr (b.size+n.size)) hboff hoff
    (fun x hx => Mem.store64_of_outside _ (by unfold Block.stop at *; omega))
    ((hc.headers b hbm).setSize (by unfold Block.stop at *; omega))
  rw [hb] at hjoin
  have hgrown : Sane { c with mem := c.mem.store64 b.addr (b.size+n.size) }
      (xs ++ ⟨b.addr, b.size+n.size, false⟩ :: ys) (l.erase n) := by
    refine ⟨hjoin, ?_⟩
    intro d hd hf
    have hdb : d ≠ ⟨b.addr, b.size+n.size, false⟩ := by rintro rfl; simp at hf
    have hdl : d ∈ xs ++ b :: n :: ys := by simp [hdb] at hd ⊢; tauto
    refine hnd.mem_erase_iff.mpr ⟨?_, h.exact d hdl hf⟩
    rintro rfl
    have hnd' := h.linked.tiles.nodup
    simp only [List.nodup_append, List.nodup_cons, List.mem_cons, not_or] at hnd'
    simp only [List.mem_append, List.mem_cons, hdb, false_or] at hd
    rcases hd with hd | hd
    · exact hnd'.2.2 d hd d (Or.inr (Or.inl rfl)) rfl
    · exact hnd'.2.1.2.1 hd
  have hch' : ChangesOnly (InGrowing (xs ++ b :: n :: ys) b) s
      { c with mem := c.mem.store64 b.addr (b.size+n.size) } := by
    refine hch.trans (.of_mem fun x hx => Mem.store64_of_outside _ ?_)
    by_contra hcon
    exact hx (Or.inr (by omega))
  refine runs_store_bind (hbig _ hch' hgrown) ?_
  have hsplit : ∀ x, InSplit (xs ++ ⟨b.addr, b.size+n.size, false⟩ :: ys) ⟨b.addr, b.size+n.size, false⟩ total x →
      InGrowing (xs ++ b :: n :: ys) b x := by
    rintro x (⟨d, hd, hf, h1, h2⟩ | hx | hx)
    · have hdb : d ≠ ⟨b.addr, b.size+n.size, false⟩ := by rintro rfl; simp at hf
      exact Or.inl ⟨d, by simp [hdb] at hd ⊢; tauto, hf, h1, h2⟩
    · exact Or.inr hx
    · refine Or.inl ⟨n, hnm, hn, ?_, ?_⟩ <;> (unfold Block.stop at *; simp only at hx; omega)
  have hbigoff : (⟨b.addr, b.size+n.size, false⟩ : Block) ∉ l.erase n := fun hm => by
    simpa using (hgrown.linked.listed _ hm).2
  have hrest : ∀ d, Linked d (d.segmentBegin+d.segmentSize) (handedOut xs ⟨b.addr, b.size+n.size, false⟩ total ys)
        (relist ⟨b.addr, b.size+n.size, false⟩ total (l.erase n)) →
      Sane d (handedOut xs ⟨b.addr, b.size+n.size, false⟩ total ys)
        (relist ⟨b.addr, b.size+n.size, false⟩ total (l.erase n)) := by
    refine fun d hd => ⟨hd, fun f hf hff => handedOut_exact (fun f' hf' hff' => hgrown.exact f' ?_ hff') hf hff⟩
    simp only [List.mem_append, List.mem_cons] at hf' ⊢
    tauto
  have hlow := lowPart_bounds (b := ⟨b.addr, b.size+n.size, false⟩) ht'
  have hsize := le_lowPart_size (b := ⟨b.addr, b.size+n.size, false⟩) ht'
  refine Runs.bind (Q := fun _ d => ChangesOnly (InGrowing (xs ++ b :: n :: ys) b) s d ∧
      Sane d (handedOut xs ⟨b.addr, b.size+n.size, false⟩ total ys)
        (relist ⟨b.addr, b.size+n.size, false⟩ total (l.erase n)))
    (hgrown.linked.runs_splitAllocatedBlock hbigoff (by omega) h16 ht' ?_ ?_ ?_) ?_
  · exact fun d hd hchd => hbig d (hch'.trans (hchd.mono hsplit)) ⟨hchd.limit_eq ▸ hd, hgrown.exact⟩
  · exact fun d hd hr hchd => hbad d (hch'.trans (hchd.mono hsplit)) (hd.not_sane (by simp) rfl hr)
  · intro d hd hchd
    have hs := hrest d (hchd.limit_eq ▸ hd)
    have hchd' := hch'.trans (hchd.mono hsplit)
    exact ⟨hcut d (Or.inl hchd') hs, hchd', hs⟩
  rintro _ d ⟨hchd, hd⟩
  refine runs_recordSize hd (b := lowPart ⟨b.addr, b.size+n.size, false⟩ total) (by simp [handedOut]) rfl hp
    (by unfold Block.stop at *; simp only [lowPart_addr]; omega) fun f hf hcf => ?_
  have hchf := hchd.recordSize.trans hcf.changes
  exact ⟨hcut f (Or.inr hchf) hf, hQ f hchf hf⟩

variable {a A : ℕ}

/-- `try_expand` at a pointer whose header names the allocated block `b`. -/
theorem runs_tryExpand (h : Sane s (xs ++ b :: ys) l) (hb : b.free = false) (hp : NamesBlock s.mem p b)
    (hs : 0 < size) (ha : normalizeAlignment a = some A) {Q : Bool → Allocator → Prop}
    (hC : ∀ c, CountersOnly s c → C c)
    (hfail : ¬((makeLayout b.addr size A).payload = p ∧ (makeLayout b.addr size A).totalSize ≤ expandRoom b ys) →
      ∀ c, CountersOnly s c → Q false c)
    (hgrow : (makeLayout b.addr size A).payload = p → (makeLayout b.addr size A).totalSize ≤ expandRoom b ys →
      ∀ d, CountersOnly s d → (expandBlock p b.addr size (makeLayout b.addr size A).totalSize).Runs d C Q) :
    (tryExpand p size a).Runs s C Q := by
  have hbm : b ∈ xs ++ b :: ys := by simp
  unfold tryExpand
  refine runs_count_bind fun d hd => ⟨hC d hd, runs_get_bind ?_⟩
  have hsane := h.counters hd
  obtain ⟨hhas, hvalid⟩ := hsane.valid_iff.mpr ⟨b, hbm, hd.mem_eq ▸ hp⟩
  have hblock : headerBlock d.mem p = b.addr := by rw [hd.mem_eq]; exact hp.2.2.1
  rw [hblock] at hvalid
  have hfail' := fun hno c (hc : CountersOnly d c) => And.intro (hC c (hd.trans hc)) (hfail hno c (hd.trans hc))
  rw [if_neg (by simp only [hhas]; have := hp.1; simp; omega)]
  simp only [hblock, hvalid, (hsane.linked.headers b hbm).isFree, hb, Bool.true_eq_false, Bool.false_eq_true, or_self,
    if_false, ha]
  by_cases hpay : (makeLayout b.addr size A).payload = p
  · rw [if_neg (by simpa using hpay)]
    by_cases hroom : expandRoom b ys < (makeLayout b.addr size A).totalSize
    · exact hsane.runs_expandBlock_fails hroom (hfail' fun hcan => by omega)
    · exact hgrow hpay (by omega) d hd
  · rw [if_pos hpay]
    exact runs_expandFailure (hfail' fun hcan => hpay hcan.1)

/-- Behind the checks, with an alignment that does not normalise. -/
theorem expand_unnormalized {d : Allocator} (hearly : ¬(p = 0 ∨ size = 0 ∨ hasAllocationHeader d p = false))
    (hvalid : ¬(isValidPayload d p (headerBlock d.mem p) = false ∨ blockIsFree d.mem (headerBlock d.mem p) = true))
    (ha : normalizeAlignment a = none) :
    (if p = 0 ∨ size = 0 ∨ hasAllocationHeader d p = false then expandFailure
      else if isValidPayload d p (headerBlock d.mem p) = false ∨ blockIsFree d.mem (headerBlock d.mem p) = true then
        expandFailure
      else match normalizeAlignment a with
        | none => Prog.hang
        | some A => if (makeLayout (headerBlock d.mem p) size A).payload ≠ p then expandFailure
          else expandBlock p (headerBlock d.mem p) size (makeLayout (headerBlock d.mem p) size A).totalSize : Op Bool) =
      Prog.hang := by
  rw [if_neg hearly, if_neg hvalid, ha]

/-- With an alignment that does not normalise, the call counter is the only store. -/
theorem tryExpand_hang (h : Sane s bs l) (hbm : b ∈ bs) (hb : b.free = false) (hp : NamesBlock s.mem p b)
    (hs : 0 < size) (ha : normalizeAlignment a = none) :
    ∃ d, CountersOnly s d ∧ (tryExpand p size a).run s = (.hang, d) ∧ (tryExpand p size a).trace s = [d] := by
  let d : Allocator := { s with counters := { s.counters with tryExpandCalls := add64 s.counters.tryExpandCalls 1 } }
  have hcd : CountersOnly s d := ⟨_, rfl⟩
  have hsane := h.counters hcd
  obtain ⟨hhas, hvalid⟩ := hsane.valid_iff.mpr ⟨b, hbm, hcd.mem_eq ▸ hp⟩
  have hblock : headerBlock d.mem p = b.addr := by rw [hcd.mem_eq]; exact hp.2.2.1
  rw [hblock] at hvalid
  have hfree := (hsane.linked.headers b hbm).isFree
  have hearly : ¬(p = 0 ∨ size = 0 ∨ hasAllocationHeader d p = false) := by
    simp only [hhas]
    have := hp.1
    simp
    omega
  have hchecked : ¬(isValidPayload d p (headerBlock d.mem p) = false ∨ blockIsFree d.mem (headerBlock d.mem p) = true) := by
    simp [hblock, hvalid, hfree, hb]
  have hhang := expand_unnormalized hearly hchecked ha
  refine ⟨d, hcd, ?_, ?_⟩
  · exact congrArg (fun p : Op Bool => p.run d) hhang
  · exact congrArg (fun p : Op Bool => d :: p.trace d) hhang

/-- Null, a zero size, and a pointer whose header names no allocated block. -/
theorem runs_tryExpand_refused (h : Sane s bs l) {a : ℕ} (hno : p = 0 ∨ size = 0 ∨
    ∀ b ∈ bs, b.free = false → ¬ NamesBlock s.mem p b) : (tryExpand p size a).Runs s (CountersOnly s)
      (fun r c => r = false ∧ CountersOnly s c) := by
  unfold tryExpand
  refine runs_count_bind fun d hd => ⟨hd, runs_get_bind ?_⟩
  have hs := h.counters hd
  have hfail : expandFailure.Runs d (CountersOnly s) (fun r c => r = false ∧ CountersOnly s c) :=
    runs_expandFailure fun c hc => ⟨hd.trans hc, rfl, hd.trans hc⟩
  by_cases hearly : p = 0 ∨ size = 0 ∨ hasAllocationHeader d p = false
  · rw [if_pos hearly]
    exact hfail
  rw [if_neg hearly]
  simp only [not_or, Bool.not_eq_false] at hearly
  obtain ⟨hp0, hs0, hhas⟩ := hearly
  have hnone := (hno.resolve_left hp0).resolve_left hs0
  rw [if_pos]
  · exact hfail
  · by_contra hcon
    simp only [not_or, Bool.not_eq_false, Bool.not_eq_true] at hcon
    obtain ⟨b, hb, hnames⟩ := hs.valid_iff.mp ⟨hhas, hcon.1⟩
    refine hnone b hb ?_ (hd.mem_eq ▸ hnames)
    rw [← (hs.linked.headers b hb).isFree, ← hnames.2.2.1]
    exact hcon.2

end Sane

namespace WellFormed

theorem inside (h : WellFormed s bs l) (hb : b ∈ bs) (hf : b.free = false) {m : Mem}
    (hm : ∀ x, x < b.addr+9 ∨ b.stop ≤ x → m x = s.mem x) : WellFormed { s with mem := m } bs l :=
  ⟨h.toSane.inside hb hf hm, h.sorted, h.coalesced⟩

/-- Growing `b` over its free successor, with whatever was cut off of it again. -/
theorem expanded_of_grown (h : WellFormed s (xs ++ b :: n :: ys) l) (hn : n.free = true) {c : Allocator}
    {k k' : ℕ} {rs l' : List Block} (hr : ∀ r ∈ rs, r.free = true) (hk : k' ≤ k)
    (hc : WellFormed c (xs ++ ⟨b.addr, k, false⟩ :: (rs ++ ys)) l') : Expanded (xs ++ b :: n :: ys) b k' c := by
  have hnd := h.linked.tiles.nodup
  rw [List.nodup_middle, List.nodup_cons] at hnd
  refine ⟨_, l', k, hc, hk, fun d hd => ?_⟩
  have hdn : d ≠ n := by rintro rfl; simp [hn] at hd
  have hdr : d ∉ rs := fun hm => by simp [hr d hm] at hd
  simp only [List.mem_append, List.mem_cons, hdn, hdr, false_or] at hnd ⊢
  constructor
  · rintro (hm | hm | hm)
    · exact Or.inr ⟨Or.inl hm, fun heq => hnd.1 (Or.inl (heq ▸ hm))⟩
    · exact Or.inl hm
    · exact Or.inr ⟨Or.inr (Or.inr hm), fun heq => hnd.1 (Or.inr (Or.inr (heq ▸ hm)))⟩
  · rintro (hm | ⟨hm | hm | hm, hne⟩)
    · exact Or.inr (Or.inl hm)
    · exact Or.inl hm
    · exact absurd hm hne
    · exact Or.inr (Or.inr hm)

/-- The grown block, cut at `total`, in a sane segment: the neighbour behind `n` is allocated, so
the rest that is cut off has no free neighbour. -/
theorem of_cut_grown (h : WellFormed s (xs ++ b :: n :: ys) l) (hb : b.free = false) (hn : n.free = true) {c : Allocator}
    (hc : Sane c (handedOut xs ⟨b.addr, b.size+n.size, false⟩ total ys)
      (relist ⟨b.addr, b.size+n.size, false⟩ total (l.erase n))) :
    WellFormed c (handedOut xs ⟨b.addr, b.size+n.size, false⟩ total ys)
      (relist ⟨b.addr, b.size+n.size, false⟩ total (l.erase n)) := by
  obtain ⟨hleft, hright⟩ := (Coalesced.allocated_middle hb).mp h.coalesced
  refine wellFormed_handedOut hc.linked (fun f hf hff => ?_) (h.sorted.sublist List.erase_sublist) hleft
    (List.isChain_cons.mp hright).2 fun y hy => ?_
  · refine h.linked.nodup.mem_erase_iff.mpr ⟨?_, h.exact f ?_ hff⟩
    · rintro rfl
      have hnd := h.linked.tiles.nodup
      simp only [List.nodup_append, List.nodup_cons, List.mem_cons, not_or] at hnd
      rcases List.mem_append.mp hf with hf | hf
      · exact hnd.2.2 f hf f (Or.inr (Or.inl rfl)) rfl
      · exact hnd.2.1.2.1 hf
    · rcases List.mem_append.mp hf with hf | hf <;> simp [hf]
  · simpa [hn] using (List.isChain_cons.mp hright).1 y hy

/-- The same on a well-formed segment, with every state on the way well formed or not sane. -/
theorem runs_expandBlock (h : WellFormed s (xs ++ b :: ys) l) (hb : b.free = false) (hp : b.addr+48 ≤ p) (hp' : p < b.stop)
    (h16 : total%16 = 0) (hroom : total ≤ expandRoom b ys) {Q : Bool → Allocator → Prop}
    (hC : ∀ c, Growing (xs ++ b :: ys) b p size s c →
      (checkSanity c = true → Expanded (xs ++ b :: ys) b b.size c) → C c)
    (hQ : ∀ c, ChangesOnly (InGrowing (xs ++ b :: ys) b) (s.recordSize p size) c →
      Expanded (xs ++ b :: ys) b (max b.size total) c → Q true c) :
    (expandBlock p b.addr size total).Runs s C Q := by
  rcases expandRoom_cases hroom with hfit | ⟨n, ys, rfl, hn, ht, ht'⟩
  · refine h.toSane.runs_expandBlock_fits (by simp) hb hp hp' hfit fun c hc hch => ?_
    have hwf : WellFormed c (xs ++ b :: ys) l := ⟨hc, h.sorted, h.coalesced⟩
    exact ⟨hC c (Or.inr hch.changes) fun _ => hwf.expanded_self (by simp) hb le_rfl,
      hQ c hch.changes (hwf.expanded_self (by simp) hb (max_le le_rfl hfit))⟩
  obtain ⟨hleft, hright⟩ := (Coalesced.allocated_middle hb).mp h.coalesced
  have hsorted : (l.erase n).Pairwise Block.SizeAddrLt := h.sorted.sublist List.erase_sublist
  have hbig : ∀ c, Sane c (xs ++ ⟨b.addr, b.size+n.size, false⟩ :: ys) (l.erase n) →
      Expanded (xs ++ b :: n :: ys) b b.size c := fun c hc =>
    @expanded_of_grown _ _ _ _ _ _ h hn _ _ _ [] _ (by simp) (Nat.le_add_right _ _)
      ⟨hc, hsorted, (Coalesced.allocated_middle rfl).mpr ⟨hleft, (List.isChain_cons.mp hright).2⟩⟩
  have hsize := le_lowPart_size (b := ⟨b.addr, b.size+n.size, false⟩) ht'
  have hcut : ∀ c, Sane c (handedOut xs ⟨b.addr, b.size+n.size, false⟩ total ys)
        (relist ⟨b.addr, b.size+n.size, false⟩ total (l.erase n)) →
      ∀ k ≤ total, Expanded (xs ++ b :: n :: ys) b k c := by
    intro c hc k hk
    exact h.expanded_of_grown hn (fun r hr => by rw [(mem_restPart.mp hr).2]) (hk.trans hsize) (h.of_cut_grown hb hn hc)
  refine h.toSane.runs_expandBlock_grows hb hn hp hp' ht ht' h16 (fun c hch hs => ?_) (fun c hch hc => ?_)
    (fun c hch hc => ?_) fun c hch hc => ?_
  · exact hC c (Or.inl hch) fun hs' => by rw [hs] at hs'; cases hs'
  · exact hC c (Or.inl hch) fun _ => hbig c hc
  · exact hC c hch fun _ => hcut c hc _ ht.le
  · rw [max_eq_right ht.le] at hQ
    exact hQ c hch (hcut c hc _ le_rfl)

/-- `try_expand` at a pointer whose header names the allocated block `b`. -/
theorem runs_tryExpand (h : WellFormed s (xs ++ b :: ys) l) (hb : b.free = false) (hp : NamesBlock s.mem p b)
    (hs : 0 < size) (ha : normalizeAlignment a = some A) {Q : Bool → Allocator → Prop}
    (hC : ∀ c, CountersOnly s c → C c)
    (hfail : ¬((makeLayout b.addr size A).payload = p ∧ (makeLayout b.addr size A).totalSize ≤ expandRoom b ys) →
      ∀ c, CountersOnly s c → Q false c)
    (hgrow : (makeLayout b.addr size A).payload = p → (makeLayout b.addr size A).totalSize ≤ expandRoom b ys →
      (∀ c, Growing (xs ++ b :: ys) b p size s c → (checkSanity c = true → Expanded (xs ++ b :: ys) b b.size c) → C c) ∧
      ∀ c, ChangesOnly (InGrowing (xs ++ b :: ys) b) (s.recordSize p size) c →
        Expanded (xs ++ b :: ys) b (max b.size (makeLayout b.addr size A).totalSize) c → Q true c) :
    (tryExpand p size a).Runs s C Q := by
  refine h.toSane.runs_tryExpand hb hp hs ha hC hfail fun hpay hroom d hd => ?_
  obtain ⟨hC', hQ'⟩ := hgrow hpay hroom
  have hrec : ∀ c, ChangesOnly (InGrowing (xs ++ b :: ys) b) (d.recordSize p size) c →
      ChangesOnly (InGrowing (xs ++ b :: ys) b) (s.recordSize p size) c := fun c hc => hd.changes.recordSize.trans hc
  exact (h.counters hd).runs_expandBlock hb hp.1 hp.2.1 (makeLayout_total_aligned _ _ _) hroom
    (fun c hc hsane => hC' c (hc.imp hd.changes.trans (hrec c)) hsane) fun c hc hexp => hQ' c (hrec c hc) hexp

end WellFormed

end ShmNext
