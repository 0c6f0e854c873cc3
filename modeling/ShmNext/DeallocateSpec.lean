import ShmNext.AllocateSpec

/-! `deallocate` on a well-formed segment: the freed block stays off the list, and the
segment recognisably damaged, until it has been merged with its free neighbours. -/
namespace ShmNext
open Prog

variable {s : Allocator} {b n : Block} {bs l xs ys : List Block} {W : ℕ → Prop} {C : Allocator → Prop}

/-- The middle of a `deallocate`: `b` is free but not on the list, everything else is in order. -/
structure Freeing (s : Allocator) (xs : List Block) (b : Block) (ys l : List Block) : Prop where
  linked : Linked s (s.segmentBegin+s.segmentSize) (xs ++ b :: ys) l
  free : b.free = true
  off : b ∉ l
  exact : ∀ c ∈ xs ++ ys, c.free = true → c ∈ l
  sorted : l.Pairwise Block.SizeAddrLt
  left : Coalesced xs
  right : Coalesced ys

/-- `b'` has absorbed free neighbours of `b`: no new free bytes, the same allocated blocks. -/
structure Absorbs (xs : List Block) (b : Block) (ys xs' : List Block) (b' : Block) (ys' : List Block) : Prop where
  area : ∀ x, InFree (xs' ++ b' :: ys') x → InFree (xs ++ b :: ys) x
  allocated : ∀ c : Block, c.free = false → (c ∈ xs' ++ ys' ↔ c ∈ xs ++ ys)

theorem Absorbs.refl : Absorbs xs b ys xs b ys := ⟨fun _ h => h, fun _ _ => Iff.rfl⟩

theorem Absorbs.trans {xs' xs'' ys' ys'' : List Block} {b' b'' : Block} (h : Absorbs xs b ys xs' b' ys')
    (h' : Absorbs xs' b' ys' xs'' b'' ys'') : Absorbs xs b ys xs'' b'' ys'' :=
  ⟨fun x hx => h.area x (h'.area x hx), fun c hc => (h'.allocated c hc).trans (h.allocated c hc)⟩

theorem Absorbs.next (hb : b.free = true) (hn : n.free = true) (hadj : n.addr = b.stop) :
    Absorbs xs b (n :: ys) xs ⟨b.addr, b.size+n.size, true⟩ ys := by
  refine ⟨?_, ?_⟩
  · rintro x ⟨c, hc, hf, h1, h2⟩
    simp only [List.mem_append, List.mem_cons] at hc
    rcases hc with hc | rfl | hc
    · exact ⟨c, by simp [hc], hf, h1, h2⟩
    · by_cases hx : x < b.stop
      · exact ⟨b, by simp, hb, h1, hx⟩
      · refine ⟨n, by simp, hn, by omega, ?_⟩
        unfold Block.stop at *
        simp only at h2
        omega
    · exact ⟨c, by simp [hc], hf, h1, h2⟩
  · intro c hc
    have hne : c ≠ n := by rintro rfl; simp [hn] at hc
    simp [hne]

theorem Absorbs.previous (hn : n.free = true) (hb : b.free = true) (hadj : b.addr = n.stop) :
    Absorbs (xs ++ [n]) b ys xs ⟨n.addr, n.size+b.size, true⟩ ys := by
  refine ⟨fun x hx => ?_, ?_⟩
  · simpa using (@Absorbs.next _ _ xs ys hn hb hadj).area x hx
  · intro c hc
    have hne : c ≠ n := by rintro rfl; simp [hn] at hc
    simp [hne]

namespace Freeing

theorem counters {d : Allocator} (h : Freeing s xs b ys l) (hd : CountersOnly s d) : Freeing d xs b ys l :=
  ⟨(hd.changes (W := fun _ => False)).limit_eq ▸ h.linked.counters hd, h.free, h.off, h.exact, h.sorted, h.left,
    h.right⟩

theorem insane (h : Freeing s xs b ys l) : checkSanity s = false :=
  h.linked.not_sane (b := b) (by simp) h.free h.off

theorem inFree (h : Freeing s xs b ys l) {x : ℕ} (h1 : b.addr ≤ x) (h2 : x < b.stop) :
    InFree (xs ++ b :: ys) x := ⟨b, by simp, h.free, h1, h2⟩

/-- The link of the block being freed does not matter. -/
theorem link {m : Mem} (h : Freeing s xs b ys l) (hm : ∀ x, x < b.addr+16 ∨ b.addr+24 ≤ x → m x = s.mem x) :
    Freeing { s with mem := m } xs b ys l :=
  ⟨h.linked.link_off_list (by simp) h.off hm, h.free, h.off, h.exact, h.sorted, h.left, h.right⟩

/-- Joining two neighbours, the one on the list having been taken off it. -/
theorem join {d : Allocator} {us vs : List Block} {p q : Block} (hd : Linked d (d.segmentBegin+d.segmentSize)
    (us ++ p :: q :: vs) l) (hp : p.free = true) (hpl : p ∉ l) (hql : q ∉ l)
    (hex : ∀ c ∈ us ++ vs, c.free = true → c ∈ l) (hs : l.Pairwise Block.SizeAddrLt) (hu : Coalesced us)
    (hv : Coalesced vs) :
    let d' : Allocator := { d with mem := d.mem.store64 p.addr (add64 (blockSize d.mem p.addr) (blockSize d.mem q.addr)) }
    Freeing d' us ⟨p.addr, p.size+q.size, true⟩ vs l ∧
      ∀ W : ℕ → Prop, (∀ x, p.addr ≤ x → x < p.stop → W x) → ChangesOnly W d d' := by
  have hpb := hd.mem_bounds (b := p) (by simp)
  have hqb := hd.mem_bounds (b := q) (by simp)
  have hlt := hd.stop_lt (b := q) (by simp)
  have hadj : q.addr = p.stop := hd.tiles.middle.2.1
  have hsum : add64 (blockSize d.mem p.addr) (blockSize d.mem q.addr) = p.size+q.size := by
    rw [(hd.headers p (by simp)).1, (hd.headers q (by simp)).1]
    unfold add64 Block.stop at *
    omega
  simp only [hsum]
  have hjoin := hd.join (m := d.mem.store64 p.addr (p.size+q.size)) hpl hql
    (fun x hx => Mem.store64_of_outside _ (by unfold Block.stop at *; omega))
    ((hd.headers p (by simp)).setSize (by unfold Block.stop at *; omega))
  rw [hp] at hjoin
  refine ⟨⟨hjoin, rfl, fun hm => ?_, hex, hs, hu, hv⟩, fun W hW => .of_mem fun x hx => Mem.store64_of_outside _ ?_⟩
  · exact hpl ((hd.addr_inj (hd.listed _ hm).1 (show p ∈ us ++ p :: q :: vs by simp) rfl) ▸ hm)
  · by_contra hcon
    exact hx (hW x (by omega) (by unfold Block.stop; omega))

/-- The stores both merges make: the listed one of two free neighbours leaves the list,
then the lower one takes both sizes. -/
theorem runs_absorb {α : Type} {us vs : List Block} {p q v : Block} {k : Op α} {Q : α → Allocator → Prop}
    (h : Linked s (s.segmentBegin+s.segmentSize) (us ++ p :: q :: vs) l) (hp : p.free = true) (hq : q.free = true)
    (hv : v ∈ l) (hpq : v = p ∧ q ∉ l ∨ v = q ∧ p ∉ l) (hex : ∀ c ∈ us ++ vs, c.free = true → c ∈ l)
    (hs : l.Pairwise Block.SizeAddrLt) (hu : Coalesced us) (hvs : Coalesced vs)
    (hC : ∀ c, ChangesOnly (InFree (us ++ p :: q :: vs)) s c → checkSanity c = false → C c)
    (hk : ∀ c, ChangesOnly (InFree (us ++ p :: q :: vs)) s c →
      Freeing c us ⟨p.addr, p.size+q.size, true⟩ vs (l.erase v) → k.Runs c C Q) :
    (do
      removeFreeBlock v.addr
      let s ← Prog.get
      setSize p.addr (add64 (blockSize s.mem p.addr) (blockSize s.mem q.addr))
      k).Runs s C Q := by
  have hnd := h.nodup
  have hvl : v ∉ l.erase v := fun hm => (hnd.mem_erase_iff.mp hm).1 rfl
  -- one of the two was on the list and has left it, the other has not been listed yet
  have hoff : p ∉ l.erase v ∧ q ∉ l.erase v := by
    rcases hpq with ⟨rfl, hql⟩ | ⟨rfl, hpl⟩
    · exact ⟨hvl, fun hm => hql (List.mem_of_mem_erase hm)⟩
    · exact ⟨fun hm => hpl (List.mem_of_mem_erase hm), hvl⟩
  have hvm := h.listed v hv
  refine Runs.bind (Q := fun _ c => Linked c (c.segmentBegin+c.segmentSize) (us ++ p :: q :: vs) (l.erase v) ∧
      ChangesOnly (InFree (us ++ p :: q :: vs)) s c) ?_ ?_
  · refine h.runs_removeFreeBlock hv fun c hc hch => ?_
    refine ⟨hC c hch (hc.not_sane hvm.1 hvm.2 hvl), ?_, hch⟩
    rw [hch.limit_eq]
    exact hc
  rintro _ c ⟨hc, hch⟩
  refine runs_get_bind ?_
  have hex' : ∀ d ∈ us ++ vs, d.free = true → d ∈ l.erase v := by
    intro d hd hdf
    refine hnd.mem_erase_iff.mpr ⟨?_, hex d hd hdf⟩
    rintro rfl
    have hnd' := h.tiles.nodup
    simp only [List.nodup_append, List.nodup_cons, List.mem_cons, not_or] at hnd'
    rcases List.mem_append.mp hd with hd | hd
    · rcases hpq with ⟨rfl, _⟩ | ⟨rfl, _⟩
      · exact hnd'.2.2 d hd d (Or.inl rfl) rfl
      · exact hnd'.2.2 d hd d (Or.inr (Or.inl rfl)) rfl
    · rcases hpq with ⟨rfl, _⟩ | ⟨rfl, _⟩
      · exact hnd'.2.1.1.2 hd
      · exact hnd'.2.1.2.1 hd
  -- one store joins them; the block they are now is free and not on the list
  obtain ⟨hfree, hch'⟩ := Freeing.join hc hp hoff.1 hoff.2 hex' (hs.sublist List.erase_sublist) hu hvs
  have hch'' := hch.trans (hch' _ fun x h1 h2 => ⟨p, by simp, hp, h1, h2⟩)
  exact runs_store_bind (hC _ hch'' hfree.insane) (hk _ hch'' hfree)

theorem addr_ne_zero (h : Linked s (s.segmentBegin+s.segmentSize) bs l) (hb : b ∈ bs) : b.addr ≠ 0 := by
  have := (h.mem_bounds hb).1
  have := h.first_pos
  omega

theorem runs_mergeNext (h : Freeing s xs b ys l) {Q : Unit → Allocator → Prop}
    (hC : ∀ c, ChangesOnly (InFree (xs ++ b :: ys)) s c → checkSanity c = false → C c)
    (hQ : ∀ c b' ys' l', ChangesOnly (InFree (xs ++ b :: ys)) s c → Freeing c xs b' ys' l' →
      b'.addr = b.addr → Absorbs xs b ys xs b' ys' → (∀ y ∈ ys'.head?, y.free = false) → Q () c) :
    (mergeNext b.addr).Runs s C Q := by
  unfold mergeNext
  refine runs_get_bind ?_
  simp only [h.linked.physicalNext_eq]
  cases ys with
  | nil =>
    rw [if_neg (by simp [headAddr])]
    exact runs_pure (hQ s b [] l (.refl s) h rfl .refl (by simp))
  | cons n ys =>
    have hn : n ∈ xs ++ b :: n :: ys := by simp
    simp only [show headAddr (n :: ys) = n.addr from rfl, (h.linked.headers n hn).isFree]
    cases hf : n.free with
    | false =>
      rw [if_neg (by simp)]
      exact runs_pure (hQ s b (n :: ys) l (.refl s) h rfl .refl (by simp [hf]))
    | true =>
      rw [if_pos ⟨addr_ne_zero h.linked hn, rfl⟩]
      refine runs_absorb h.linked h.free hf (h.exact n (by simp) hf) (Or.inr ⟨rfl, h.off⟩)
        (fun c hc => h.exact c (by simp at hc ⊢; tauto)) h.sorted h.left (List.isChain_cons.mp h.right).2 hC ?_
      refine fun c hch hfree => runs_count fun d hd => ?_
      have hch' := hch.trans hd.changes
      have hfd := hfree.counters hd
      refine ⟨hC d hch' hfd.insane, hQ d _ ys _ hch' hfd rfl (.next h.free hf h.linked.tiles.middle.2.1) ?_⟩
      intro y hy
      simpa [hf] using (List.isChain_cons.mp h.right).1 y hy

theorem runs_mergePrevious (h : Freeing s xs b ys l) {Q : ℕ → Allocator → Prop}
    (hC : ∀ c, ChangesOnly (InFree (xs ++ b :: ys)) s c → checkSanity c = false → C c)
    (hQ : ∀ c xs' b' l', ChangesOnly (InFree (xs ++ b :: ys)) s c → Freeing c xs' b' ys l' →
      Absorbs xs b ys xs' b' ys → (∀ x ∈ xs'.getLast?, x.free = false) → Q b'.addr c) :
    (mergePrevious b.addr).Runs s C Q := by
  have hb := h.linked.mem_bounds (b := b) (by simp)
  obtain ⟨hx, hy⟩ := h.linked.tiles.middle
  have hprev := h.linked.physicalPrevious_eq (p := b.addr) hx ⟨rfl, hb.2.2.1, hb.2.2.2.1, hy⟩
  unfold mergePrevious
  refine runs_get_bind ?_
  simp only [hprev]
  rcases List.eq_nil_or_concat xs with rfl | ⟨us, p, rfl⟩
  · rw [if_neg (by simp)]
    exact runs_pure (hQ s [] b l (.refl s) h .refl (by simp))
  rw [List.concat_eq_append] at h hC hQ hx ⊢
  have hp : p ∈ us ++ [p] ++ b :: ys := by simp
  simp only [lastAddr_append, (h.linked.headers p hp).isFree]
  cases hf : p.free with
  | false =>
    rw [if_neg (by simp)]
    exact runs_pure (hQ s (us ++ [p]) b l (.refl s) h .refl (by simp [hf]))
  | true =>
    have hlist : us ++ [p] ++ b :: ys = us ++ p :: b :: ys := by simp
    have hleft := h.left
    obtain ⟨hus, -, hlast⟩ := Coalesced.append_iff.mp h.left
    rw [if_pos ⟨addr_ne_zero h.linked hp, rfl⟩]
    have hlinked := h.linked
    rw [hlist] at hlinked hC hQ
    refine runs_absorb hlinked hf h.free (h.exact p (by simp) hf) (Or.inl ⟨rfl, h.off⟩)
      (fun c hc => h.exact c (by simp at hc ⊢; tauto)) h.sorted hus h.right hC ?_
    refine fun c hch hfree => runs_count_bind fun d hd => ?_
    have hch' := hch.trans hd.changes
    have hfd := hfree.counters hd
    refine ⟨hC d hch' hfd.insane, runs_pure (hQ d us ⟨p.addr, p.size+b.size, true⟩ _ hch' hfd
      (Absorbs.previous hf h.free hlinked.tiles.middle.2.1 |> fun ha => ⟨fun x hx => by simpa using ha.area x hx, ha.allocated⟩) ?_)⟩
    intro x hx
    simpa [hf] using hlast x hx p rfl

/-- The last three stores of `deallocate_block`: the merged block goes on the list. -/
theorem runs_relist (h : Freeing s xs b ys l) (hx : ∀ x ∈ xs.getLast?, x.free = false)
    (hy : ∀ y ∈ ys.head?, y.free = false) {Q : Unit → Allocator → Prop}
    (hC : ∀ c, ChangesOnly (InFree (xs ++ b :: ys)) s c →
      (checkSanity c = true → WellFormed c (xs ++ b :: ys) (insertBySize b l)) → C c)
    (hQ : ∀ c, ChangesOnly (InFree (xs ++ b :: ys)) s c → WellFormed c (xs ++ b :: ys) (insertBySize b l) → Q () c) :
    (do
      setIsFree b.addr true
      setNextFree b.addr 0
      insertFreeBlock b.addr).Runs s C Q := by
  have hb : b ∈ xs ++ b :: ys := by simp
  have hbb := h.linked.mem_bounds hb
  -- as long as the block is free and off the list `check_sanity` says no
  have hbad : ∀ {c : Allocator}, Linked c (s.segmentBegin+s.segmentSize) (xs ++ b :: ys) l →
      ChangesOnly (InFree (xs ++ b :: ys)) s c → C c := fun hc hch =>
    hC _ hch fun hs => by rw [hc.not_sane hb h.free h.off] at hs; cases hs
  have h1 := @Linked.rewrite _ _ _ ⟨b.addr, b.size, true⟩ _ _ _ (s.mem.store8 (b.addr+8) true.toNat) h.linked h.off rfl rfl
    (fun x hx => Mem.store8_of_ne _ (by unfold Block.stop at *; omega)) ((h.linked.headers b hb).setIsFree true)
  rw [show (⟨b.addr, b.size, true⟩ : Block) = b from by rw [← h.free]] at h1
  have hch1 : ChangesOnly (InFree (xs ++ b :: ys)) s { s with mem := s.mem.store8 (b.addr+8) true.toNat } := by
    refine .of_mem fun x hx => Mem.store8_of_ne _ ?_
    rintro rfl
    exact hx (h.inFree (by omega) (by unfold Block.stop; omega))
  refine runs_store_bind (hbad h1 hch1) ?_
  refine Runs.bind (Q := fun _ c => Linked c (s.segmentBegin+s.segmentSize) (xs ++ b :: ys) l ∧
      ChangesOnly (InFree (xs ++ b :: ys)) s c) ?_ ?_
  · refine runs_setNextFree h1.geometry (h1.inArea hb) (Or.inl rfl) fun m _ hm => ?_
    have h2 := h1.link_off_list hb h.off hm
    have hch2 := hch1.trans (.of_mem (h1.inFree_of_link hb h.free hm))
    exact ⟨hbad h2 hch2, h2, hch2⟩
  rintro _ c ⟨hc, hch⟩
  refine hc.runs_insertFreeBlock hb h.free h.off (fun d hd hchd => hbad hd (hch.trans hchd)) fun d hd hchd => ?_
  have hch' := hch.trans hchd
  have hne : ∀ c ∈ l, c.addr ≠ b.addr := fun c hcl heq =>
    h.off (h.linked.addr_inj (h.linked.listed c hcl).1 hb heq ▸ hcl)
  -- the neighbours are allocated, so that no two free blocks meet
  have hwf : WellFormed d (xs ++ b :: ys) (insertBySize b l) := by
    refine ⟨⟨hch'.limit_eq ▸ hd, ?_⟩, insertBySize_sorted h.sorted hne,
      (Coalesced.free_middle h.free).mpr ⟨h.left, h.right, hx, hy⟩⟩
    intro c hc hf
    rw [mem_insertBySize]
    rcases List.mem_append.mp hc with hc | hc
    · exact Or.inr (h.exact c (by simp [hc]) hf)
    · rcases List.mem_cons.mp hc with rfl | hc
      · exact Or.inl rfl
      · exact Or.inr (h.exact c (by simp [hc]) hf)
  exact ⟨hC d hch' fun _ => hwf, hQ d hch' hwf⟩

end Freeing

/-- The allocated blocks are the given ones. -/
def AllocatedAre (bs : List Block) (P : Block → Prop) : Prop :=
  ∀ b : Block, b.free = false → (b ∈ bs ↔ P b)

/-- The bytes a `deallocate` of `b` may write: those of `b` and of the free blocks. -/
def InFreed (bs : List Block) (b : Block) (x : ℕ) : Prop :=
  InFree bs x ∨ (b.addr ≤ x ∧ x < b.stop)

/-- What is left when `b` has been freed. -/
def Freed (bs : List Block) (b : Block) (c : Allocator) : Prop :=
  ∃ bs' l', WellFormed c bs' l' ∧ AllocatedAre bs' fun d => d ∈ bs ∧ d ≠ b

namespace WellFormed

/-- The first store of `deallocate_block`. -/
theorem freeing_mark (h : WellFormed s (xs ++ b :: ys) l) (hb : b.free = false) :
    Freeing { s with mem := s.mem.store8 (b.addr+8) true.toNat } xs ⟨b.addr, b.size, true⟩ ys l := by
  have hm : b ∈ xs ++ b :: ys := by simp
  have hbb := h.linked.mem_bounds hm
  have hoff : b ∉ l := fun hl => by simp [(h.linked.listed b hl).2] at hb
  obtain ⟨hleft, hright⟩ := (Coalesced.allocated_middle hb).mp h.coalesced
  refine ⟨h.linked.rewrite hoff rfl rfl (fun x hx => Mem.store8_of_ne _ (by unfold Block.stop at *; omega))
    ((h.linked.headers b hm).setIsFree true), rfl, fun hl => ?_, ?_, h.sorted, hleft, hright⟩
  · exact hoff (h.linked.addr_inj (h.linked.listed _ hl).1 hm rfl ▸ hl)
  · exact fun c hc hf => h.exact c (by simp at hc ⊢; tauto) hf

/-- `deallocate_block`: no state between the first store and the last is sane. -/
theorem runs_deallocateBlock (h : WellFormed s (xs ++ b :: ys) l) (hb : b.free = false)
    {Q : Unit → Allocator → Prop}
    (hC : ∀ c, Guarded (InFreed (xs ++ b :: ys) b) (Freed (xs ++ b :: ys) b) s c → C c)
    (hQ : ∀ c, ChangesOnly (InFreed (xs ++ b :: ys) b) s c → Freed (xs ++ b :: ys) b c → Q () c) :
    (deallocateBlock b.addr).Runs s C Q := by
  have hm : b ∈ xs ++ b :: ys := by simp
  have hbb := h.linked.mem_bounds hm
  have hnd := h.linked.tiles.nodup
  rw [List.nodup_middle, List.nodup_cons] at hnd
  have harea : ∀ x, InFree (xs ++ ⟨b.addr, b.size, true⟩ :: ys) x → InFreed (xs ++ b :: ys) b x := by
    rintro x ⟨c, hc, hf, h1, h2⟩
    simp only [List.mem_append, List.mem_cons] at hc
    rcases hc with hc | rfl | hc
    · exact Or.inl ⟨c, by simp [hc], hf, h1, h2⟩
    · exact Or.inr ⟨h1, h2⟩
    · exact Or.inl ⟨c, by simp [hc], hf, h1, h2⟩
  have hbad : ∀ c, ChangesOnly (InFreed (xs ++ b :: ys) b) s c → checkSanity c = false → C c := fun c hch hs =>
    hC c ⟨hch, fun hs' => by rw [hs] at hs'; cases hs'⟩
  unfold deallocateBlock
  have h1 := h.freeing_mark hb
  have hch1 : ChangesOnly (InFreed (xs ++ b :: ys) b) s { s with mem := s.mem.store8 (b.addr+8) true.toNat } := by
    refine .of_mem fun x hx => Mem.store8_of_ne _ ?_
    rintro rfl
    exact hx (Or.inr ⟨by omega, by unfold Block.stop; omega⟩)
  refine runs_store_bind (hbad _ hch1 h1.insane) ?_
  refine Runs.bind (Q := fun _ c => Freeing c xs ⟨b.addr, b.size, true⟩ ys l ∧
      ChangesOnly (InFreed (xs ++ b :: ys) b) s c) ?_ ?_
  · refine runs_setNextFree h1.linked.geometry (h1.linked.inArea (b := ⟨b.addr, b.size, true⟩) (by simp))
      (Or.inl rfl) fun m _ hmem => ?_
    have h2 : Freeing { s with mem := m } xs ⟨b.addr, b.size, true⟩ ys l := h1.link hmem
    have hch2 := hch1.trans (.of_mem fun x hx =>
      h1.linked.inFree_of_link (p := ⟨b.addr, b.size, true⟩) (by simp) rfl hmem x fun hx' => hx (harea x hx'))
    exact ⟨hbad _ hch2 h2.insane, h2, hch2⟩
  rintro _ c ⟨hc, hch⟩
  -- both merges keep the area of the free bytes, so later stores stay within it
  refine Runs.bind (Q := fun _ d => ∃ b' ys' l', ChangesOnly (InFreed (xs ++ b :: ys) b) s d ∧
      Freeing d xs b' ys' l' ∧ b'.addr = b.addr ∧ Absorbs xs ⟨b.addr, b.size, true⟩ ys xs b' ys' ∧
      ∀ y ∈ ys'.head?, y.free = false)
    (hc.runs_mergeNext (fun d hchd hs => hbad d (hch.trans (hchd.mono harea)) hs)
      fun d b' ys' l' hchd hd haddr habs hhead =>
        ⟨b', ys', l', hch.trans (hchd.mono harea), hd, haddr, habs, hhead⟩) ?_
  rintro _ d ⟨b', ys', l', hchd, hd, haddr, habs, hhead⟩
  rw [← haddr]
  have harea' : ∀ x, InFree (xs ++ b' :: ys') x → InFreed (xs ++ b :: ys) b x := fun x hx =>
    harea x (habs.area x hx)
  refine Runs.bind (Q := fun p f => ∃ xs' b'' l'', p = b''.addr ∧ ChangesOnly (InFreed (xs ++ b :: ys) b) s f ∧
      Freeing f xs' b'' ys' l'' ∧ Absorbs xs ⟨b.addr, b.size, true⟩ ys xs' b'' ys' ∧
      ∀ x ∈ xs'.getLast?, x.free = false)
    (hd.runs_mergePrevious (fun f hchf hs => hbad f (hchd.trans (hchf.mono harea')) hs)
      fun f xs' b'' l'' hchf hf habs' hlast =>
        ⟨xs', b'', l'', rfl, hchd.trans (hchf.mono harea'), hf, habs.trans habs', hlast⟩) ?_
  rintro _ f ⟨xs', b'', l'', rfl, hchf, hf, habs', hlast⟩
  have harea'' : ∀ x, InFree (xs' ++ b'' :: ys') x → InFreed (xs ++ b :: ys) b x := fun x hx =>
    harea x (habs'.area x hx)
  have hfreed : ∀ g, WellFormed g (xs' ++ b'' :: ys') (insertBySize b'' l'') → Freed (xs ++ b :: ys) b g := by
    refine fun g hg => ⟨_, _, hg, fun k hk => ?_⟩
    have hne : k ≠ b'' := by rintro rfl; simp [hf.free] at hk
    have hall := habs'.allocated k hk
    simp only [List.mem_append] at hall hnd
    simp only [List.mem_append, List.mem_cons, hne, false_or, hall]
    constructor
    · rintro (hk' | hk')
      · exact ⟨Or.inl hk', fun heq => hnd.1 (Or.inl (heq ▸ hk'))⟩
      · exact ⟨Or.inr (Or.inr hk'), fun heq => hnd.1 (Or.inr (heq ▸ hk'))⟩
    · rintro ⟨hk' | hk' | hk', hkb⟩
      · exact Or.inl hk'
      · exact absurd hk' hkb
      · exact Or.inr hk'
  refine hf.runs_relist hlast hhead ?_ ?_
  · exact fun g hchg hg => hC g ⟨hchf.trans (hchg.mono harea''), fun hs => hfreed g (hg hs)⟩
  · exact fun g hchg hg => hQ g (hchf.trans (hchg.mono harea'')) (hfreed g hg)

/-- `deallocate` of a pointer whose header names the allocated block `b`. -/
theorem runs_deallocate (h : WellFormed s bs l) (hbm : b ∈ bs) (hb : b.free = false) {p : ℕ}
    (hp : NamesBlock s.mem p b) {Q : Unit → Allocator → Prop}
    (hC : ∀ c, Guarded (InFreed bs b) (fun c => WellFormed c bs l ∨ Freed bs b c) s c → C c)
    (hQ : ∀ c, ChangesOnly (InFreed bs b) s c → Freed bs b c → Q () c) :
    (deallocate p).Runs s C Q := by
  unfold deallocate
  refine runs_count_bind fun d hd => ?_
  have hwf := h.counters hd
  obtain ⟨hhas, hvalid⟩ := hwf.toSane.valid_iff.mpr ⟨b, hbm, hd.mem_eq ▸ hp⟩
  refine ⟨hC d ⟨hd.changes, fun _ => Or.inl hwf⟩, ?_⟩
  rw [if_neg (by have := hp.1; omega)]
  refine runs_get_bind ?_
  have hblock : headerBlock d.mem p = b.addr := by rw [hd.mem_eq]; exact hp.2.2.1
  rw [hblock] at hvalid
  simp only [hhas, hblock, hvalid, (hwf.linked.headers b hbm).isFree, hb, Bool.not_true, Bool.false_eq_true, if_false]
  obtain ⟨xs, ys, rfl⟩ := List.append_of_mem hbm
  refine hwf.runs_deallocateBlock hb ?_ ?_
  · exact fun c hc => hC c ⟨hd.changes.trans hc.changes, fun hs => Or.inr (hc.sane hs)⟩
  · exact fun c hch hc => hQ c (hd.changes.trans hch) hc

end WellFormed

theorem deallocate_null : (deallocate 0).run s = (.ok (),
    { s with counters := { s.counters with deallocateCalls := add64 s.counters.deallocateCalls 1 } }) := rfl

/-- A pointer whose header names no allocated block is refused, and nothing but the call
counter changes. -/
theorem Sane.throws_deallocate (h : Sane s bs l) {p : ℕ} (hp : p ≠ 0)
    (hno : ∀ b ∈ bs, b.free = false → ¬ NamesBlock s.mem p b) :
    (deallocate p).Throws s (CountersOnly s) (fun e c =>
      (e = .interprocess .invalidPointer ∨ e = .interprocess .doubleFree) ∧ CountersOnly s c) := by
  unfold deallocate
  refine throws_count_bind fun d hd => ⟨hd, ?_⟩
  have hs := h.counters hd
  rw [if_neg hp]
  refine throws_get_bind ?_
  by_cases hhas : hasAllocationHeader d p = true
  · by_cases hvalid : isValidPayload d p (headerBlock d.mem p) = true
    · obtain ⟨b, hb, hnames⟩ := hs.valid_iff.mp ⟨hhas, hvalid⟩
      have hfree : b.free = true := by
        by_contra hf
        exact hno b hb (by simpa using hf) (hd.mem_eq ▸ hnames)
      rw [hnames.2.2.1] at hvalid
      simp only [hhas, hnames.2.2.1, hvalid, (hs.linked.headers b hb).isFree, hfree, Bool.not_true, Bool.false_eq_true,
        if_false, if_true]
      exact throws_throw ⟨Or.inr rfl, hd⟩
    · rw [Bool.not_eq_true] at hvalid
      simp only [hhas, hvalid, Bool.not_true, Bool.not_false, Bool.false_eq_true, if_false, if_true]
      exact throws_throw ⟨Or.inl rfl, hd⟩
  · rw [Bool.not_eq_true] at hhas
    simp only [hhas, Bool.not_false, if_true]
    exact throws_throw ⟨Or.inl rfl, hd⟩

end ShmNext
