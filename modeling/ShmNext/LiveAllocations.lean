import ShmNext.ShrinkSpec

/-! The allocations callers hold, next to the blocks they lie in: what each call does
to them, and to the bytes of their payloads. -/
namespace ShmNext
open Prog

/-- A live allocation: the block it lies in, the payload handed out, the size last asked
for, and the normalised alignment. -/
structure LiveAlloc where
  block : ℕ
  payload : ℕ
  size : ℕ
  align : ℕ
  deriving DecidableEq, Repr

/-- The block `b` carries `a`, with its header just below the payload. -/
structure LiveAlloc.Holds (m : Mem) (a : LiveAlloc) (b : Block) : Prop where
  addr : b.addr = a.block
  allocated : b.free = false
  header : HeaderNames m a.payload a.block a.size
  above : a.block+48 ≤ a.payload
  within : a.payload+a.size ≤ b.stop
  aligned : a.payload%a.align = 0
  aligned_16 : a.payload%16 = 0
  pos : 0 < a.size

/-- The allocator invariant together with the live allocations: each has an allocated
block of its own, and every other allocated block is one of those lost to all callers. -/
structure HeapInv (lost : ℕ → Prop) (s : Allocator) (live : List LiveAlloc) (bs l : List Block) : Prop extends WellFormed s bs l where
  placed : ∀ a ∈ live, ∃ b ∈ bs, a.Holds s.mem b
  owned : ∀ b ∈ bs, b.free = false → lost b.addr ∨ ∃ a ∈ live, a.block = b.addr
  distinct : (live.map LiveAlloc.block).Nodup

/-- The bytes of the payload are the same. -/
def SamePayload (a : LiveAlloc) (m m' : Mem) : Prop :=
  ∀ x, a.payload ≤ x → x < a.payload+a.size → m' x = m x

theorem SamePayload.refl (a : LiveAlloc) (m : Mem) : SamePayload a m m := fun _ _ _ => rfl

theorem SamePayload.trans {a : LiveAlloc} {m m' m'' : Mem} (h : SamePayload a m m') (h' : SamePayload a m' m'') :
    SamePayload a m m'' := fun x h1 h2 => (h' x h1 h2).trans (h x h1 h2)

variable {s c : Allocator} {b b' : Block} {a a' : LiveAlloc} {bs bs' l l' : List Block} {live : List LiveAlloc}
  {W lost : ℕ → Prop} {p : ℕ}

namespace LiveAlloc.Holds
variable {m m' : Mem}

theorem namesBlock (h : a.Holds m b) : NamesBlock m a.payload b := by
  have h1 := h.above
  have h2 := h.within
  have h3 := h.pos
  refine ⟨by rw [h.addr]; exact h1, by omega, by rw [h.header.block_eq, h.addr], ?_⟩
  rw [h.header.size_eq]
  omega

/-- The header survives in a block that did not shrink, while its bytes are left alone. -/
theorem keep (h : a.Holds m b) (ha : b'.addr = b.addr) (hf : b'.free = false) (hs : b.size ≤ b'.size)
    (hm : ∀ x, a.payload-16 ≤ x → x < a.payload → m' x = m x) : a.Holds m' b' := by
  have h1 := h.above
  have h2 := h.within
  exact ⟨ha.trans h.addr, hf, h.header.congr hm (by omega), h1, by unfold Block.stop at *; omega, h.aligned,
    h.aligned_16, h.pos⟩

end LiveAlloc.Holds

/-- Bytes of an allocated block are not bytes of a free one. -/
theorem Linked.not_inFree {e x : ℕ} (h : Linked s e bs l) (hb : b ∈ bs) (hf : b.free = false) (h1 : b.addr ≤ x)
    (h2 : x < b.stop) : ¬ InFree bs x := by
  rintro ⟨d, hd, hdf, h3, h4⟩
  rw [h.tiles.eq_of_overlap hb hd h1 h2 h3 h4, hdf] at hf
  cases hf

namespace HeapInv

theorem block_unique (h : HeapInv lost s live bs l) (ha : a ∈ live) (ha' : a' ∈ live) (heq : a.block = a'.block) :
    a = a' :=
  List.inj_on_of_nodup_map h.distinct ha ha' heq

/-- A payload address belongs to one live allocation only: the header below it says where. -/
theorem payload_unique (h : HeapInv lost s live bs l) (ha : a ∈ live) (ha' : a' ∈ live)
    (heq : a.payload = a'.payload) : a = a' := by
  obtain ⟨b, _, hb⟩ := h.placed a ha
  obtain ⟨b', _, hb'⟩ := h.placed a' ha'
  refine h.block_unique ha ha' ?_
  rw [← hb.header.block_eq, ← hb'.header.block_eq, heq]

theorem payload_pos (h : HeapInv lost s live bs l) (ha : a ∈ live) : a.payload ≠ 0 := by
  obtain ⟨b, _, hb⟩ := h.placed a ha
  have := hb.above
  omega

theorem counters (h : HeapInv lost s live bs l) (hc : CountersOnly s c) : HeapInv lost c live bs l :=
  ⟨h.toWellFormed.counters hc, by rw [hc.mem_eq]; exact h.placed, h.owned, h.distinct⟩

/-- The bytes of an allocated block under a call that writes only free bytes, and bytes
behind the end of the segment. -/
theorem grown_bytes (h : HeapInv lost s live bs l) (hm : ∀ x, ¬ InGrown s bs x → c.mem x = s.mem x) (hb : b ∈ bs)
    (hf : b.free = false) : ∀ x, b.addr ≤ x → x < b.stop → c.mem x = s.mem x := by
  intro x h1 h2
  have hend := (h.linked.mem_bounds hb).2.1
  exact hm x fun hx => hx.elim (h.linked.not_inFree hb hf h1 h2) (by omega)

/-- Such a call, when it leaves the same allocated blocks, leaves the live allocations alone. -/
theorem of_same (h : HeapInv lost s live bs l) (hm : ∀ x, ¬ InGrown s bs x → c.mem x = s.mem x)
    (hc : WellFormed c bs' l') (hall : AllocatedAre bs' (· ∈ bs)) :
    HeapInv lost c live bs' l' ∧ ∀ a ∈ live, SamePayload a s.mem c.mem := by
  refine ⟨⟨hc, ?_, ?_, h.distinct⟩, ?_⟩
  · intro a ha
    obtain ⟨b, hb, hh⟩ := h.placed a ha
    have h1 := hh.above
    have h2 := hh.within
    have h3 := hh.addr
    exact ⟨b, (hall b hh.allocated).mpr hb, hh.keep rfl hh.allocated le_rfl fun x hx hx' =>
      h.grown_bytes hm hb hh.allocated x (by omega) (by omega)⟩
  · exact fun b hb hf => h.owned b ((hall b hf).mp hb) hf
  · intro a ha x hx hx'
    obtain ⟨b, hb, hh⟩ := h.placed a ha
    have h1 := hh.above
    have h2 := hh.within
    have h3 := hh.addr
    exact h.grown_bytes hm hb hh.allocated x (by omega) (by omega)

end HeapInv

/-- What a crash must leave of the given allocations: a well-formed segment in which each
still has its block, its header's link to it, and its payload bytes. -/
def Intact (live : List LiveAlloc) (s c : Allocator) : Prop :=
  ∃ bs' l', WellFormed c bs' l' ∧ ∀ a ∈ live, SamePayload a s.mem c.mem ∧ headerBlock c.mem a.payload = a.block ∧
    ∃ b ∈ bs', b.free = false ∧ b.addr = a.block ∧ a.block+48 ≤ a.payload ∧ a.payload+a.size ≤ b.stop

/-- An interrupted call is harmless or detected. -/
def CrashOk (live : List LiveAlloc) (s c : Allocator) : Prop := checkSanity c = true → Intact live s c

namespace HeapInv
variable {n al A : ℕ}

/-- Allocations whose blocks are kept, and whose header link and payload bytes are not written. -/
theorem intact (h : HeapInv lost s live bs l) {live' : List LiveAlloc} (hsub : ∀ a ∈ live', a ∈ live)
    (hc : WellFormed c bs' l')
    (hkeep : ∀ a ∈ live', ∀ b ∈ bs, a.Holds s.mem b →
      (∃ b' ∈ bs', b'.free = false ∧ b'.addr = b.addr ∧ b.size ≤ b'.size) ∧
      ∀ x, a.payload-16 ≤ x → x < a.payload-8 ∨ a.payload ≤ x → x < a.payload+a.size → c.mem x = s.mem x) :
    Intact live' s c := by
  refine ⟨bs', l', hc, fun a ha => ?_⟩
  obtain ⟨b, hb, hh⟩ := h.placed a (hsub a ha)
  obtain ⟨⟨b', hb', hf, haddr, hsize⟩, hm⟩ := hkeep a ha b hb hh
  have h1 := hh.above
  have h2 := hh.within
  refine ⟨fun x hx hx' => hm x (by omega) (Or.inr hx) hx', ?_, b', hb', hf, haddr.trans hh.addr, h1, ?_⟩
  · rw [← hh.header.block_eq]
    unfold headerBlock
    rw [Mem.load64_congr fun x hx hx' => hm x hx (Or.inl (by omega)) (by omega)]
  · unfold Block.stop at *
    omega

/-- The same for a call that writes free bytes only. -/
theorem same_bytes (h : HeapInv lost s live bs l) (hch : ChangesOnly (InFree bs) s c) (hb : b ∈ bs) (hf : b.free = false) :
    ∀ x, b.addr ≤ x → x < b.stop → c.mem x = s.mem x :=
  h.grown_bytes (fun x hx => hch.bytes x fun hx' => hx (Or.inl hx')) hb hf

theorem same_payload (h : HeapInv lost s live bs l) (hch : ChangesOnly (InFree bs) s c) (ha : a ∈ live) :
    SamePayload a s.mem c.mem := by
  obtain ⟨b, hb, hh⟩ := h.placed a ha
  have h1 := hh.above
  have h2 := hh.within
  have h3 := hh.addr
  exact fun x hx hx' => h.same_bytes hch hb hh.allocated x (by omega) (by omega)

theorem intact_of_keeping (h : HeapInv lost s live bs l) (hm : ∀ x, ¬ InGrown s bs x → c.mem x = s.mem x)
    (hk : Keeping bs c) : Intact live s c := by
  obtain ⟨bs', l', hc, hkeep⟩ := hk
  refine h.intact (fun a ha => ha) hc fun a ha b hb hh => ⟨⟨b, hkeep b hb hh.allocated, hh.allocated, rfl, le_rfl⟩, ?_⟩
  intro x hx _ hx'
  have h1 := hh.above
  have h2 := hh.within
  have h3 := hh.addr
  exact h.grown_bytes hm hb hh.allocated x (by omega) (by omega)

theorem intact_of_free (h : HeapInv lost s live bs l) (hch : ChangesOnly (InFree bs) s c) (hc : WellFormed c bs' l')
    (hkeep : ∀ b ∈ bs, b.free = false → b ∈ bs') : Intact live s c :=
  h.intact_of_keeping (fun x hx => hch.bytes x fun hx' => hx (Or.inl hx')) ⟨bs', l', hc, hkeep⟩

theorem mem_handedOut {xs ys : List Block} {used : ℕ} (hb : b.free = true) {d : Block} (hf : d.free = false) :
    d ∈ handedOut xs b used ys ↔ d = lowPart ⟨b.addr, b.size, false⟩ used ∨ d ∈ xs ++ b :: ys := by
  have hne : d ≠ b := by rintro rfl; simp [hb] at hf
  have hnr : d ∉ restPart b used := fun hm => by rw [(mem_restPart.mp hm).2] at hf; cases hf
  unfold handedOut
  simp only [List.mem_append, List.mem_cons, hne, hnr, false_or]
  tauto

/-- A successful `allocate` adds one live allocation and leaves the others alone. -/
theorem runs_allocate (h : HeapInv lost s live bs l) (hn : 0 < n) (hn' : n < 2^64) (ha : normalizeAlignment al = some A)
    (hfind : l.find? (fun b => fits s.mem n A b.addr) = some b) (hfit : LayoutFits b.addr n A) :
    (allocate n al).Runs s (CrashOk live s) fun p c => p = (makeLayout b.addr n A).payload ∧
      (∃ bs' l', HeapInv lost c (⟨b.addr, p, n, A⟩ :: live) bs' l') ∧ ∀ a ∈ live, SamePayload a s.mem c.mem := by
  obtain ⟨hb, us, vs, rfl, hus⟩ := List.find?_eq_some_iff_append.mp hfind
  have hbl := h.linked.listed b (by simp)
  obtain ⟨xs, ys, rfl⟩ := List.append_of_mem hbl.1
  obtain ⟨k, hk, hk', rfl, -⟩ := normalizeAlignment_some ha
  have hlay := makeLayout_spec hk hk' hfit hn
  -- a cut that `check_sanity` accepts is one before the block is taken or one after it has been handed out
  refine h.toSane.runs_allocate hn hn' ha (by simpa using hus) hb hfit ?_ ?_
  · rintro c ⟨hch, hsane⟩ hs
    rcases hsane hs with hc | hc
    · exact h.intact_of_free hch ⟨hc, h.sorted, h.coalesced⟩ fun d hd _ => hd
    · exact h.intact_of_free hch (h.toWellFormed.hand_out hc) fun d hd hdf => (mem_handedOut hbl.2 hdf).mpr (Or.inr hd)
  · intro c hch hc hheader
    have hwf := h.toWellFormed.hand_out hc
    have hle := ((h.toSane.fits_iff hbl.1).mp hb).2
    -- each allocation has its block, each allocated block its allocation, and no block has two
    refine ⟨rfl, ⟨_, _, hwf, ?_, ?_, ?_⟩, fun a ha => h.same_payload hch ha⟩
    · intro a hal
      rcases List.mem_cons.mp hal with rfl | hal
      · refine ⟨_, (mem_handedOut hbl.2 rfl).mpr (Or.inl rfl), rfl, rfl, hheader, hlay.header_room, ?_, hlay.aligned,
          hlay.aligned_16, hn⟩
        exact hlay.covers.trans (lowPart_bounds (b := ⟨b.addr, b.size, false⟩) hle).1
      · obtain ⟨d, hd, hh⟩ := h.placed a hal
        have h1 := hh.above
        have h2 := hh.within
        have h3 := hh.addr
        exact ⟨d, (mem_handedOut hbl.2 hh.allocated).mpr (Or.inr hd), hh.keep rfl hh.allocated le_rfl fun x hx hx' =>
          h.same_bytes hch hd hh.allocated x (by omega) (by omega)⟩
    · intro d hd hdf
      rcases (mem_handedOut hbl.2 hdf).mp hd with rfl | hd
      · exact Or.inr ⟨_, List.mem_cons_self, rfl⟩
      · exact (h.owned d hd hdf).imp_right fun ⟨a, hal, heq⟩ => ⟨a, List.mem_cons_of_mem _ hal, heq⟩
    · rw [List.map_cons, List.nodup_cons]
      refine ⟨fun hm => ?_, h.distinct⟩
      obtain ⟨a, hal, heq⟩ := List.mem_map.mp hm
      obtain ⟨d, hd, hh⟩ := h.placed a hal
      have hdb := h.linked.addr_inj hd hbl.1 (hh.addr.trans heq)
      have hf := hh.allocated
      rw [hdb, hbl.2] at hf
      cases hf

theorem throws_allocate (h : HeapInv lost s live bs l) (hn : 0 < n) (ha : normalizeAlignment al = some A)
    (hfind : l.find? (fun b => fits s.mem n A b.addr) = none) :
    (allocate n al).Throws s (CrashOk live s) fun e c => e = .interprocess .badAlloc ∧ CountersOnly s c := by
  have hrun := h.toSane.throws_allocate hn ha (by simpa using hfind)
  refine hrun.mono (fun c hc _ => ?_) fun _ _ he => he
  exact h.intact_of_free hc.changes (h.toWellFormed.counters hc) fun b hb _ => hb

theorem other_block (h : HeapInv lost s live bs l) (ha : a ∈ live) (ha' : a' ∈ live) (hne : a'.payload ≠ a.payload)
    {m : Mem} (hh : a.Holds m b) (hh' : a'.Holds m b') : b' ≠ b := by
  rintro rfl
  exact hne (congrArg LiveAlloc.payload (h.block_unique ha' ha (hh'.addr.symm.trans hh.addr)))

/-- Freeing a live allocation ends it and leaves the others alone. -/
theorem runs_deallocate (h : HeapInv lost s live bs l) (ha : a ∈ live) :
    (deallocate a.payload).Runs s (CrashOk (live.filter (·.payload ≠ a.payload)) s) fun _ c =>
      (∃ bs' l', HeapInv lost c (live.filter (·.payload ≠ a.payload)) bs' l') ∧
        ∀ a' ∈ live, a'.payload ≠ a.payload → SamePayload a' s.mem c.mem := by
  obtain ⟨b, hb, hh⟩ := h.placed a ha
  -- nothing is written but in free blocks and in the block that is freed
  have hbytes : ∀ {c}, ChangesOnly (InFreed bs b) s c → ∀ d ∈ bs, d.free = false → d ≠ b →
      ∀ x, d.addr ≤ x → x < d.stop → c.mem x = s.mem x := by
    intro c hch d hd hdf hne x h1 h2
    refine hch.bytes x fun hx => hx.elim (h.linked.not_inFree hd hdf h1 h2) fun hx => ?_
    exact hne (h.linked.tiles.eq_of_overlap hd hb h1 h2 hx.1 hx.2)
  have hmem : ∀ {a'}, a' ∈ live.filter (·.payload ≠ a.payload) ↔ a' ∈ live ∧ a'.payload ≠ a.payload := by
    simp [List.mem_filter]
  have hkeep : ∀ {c bs' l'}, ChangesOnly (InFreed bs b) s c → WellFormed c bs' l' →
      (∀ d ∈ bs, d.free = false → d ≠ b → d ∈ bs') → Intact (live.filter (·.payload ≠ a.payload)) s c := by
    intro c bs' l' hch hc hin
    refine h.intact (fun a' ha' => (hmem.mp ha').1) hc fun a' ha' d hd hh' => ?_
    have hne := h.other_block ha (hmem.mp ha').1 (hmem.mp ha').2 hh hh'
    have h1 := hh'.above
    have h2 := hh'.within
    have h3 := hh'.addr
    exact ⟨⟨d, hin d hd hh'.allocated hne, hh'.allocated, rfl, le_rfl⟩, fun x hx _ hx' =>
      hbytes hch d hd hh'.allocated hne x (by omega) (by omega)⟩
  -- a cut that is accepted is one before the block is marked free or one where it is on the list
  refine h.toWellFormed.runs_deallocate hb hh.allocated hh.namesBlock ?_ ?_
  · rintro c ⟨hch, hsane⟩ hs
    rcases hsane hs with hc | ⟨bs', l', hc, hall⟩
    · exact hkeep hch hc fun d hd _ _ => hd
    · exact hkeep hch hc fun d hd hdf hne => (hall d hdf).mpr ⟨hd, hne⟩
  · rintro c hch ⟨bs', l', hc, hall⟩
    refine ⟨⟨bs', l', hc, ?_, ?_, h.distinct.sublist (List.filter_sublist.map _)⟩, ?_⟩
    · intro a' ha'
      obtain ⟨hal, hne⟩ := hmem.mp ha'
      obtain ⟨d, hd, hh'⟩ := h.placed a' hal
      have hdb := h.other_block ha hal hne hh hh'
      have h1 := hh'.above
      have h2 := hh'.within
      have h3 := hh'.addr
      exact ⟨d, (hall d hh'.allocated).mpr ⟨hd, hdb⟩, hh'.keep rfl hh'.allocated le_rfl fun x hx hx' =>
        hbytes hch d hd hh'.allocated hdb x (by omega) (by omega)⟩
    · intro d hd hdf
      obtain ⟨hdm, hne⟩ := (hall d hdf).mp hd
      refine (h.owned d hdm hdf).imp_right fun ⟨a', hal, heq⟩ => ⟨a', hmem.mpr ⟨hal, fun hp => ?_⟩, heq⟩
      rw [h.payload_unique hal ha hp, ← hh.addr] at heq
      exact hne (h.linked.addr_inj hdm hb heq.symm)
    · intro a' hal hne x hx hx'
      obtain ⟨d, hd, hh'⟩ := h.placed a' hal
      have h1 := hh'.above
      have h2 := hh'.within
      have h3 := hh'.addr
      exact hbytes hch d hd hh'.allocated (h.other_block ha hal hne hh hh') x (by omega) (by omega)

theorem runs_deallocate_null (h : HeapInv lost s live bs l) : (deallocate 0).Runs s (CrashOk live s) fun _ c =>
    CountersOnly s c := by
  unfold deallocate
  refine runs_count_bind fun c hc => ⟨fun _ => ?_, runs_pure hc⟩
  exact h.intact_of_free hc.changes (h.toWellFormed.counters hc) fun b hb _ => hb

end HeapInv

/-- The live allocations after a successful `try_expand` at `p`. -/
def resized (live : List LiveAlloc) (p n : ℕ) : List LiveAlloc :=
  live.map fun a => if a.payload = p then { a with size := n } else a

/-- The layout for the new size starts at `p` again, and the block or a free successor has room for it. -/
def CanExpand (s : Allocator) (block p size A : ℕ) : Prop :=
  (makeLayout block size A).payload = p ∧ (makeLayout block size A).totalSize ≤ roomAt s block

instance (s : Allocator) (block p size A : ℕ) : Decidable (CanExpand s block p size A) :=
  inferInstanceAs (Decidable (_ ∧ _))

/-- Where the word for the size below `p` overlaps a payload, its bytes are already those of the new size. -/
def RecordsApart (live : List LiveAlloc) (s : Allocator) (p n : ℕ) : Prop :=
  ∀ a ∈ live, ∀ i < 8, a.payload ≤ p-8+i → p-8+i < a.payload+a.size → s.mem (p-8+i) = UInt8.ofNat (n/256^i)

/-- Storing the new size then changes no byte of a payload. -/
theorem recordsApart_iff {n : ℕ} : RecordsApart live s p n ↔ ∀ a ∈ live, SamePayload a s.mem (s.recordSize p n).mem := by
  have hbyte : ∀ x, (s.recordSize p n).mem x = if p-8 ≤ x ∧ x < p-8+8 then UInt8.ofNat (n/256^(x-(p-8))) else s.mem x := fun _ => rfl
  constructor
  · intro h a ha x hx hx'
    rw [hbyte]
    split
    · rename_i hin
      have heq : p-8+(x-(p-8)) = x := by omega
      have hold := h a ha (x-(p-8)) (by omega) (by omega) (by omega)
      rw [heq] at hold
      exact hold.symm
    · rfl
  · intro h a ha i hi h1 h2
    have hsame := h a ha (p-8+i) h1 h2
    rw [hbyte, if_pos (by omega), show p-8+i-(p-8) = i by omega] at hsame
    exact hsame.symm

namespace HeapInv
variable {n al A : ℕ}

/-- Behind the size word an allocated block keeps its bytes while a block is expanded. -/
theorem growing_bytes (h : HeapInv lost s live bs l) (hb : b ∈ bs) {d : Block} (hd : d ∈ bs) (hdf : d.free = false)
    {x : ℕ} (h1 : d.addr+8 ≤ x) (h2 : x < d.stop) : ¬ InGrowing bs b x := by
  rintro (hx | hx)
  · exact h.linked.not_inFree hd hdf (by omega) h2 hx
  · have hbb := h.linked.mem_bounds hb
    have hdb : d = b := h.linked.tiles.eq_of_overlap hd hb (by omega) h2 hx.1 (by unfold Block.stop; omega)
    subst hdb
    omega

/-- A live header other than the one at `p` is apart from it, both being 16-aligned. -/
theorem header_apart (h : HeapInv lost s live bs l) (hp : 48 ≤ p) (h16 : p%16 = 0) (ha : a ∈ live)
    (hne : a.payload ≠ p) : a.payload ≤ p-16 ∨ p ≤ a.payload-16 := by
  obtain ⟨d, _, hh⟩ := h.placed a ha
  have := hh.aligned_16
  have := hh.above
  omega

theorem resized_placed (h : HeapInv lost s live bs l) (hb : b ∈ bs) (hp : NamesBlock s.mem p b)
    (h16 : p%16 = 0) (hch : ChangesOnly (InGrowing bs b) (s.recordSize p n) c) {size : ℕ}
    (hsize : b.size ≤ size) (hall : AllocatedAre bs' fun d => d = ⟨b.addr, size, false⟩ ∨ (d ∈ bs ∧ d ≠ b))
    (hn : 0 < n) (hn' : n < 2^64) (hfit : p+n ≤ b.addr+size) :
    ∀ a ∈ resized live p n, ∃ b' ∈ bs', a.Holds c.mem b' := by
  intro a' ha'
  obtain ⟨a, ha, rfl⟩ := List.mem_map.mp ha'
  obtain ⟨d, hd, hh⟩ := h.placed a ha
  have h1 := hh.above
  have h2 := hh.within
  have h3 := hh.addr
  have hp1 := hp.1
  have hb' : (⟨b.addr, size, false⟩ : Block) ∈ bs' := (hall _ rfl).mpr (Or.inl rfl)
  have hbytes : ∀ x, d.addr+8 ≤ x → x < d.stop → c.mem x = (s.recordSize p n).mem x := fun x hx hx' =>
    hch.bytes x (h.growing_bytes hb hd hh.allocated hx hx')
  -- the allocation that is resized has its new size in its header, the others have the header they had
  by_cases hap : a.payload = p
  · rw [if_pos hap]
    have hdb : d = b := h.linked.addr_inj hd hb (by rw [h3, ← hh.header.block_eq, hap, hp.2.2.1])
    subst hdb
    have hword : c.mem.load64 (a.payload-16) = s.mem.load64 (a.payload-16) :=
      Mem.load64_congr fun x hx hx' => (hbytes x (by omega) (by omega)).trans (Mem.store64_of_outside s.mem (by omega))
    have hsizeWord : c.mem.load64 (p-8) = (s.recordSize p n).mem.load64 (p-8) :=
      Mem.load64_congr fun x hx hx' => hbytes x (by omega) (by omega)
    refine ⟨_, hb', h3, rfl, ⟨?_, ?_⟩, h1, by rw [hap]; exact hfit, hh.aligned, hh.aligned_16, hn⟩
    · rw [← hh.header.block_eq]
      unfold headerBlock
      rw [hword]
    · unfold headerRequestedSize
      dsimp only
      rw [hap, hsizeWord]
      exact Mem.load64_store64 _ _ _ hn'
  · rw [if_neg hap]
    have hapart := h.header_apart (by omega) h16 ha hap
    have hheader : ∀ x, a.payload-16 ≤ x → x < a.payload → c.mem x = s.mem x := fun x hx hx' =>
      (hbytes x (by omega) (by omega)).trans (Mem.store64_of_outside s.mem (by omega))
    by_cases hdb : d = b
    · subst hdb
      exact ⟨_, hb', hh.keep rfl rfl hsize hheader⟩
    · exact ⟨d, (hall d hh.allocated).mpr (Or.inr ⟨hd, hdb⟩), hh.keep rfl hh.allocated le_rfl hheader⟩

/-- A `try_expand` at any pointer keeps the invariant. On payloads it has no effect but the
store of the new size, and that only when it can expand. -/
theorem runs_tryExpand (h : HeapInv lost s live bs l) (hb : b ∈ bs) (hf : b.free = false) (hp : NamesBlock s.mem p b)
    (hn : 0 < n) (hn' : n < 2^64) (ha : normalizeAlignment al = some A) (hfit : LayoutFits b.addr n A) :
    (tryExpand p n al).Runs s
      (fun c => (CanExpand s b.addr p n A → RecordsApart live s p n) → CrashOk live s c) fun r c =>
      (∃ bs' l', HeapInv lost c (if r then resized live p n else live) bs' l') ∧ (CanExpand s b.addr p n A ↔ r = true) ∧
        ∀ a ∈ live, SamePayload a (if r then s.recordSize p n else s).mem c.mem := by
  obtain ⟨k, hk, hk', rfl, -⟩ := normalizeAlignment_some ha
  have hlay := makeLayout_spec hk hk' hfit hn
  have hp1 := hp.1
  -- blocks and links are stored where no payload is; that leaves the store of the size
  have hbytes : ∀ {c t : Allocator}, ChangesOnly (InGrowing bs b) t c → ∀ a ∈ live, SamePayload a t.mem c.mem := by
    intro c t hch a ha x hx hx'
    obtain ⟨d, hd, hh⟩ := h.placed a ha
    have h1 := hh.above
    have h2 := hh.within
    have h3 := hh.addr
    exact hch.bytes x (h.growing_bytes hb hd hh.allocated (by omega) (by omega))
  obtain ⟨xs, ys, rfl⟩ := List.append_of_mem hb
  have hcounters : ∀ c, CountersOnly s c → CrashOk live s c := fun c hc _ =>
    h.intact_of_free hc.changes (h.toWellFormed.counters hc) fun d hd _ => hd
  have hcan : CanExpand s b.addr p n (2^k) ↔ (makeLayout b.addr n (2^k)).payload = p ∧
      (makeLayout b.addr n (2^k)).totalSize ≤ expandRoom b ys := by rw [CanExpand, h.toSane.roomAt_eq]
  -- the crash states that are accepted, a refusal, and the two ways to succeed
  refine h.toWellFormed.runs_tryExpand hf hp hn ha (fun c hc _ => hcounters c hc) ?_ fun hpay hroom => ⟨?_, ?_⟩
  · exact fun hno c hc => ⟨⟨_, _, h.counters hc⟩, by simpa [hcan] using hno, hbytes hc.changes⟩
  · intro c hgrow hsane hrec hs
    obtain ⟨bs', l', size, hc, hsize, hall⟩ := hsane hs
    have h16 := hlay.aligned_16
    rw [hpay] at h16
    refine h.intact (fun a ha => ha) hc fun a ha d hd hh => ?_
    have h1 := hh.above
    have h2 := hh.within
    have h3 := hh.addr
    have h4 := hh.aligned_16
    refine ⟨?_, fun x hx hx' hx'' => ?_⟩
    · by_cases hdb : d = b
      · subst hdb
        exact ⟨_, (hall _ rfl).mpr (Or.inl rfl), rfl, rfl, hsize⟩
      · exact ⟨d, (hall d hh.allocated).mpr (Or.inr ⟨hd, hdb⟩), hh.allocated, rfl, le_rfl⟩
    · have hout := h.growing_bytes hb hd hh.allocated (x := x) (by omega) (by omega)
      rcases hgrow with hch | hch <;> rw [hch.bytes x hout]
      rcases hx' with hx' | hx'
      · exact Mem.store64_of_outside s.mem (by omega)
      · exact recordsApart_iff.mp (hrec (hcan.mpr ⟨hpay, hroom⟩)) a ha x hx' hx''
  · rintro c hch ⟨bs', l', size, hc, hsize, hall⟩
    have hsize' := max_le_iff.mp hsize
    have hcov := hlay.covers
    have h16 := hlay.aligned_16
    rw [hpay] at hcov h16
    refine ⟨⟨bs', l', hc, ?_, ?_, ?_⟩, by simpa [hcan] using ⟨hpay, hroom⟩, hbytes hch⟩
    · exact h.resized_placed hb hp h16 hch hsize'.1 hall hn hn' (by omega)
    · intro d hd hdf
      rcases (hall d hdf).mp hd with rfl | ⟨hdm, -⟩
      · exact (h.owned b hb hf).imp_right fun ⟨a, ha, heq⟩ => ⟨_, List.mem_map_of_mem ha, by split <;> exact heq⟩
      · exact (h.owned d hdm hdf).imp_right fun ⟨a, ha, heq⟩ => ⟨_, List.mem_map_of_mem ha, by split <;> exact heq⟩
    · rw [if_pos rfl, resized, List.map_map]
      refine (List.map_congr_left fun a _ => ?_).symm ▸ h.distinct
      simp only [Function.comp_apply]
      split <;> rfl

theorem runs_grow (h : HeapInv lost s live bs l) (hroom : s.segmentBegin+n+48 ≤ 2^64) (hn : n < 2^63) :
    (grow n).Runs s (CrashOk live s) fun _ c =>
      (∃ bs' l', HeapInv lost c live bs' l') ∧ ∀ a ∈ live, SamePayload a s.mem c.mem := by
  refine h.toWellFormed.runs_grow hroom hn ?_ ?_
  · rintro c ⟨k, hch⟩ hkeep hs
    exact h.intact_of_keeping hch.bytes (hkeep hs)
  · rintro r c ⟨k, hch⟩ ⟨bs', l', hc, hall⟩
    obtain ⟨h1, h2⟩ := h.of_same hch.bytes hc hall
    exact ⟨⟨bs', l', h1⟩, h2⟩

theorem runs_shrinkToFit (h : HeapInv lost s live bs l) : shrinkToFit.Runs s (CrashOk live s) fun _ c =>
    (∃ bs' l', HeapInv lost c live bs' l') ∧ ∀ a ∈ live, SamePayload a s.mem c.mem := by
  refine h.toWellFormed.runs_shrinkToFit ?_ ?_
  · rintro c ⟨k, hch⟩ hkeep hs
    exact h.intact_of_keeping (fun x hx => hch.bytes x fun hx' => hx (Or.inl hx')) (hkeep hs)
  · rintro r c ⟨k, hch⟩ ⟨bs', l', hc, hall⟩
    obtain ⟨h1, h2⟩ := h.of_same (fun x hx => hch.bytes x fun hx' => hx (Or.inl hx')) hc hall
    exact ⟨⟨bs', l', h1⟩, h2⟩

theorem runs_zeroFreeMemory (h : HeapInv lost s live bs l) : zeroFreeMemory.Runs s (fun _ => True) fun _ c =>
    (∃ bs' l', HeapInv lost c live bs' l') ∧ ∀ a ∈ live, SamePayload a s.mem c.mem := by
  refine h.toSane.runs_zeroFreeMemory.mono (fun _ _ => trivial) fun _ c hc => ?_
  obtain ⟨h1, h2⟩ := h.of_same (fun x hx => hc.2.bytes x fun hx' => hx (Or.inl hx'))
    ⟨hc.1, h.sorted, h.coalesced⟩ fun _ _ => Iff.rfl
  exact ⟨⟨bs, l, h1⟩, h2⟩

/-- A caller writing within its payload disturbs neither the structure nor any other payload. -/
theorem userWrite (h : HeapInv lost s live bs l) (ha : a ∈ live) {x : ℕ} (h1 : a.payload ≤ x) (h2 : x < a.payload+a.size)
    (v : UInt8) : HeapInv lost { s with mem := Function.update s.mem x v } live bs l := by
  obtain ⟨b, hb, hh⟩ := h.placed a ha
  have hab := hh.above
  have haw := hh.within
  have hba := hh.addr
  refine ⟨h.toWellFormed.inside hb hh.allocated fun y hy => Function.update_of_ne (by omega) _ _, ?_, h.owned, h.distinct⟩
  intro a' ha'
  obtain ⟨d, hd, hh'⟩ := h.placed a' ha'
  have hab' := hh'.above
  have haw' := hh'.within
  have hba' := hh'.addr
  refine ⟨d, hd, hh'.keep rfl hh'.allocated le_rfl fun y hy hy' => Function.update_of_ne ?_ _ _⟩
  rintro rfl
  have hdb := h.linked.tiles.eq_of_overlap hd hb (x := y) (by omega) (by omega) (by omega) (by omega)
  have heq := h.block_unique ha' ha (by rw [← hba', ← hba, hdb])
  subst heq
  omega

end HeapInv

end ShmNext
