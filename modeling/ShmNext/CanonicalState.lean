import Mathlib.Data.List.Sort
import ShmNext.HeapSafety
import ShmNext.SegmentFields

/-! The blocks and the free list of a reachable state are determined by the segment and its
allocated blocks: the allocator keeps no trace of its past. -/
namespace ShmNext
open Prog

variable {s s' c : Allocator} {g g' : Heap} {b : Block} {a e left limit : ℕ} {bs bs' l l' : List Block} {m : Mem}

/-! The structure as a walk reads it off the bytes. -/

def blocksFrom (m : Mem) (limit : ℕ) : ℕ → ℕ → List Block
  | left, current =>
    if current < limit then
      match blockAfter m limit current with
      | none => []
      | some next =>
        match left with
        | 0 => []
        | left+1 => blockAt m current :: blocksFrom m limit left next
    else []

/-- The physical blocks from `first_block` to the end of the segment. -/
def blockChain (s : Allocator) : List Block := blocksFrom s.mem s.segmentEnd s.maxBlocks s.first

def listFrom (m : Mem) : ℕ → ℕ → List ℕ
  | left, curr =>
    if curr = 0 then []
    else match left with
      | 0 => []
      | left+1 => curr :: listFrom m left (nextFree m curr)

/-- The addresses on the free list, in order. -/
def freeList (s : Allocator) : List ℕ := listFrom s.mem s.maxBlocks s.head

theorem blocksFrom_tiles (ht : Tiles a limit bs) (hh : ∀ b ∈ bs, HeaderAt m b) (hlt : limit < 2^64)
    (hl : bs.length ≤ left) : blocksFrom m limit left a = bs := by
  induction bs generalizing a left with
  | nil =>
    rw [Tiles.nil_iff.mp ht]
    unfold blocksFrom
    rw [if_neg (lt_irrefl _)]
  | cons b bs ih =>
    have hb := ht.bounds List.mem_cons_self
    obtain ⟨rfl, h32, h16, hrest⟩ := ht
    obtain ⟨n, rfl⟩ : ∃ n, left = n+1 := ⟨left-1, by simp only [List.length_cons] at hl; omega⟩
    have hhb := hh b List.mem_cons_self
    unfold blocksFrom
    rw [if_pos (by unfold Block.stop at hb; omega), blockAfter_of_header hhb h32 h16 hb.2.1 hlt]
    dsimp only
    rw [← hhb.eq_blockAt]
    exact congrArg (b :: ·) (ih hrest (fun c hc => hh c (List.mem_cons_of_mem _ hc)) (by simpa using hl))

theorem listFrom_linked {as : List ℕ} (hc : LinkedFrom (nextFree m) a as) (hl : as.length ≤ left) :
    listFrom m left a = as := by
  induction as generalizing a left with
  | nil =>
    rw [LinkedFrom.nil_iff.mp hc]
    unfold listFrom
    rw [if_pos rfl]
  | cons c as ih =>
    obtain ⟨rfl, h0, hrest⟩ := hc
    obtain ⟨n, rfl⟩ : ∃ n, left = n+1 := ⟨left-1, by simp only [List.length_cons] at hl; omega⟩
    unfold listFrom
    rw [if_neg h0]
    exact congrArg (a :: ·) (ih hrest (by simpa using hl))

theorem Sane.blockChain_eq (h : Sane s bs l) : blockChain s = bs := by
  have hend := h.linked.geometry.segmentEnd_eq
  unfold blockChain
  rw [hend]
  exact blocksFrom_tiles h.linked.tiles h.linked.headers h.linked.geometry.end_lt h.linked.length_lt.1

theorem Sane.freeList_eq (h : Sane s bs l) : freeList s = l.map Block.addr := by
  have h1 := h.linked.length_le
  have h2 := h.linked.length_lt.1
  exact listFrom_linked h.linked.chain (by rw [List.length_map]; omega)

/-! A coalesced tiling is determined by its allocated blocks. -/

instance : Std.Irrefl Block.SizeAddrLt := ⟨Block.SizeAddrLt.irrefl⟩

instance : Std.Antisymm Block.SizeAddrLt := ⟨fun _ _ h h' => absurd (h.trans h') (Block.SizeAddrLt.irrefl _)⟩

/-- The free block in front of a coalesced tiling ends where the first allocated block begins, so
it cannot be shorter than that of a tiling with the same allocated blocks. -/
theorem Tiles.free_head_le {b b' : Block} {n n' : ℕ} (ht : Tiles (a+n) e bs) (hco : Coalesced (b :: bs))
    (hf : b.free = true) (ht' : Tiles (a+n') e bs') (hf' : b'.free = true)
    (hall : ∀ d : Block, d.free = false → d ∈ b :: bs → d ∈ b' :: bs') : n' ≤ n := by
  by_contra hlt
  cases bs with
  | nil =>
    have h1 := Tiles.nil_iff.mp ht
    have h2 := ht'.le
    omega
  | cons d bs =>
    -- the block behind the shorter free block is allocated, and would lie inside the longer one
    have hd : d.free = false := by
      have := (List.isChain_cons_cons.mp hco).1
      simpa [hf] using this
    have hmem := hall d hd (by simp)
    rcases List.mem_cons.mp hmem with rfl | hmem
    · rw [hf'] at hd
      cases hd
    · have h1 := (ht'.bounds hmem).1
      have h2 := ht.1
      omega

theorem Tiles.eq_of_allocated (ht : Tiles a e bs) (ht' : Tiles a e bs') (hco : Coalesced bs) (hco' : Coalesced bs')
    (hall : ∀ d : Block, d.free = false → (d ∈ bs ↔ d ∈ bs')) : bs = bs' := by
  induction bs generalizing a bs' with
  | nil =>
    cases bs' with
    | nil => rfl
    | cons b' bs' =>
      have h1 := Tiles.nil_iff.mp ht
      have h2 := ht'.2.2.2.le
      have h3 := ht'.2.1
      omega
  | cons b bs ih =>
    cases bs' with
    | nil =>
      have h1 := Tiles.nil_iff.mp ht'
      have h2 := ht.2.2.2.le
      have h3 := ht.2.1
      omega
    | cons b' bs' =>
      have hb := ht.bounds List.mem_cons_self
      have hb' := ht'.bounds List.mem_cons_self
      have hsame : b.addr = b'.addr := ht.1.trans ht'.1.symm
      -- two free blocks that begin together end together: the next allocated one, or the end, is the same for both
      have heq : b = b' := by
        cases hf : b.free with
        | false => exact ht'.eq_of_addr ((hall b hf).mp List.mem_cons_self) List.mem_cons_self hsame
        | true =>
          cases hf' : b'.free with
          | false =>
            have := ht.eq_of_addr ((hall b' hf').mpr List.mem_cons_self) List.mem_cons_self hsame.symm
            rw [this, hf] at hf'
            cases hf'
          | true =>
            have h1 := Tiles.free_head_le ht.2.2.2 hco hf ht'.2.2.2 hf' fun d hd => (hall d hd).mp
            have h2 := Tiles.free_head_le ht'.2.2.2 hco' hf' ht.2.2.2 hf fun d hd => (hall d hd).mpr
            obtain ⟨x, n, f⟩ := b
            obtain ⟨x', n', f'⟩ := b'
            dsimp only at *
            rw [hsame, hf, hf', show n = n' by omega]
      subst heq
      refine congrArg (b :: ·) (ih ht.2.2.2 ht'.2.2.2 hco.tail hco'.tail fun d hd => ?_)
      -- behind the first block both chains have the same allocated blocks still
      have hiff := hall d hd
      rw [List.mem_cons, List.mem_cons] at hiff
      constructor
      · intro hm
        refine (hiff.mp (Or.inr hm)).resolve_left ?_
        rintro rfl
        have h1 := (ht.2.2.2.bounds hm).1
        have h2 := ht.1
        have h3 := ht.2.1
        omega
      · intro hm
        refine (hiff.mpr (Or.inr hm)).resolve_left ?_
        rintro rfl
        have h1 := (ht'.2.2.2.bounds hm).1
        have h2 := ht.1
        have h3 := ht.2.1
        omega

/-- The full invariant leaves one chain and one free list for given allocated blocks. -/
theorem WellFormed.eq_of_allocated (h : WellFormed s bs l) (h' : WellFormed s' bs' l') (hfirst : s'.first = s.first)
    (hend : s'.segmentBegin+s'.segmentSize = s.segmentBegin+s.segmentSize)
    (hall : ∀ d : Block, d.free = false → (d ∈ bs ↔ d ∈ bs')) : bs' = bs ∧ l' = l := by
  have ht' := h'.linked.tiles
  rw [hfirst, hend] at ht'
  have hbs := h.linked.tiles.eq_of_allocated ht' h.coalesced h'.coalesced hall
  subst hbs
  refine ⟨rfl, h'.sorted.eq_of_mem_iff h.sorted fun d => ?_⟩
  exact ⟨fun hd => h.exact d (h'.linked.listed d hd).1 (h'.linked.listed d hd).2,
    fun hd => h'.exact d (h.linked.listed d hd).1 (h.linked.listed d hd).2⟩

theorem Sane.chain_unique (h : Sane s bs l) (h' : Sane s bs' l') : bs' = bs :=
  h'.blockChain_eq.symm.trans h.blockChain_eq

/-! Calls that leave given allocations alone. -/

/-- The call frees and expands none of the allocations `old`. -/
def Call.Spares (g : Heap) (old : List LiveAlloc) : Call → Prop
  | .allocate _ _ => True
  | .deallocate p => ∀ a ∈ old, a.payload ≠ p
  | .tryExpand p n al => ∀ a ∈ old, TrustsHeader g.alloc p → headerBlock g.alloc.mem p = a.block →
      ∀ c, (ShmNext.tryExpand p n al).run g.alloc ≠ (.ok true, c)
  | _ => False

/-- Each call of the run is an `allocate`, `deallocate` or `try_expand` that spares `old`. -/
def Heap.RunSpares (old : List LiveAlloc) : Heap → List Call → Prop
  | _, [] => True
  | g, call :: calls => call.Spares g old ∧ ∀ g', g.exec call = some g' → Heap.RunSpares old g' calls

/-- `old` is live throughout, and its blocks stay in the chain as they were. -/
structure Spared (old : List LiveAlloc) (bs : List Block) (g' : Heap) : Prop where
  live : ∀ a ∈ old, a ∈ g'.live
  chain : ∀ b ∈ bs, b.free = false → (∃ a ∈ old, a.block = b.addr) → b ∈ blockChain g'.alloc

section Step
variable {old : List LiveAlloc} {lost : ℕ → Prop} {n al p : ℕ}

/-- A call that only counts. -/
theorem HeapInv.spared_of_counters (h : HeapInv lost g.alloc g.live bs l) (hc : CountersOnly g.alloc g'.alloc)
    (hlive : ∀ a ∈ old, a ∈ g'.live) : Spared old bs g' := by
  refine ⟨hlive, fun b hb _ _ => ?_⟩
  rw [(h.toSane.counters hc).blockChain_eq]
  exact hb

theorem HeapInv.spared_allocate (h : HeapInv lost g.alloc g.live bs l) (hold : ∀ a ∈ old, a ∈ g.live)
    (hadm : g.Admissible (.allocate n al)) (hexec : g.exec (.allocate n al) = some g') : Spared old bs g' := by
  unfold Heap.exec at hexec
  dsimp only at hexec
  by_cases hn : n = 0
  · subst hn
    rw [Sane.allocate_zero] at hexec
    obtain rfl := Option.some.inj hexec
    exact h.spared_of_counters ⟨_, rfl⟩ hold
  cases ha : normalizeAlignment al with
  | none =>
    obtain ⟨d, -, hrun, -⟩ := allocate_hang (s := g.alloc) hn ha
    rw [hrun] at hexec
    cases hexec
  | some A =>
    cases hfind : l.find? (fun b => fits g.alloc.mem n A b.addr) with
    | none =>
      obtain ⟨-, e, c, hrun, -, hc⟩ := h.throws_allocate (Nat.pos_of_ne_zero hn) ha hfind
      rw [hrun] at hexec
      obtain rfl := Option.some.inj hexec
      exact h.spared_of_counters hc hold
    | some b =>
      have hfit := hadm.2.layoutFits h.toSane ha hfind
      obtain ⟨hb, us, vs, rfl, hus⟩ := List.find?_eq_some_iff_append.mp hfind
      have hbl := h.linked.listed b (by simp)
      obtain ⟨xs, ys, rfl⟩ := List.append_of_mem hbl.1
      obtain ⟨-, p, c, hrun, hc⟩ := h.toSane.runs_allocate (Nat.pos_of_ne_zero hn) hadm.1 ha (by simpa using hus) hb hfit
        (C := fun _ => True) (Q := fun _ c => Sane c (handedOut xs b _ ys) _) (fun _ _ => trivial) fun _ _ hc _ => hc
      rw [hrun] at hexec
      obtain rfl := Option.some.inj hexec
      refine ⟨fun a ha => List.mem_append_right _ (hold a ha), fun d hd hdf _ => ?_⟩
      rw [hc.blockChain_eq]
      exact (HeapInv.mem_handedOut hbl.2 hdf).mpr (Or.inr hd)

theorem HeapInv.spared_deallocate (h : HeapInv lost g.alloc g.live bs l) (hold : ∀ a ∈ old, a ∈ g.live)
    (hadm : g.Admissible (.deallocate p)) (hspare : (Call.deallocate p).Spares g old)
    (hexec : g.exec (.deallocate p) = some g') : Spared old bs g' := by
  have hkeep : ∀ a ∈ old, a ∈ g.live.filter (·.payload ∉ [p]) := fun a ha =>
    List.mem_filter.mpr ⟨hold a ha, by simpa using hspare a ha⟩
  unfold Heap.exec at hexec
  dsimp only at hexec
  by_cases hp : p = 0
  · subst hp
    rw [deallocate_null] at hexec
    obtain rfl := Option.some.inj hexec
    exact h.spared_of_counters ⟨_, rfl⟩ hkeep
  rcases hadm.resolve_left hp with ⟨a, ha, rfl⟩ | hno
  · obtain ⟨b, hb, hh⟩ := h.placed a ha
    obtain ⟨-, _, c, hrun, bs', l', hc, hall⟩ := h.toWellFormed.runs_deallocate hb hh.allocated hh.namesBlock
      (C := fun _ => True) (Q := fun _ c => Freed bs b c) (fun _ _ => trivial) fun _ _ hc => hc
    rw [hrun] at hexec
    obtain rfl := Option.some.inj hexec
    refine ⟨hkeep, fun d hd hdf hown => ?_⟩
    have hchain : blockChain (g.release c [a.payload]).alloc = bs' := hc.toSane.blockChain_eq
    rw [hchain]
    refine (hall d hdf).mpr ⟨hd, ?_⟩
    -- the freed block would have two live allocations
    rintro rfl
    obtain ⟨a', ha', heq⟩ := hown
    have := h.block_unique (hold a' ha') ha (heq.trans hh.addr)
    exact hspare a' ha' (congrArg LiveAlloc.payload this)
  · obtain ⟨-, e, c, hrun, -, hc⟩ := h.toSane.throws_deallocate hp fun b hb hf hn => hno (h.trusts_iff.mpr ⟨b, hb, hf, hn⟩)
    rw [hrun] at hexec
    obtain rfl := Option.some.inj hexec
    exact h.spared_of_counters hc hold

theorem HeapInv.spared_tryExpand (h : HeapInv lost g.alloc g.live bs l) (hold : ∀ a ∈ old, a ∈ g.live)
    (hspare : (Call.tryExpand p n al).Spares g old) (hexec : g.exec (.tryExpand p n al) = some g') : Spared old bs g' := by
  unfold Heap.exec at hexec
  dsimp only at hexec
  by_cases hrefused : p = 0 ∨ n = 0 ∨ ∀ b ∈ bs, b.free = false → ¬ NamesBlock g.alloc.mem p b
  · obtain ⟨-, r, c, hrun, rfl, hc⟩ := h.toSane.runs_tryExpand_refused (a := al) hrefused
    rw [hrun] at hexec
    obtain rfl := Option.some.inj hexec
    exact h.spared_of_counters hc hold
  simp only [not_or, not_forall, not_not] at hrefused
  obtain ⟨-, hn, b, hb, hf, hnames⟩ := hrefused
  have htrust := h.trusts_iff.mpr ⟨b, hb, hf, hnames⟩
  cases ha : normalizeAlignment al with
  | none =>
    obtain ⟨d, -, hrun, -⟩ := h.toSane.tryExpand_hang hb hf hnames (Nat.pos_of_ne_zero hn) ha
    rw [hrun] at hexec
    cases hexec
  | some A =>
    obtain ⟨xs, ys, rfl⟩ := List.append_of_mem hb
    obtain ⟨-, r, c, hrun, hc⟩ := h.toWellFormed.runs_tryExpand hf hnames (Nat.pos_of_ne_zero hn) ha (C := fun _ => True)
      (Q := fun r c => if r then ∃ k, Expanded (xs ++ b :: ys) b k c else CountersOnly g.alloc c)
      (fun _ _ => trivial) (fun _ _ hc => hc) fun _ _ => ⟨fun _ _ _ => trivial, fun _ _ hc => ⟨_, hc⟩⟩
    rw [hrun] at hexec
    cases r with
    | false =>
      obtain rfl := Option.some.inj hexec
      exact h.spared_of_counters hc hold
    | true =>
      obtain rfl := Option.some.inj hexec
      obtain ⟨k, bs', l', size, hwf, -, hall⟩ := hc
      have hne : ∀ a ∈ old, a.block ≠ b.addr := fun a ha heq =>
        hspare a ha htrust (hnames.2.2.1.trans heq.symm) c hrun
      refine ⟨fun a ha => List.mem_map.mpr ⟨a, hold a ha, if_neg ?_⟩, fun d hd hdf ⟨a, ha, heq⟩ => ?_⟩
      · -- an old payload at `p` would have its block named by the header
        rintro rfl
        obtain ⟨d, hd, hh⟩ := h.placed a (hold a ha)
        exact hne a ha (hh.header.block_eq.symm.trans hnames.2.2.1)
      · have hchain : blockChain c = bs' := hwf.toSane.blockChain_eq
        dsimp only
        rw [hchain]
        refine (hall d hdf).mpr (Or.inr ⟨hd, ?_⟩)
        rintro rfl
        exact hne a ha heq

/-- One call that spares `old`. -/
theorem HeapInv.spared_step {call : Call} (h : HeapInv lost g.alloc g.live bs l) (hold : ∀ a ∈ old, a ∈ g.live)
    (hadm : g.Admissible call) (hspare : call.Spares g old) (hexec : g.exec call = some g') : Spared old bs g' := by
  cases call with
  | allocate n al => exact h.spared_allocate hold hadm hexec
  | deallocate p => exact h.spared_deallocate hold hadm hspare hexec
  | tryExpand p n al => exact h.spared_tryExpand hold hspare hexec
  | _ => exact hspare.elim

end Step

theorem Call.Spares.not_resizing {old : List LiveAlloc} {call : Call} (h : call.Spares g old) :
    (∀ n, call ≠ .grow n) ∧ call ≠ .shrinkToFit := by
  refine ⟨?_, ?_⟩
  · rintro n rfl
    exact h
  · rintro rfl
    exact h

/-- A run that spares `old`: the header fields, the allocations and their blocks are as before. -/
theorem Reachable.spared_run {old : List LiveAlloc} {calls : List Call} (h : Reachable g) (hold : ∀ a ∈ old, a ∈ g.live)
    (hrun : g.runCalls calls = some g') (hspare : g.RunSpares old calls) :
    (g'.alloc.place = g.alloc.place ∧ g'.alloc.segmentSize = g.alloc.segmentSize) ∧ Spared old (blockChain g.alloc) g' := by
  induction calls generalizing g with
  | nil =>
    obtain rfl := Option.some.inj hrun
    exact ⟨⟨rfl, rfl⟩, hold, fun b hb _ _ => hb⟩
  | cons call calls ih =>
    unfold Heap.runCalls at hrun
    split at hrun
    · rename_i hadm
      obtain ⟨d, hexec, hrest⟩ := Option.bind_eq_some_iff.mp hrun
      obtain ⟨hcall, hnext⟩ := hspare
      obtain ⟨bs, l, hinv⟩ := h.inv
      have hstep := hinv.spared_step hold hadm hcall hexec
      have hfields := Heap.exec_fields hexec hcall.not_resizing.1 hcall.not_resizing.2
      obtain ⟨⟨h1, h2⟩, h3, h4⟩ := ih (h.step call hadm hexec) hstep.live hrest (hnext d hexec)
      refine ⟨⟨h1.trans hfields.1, h2.trans hfields.2⟩, h3, fun b hb hf hown => ?_⟩
      rw [hinv.toSane.blockChain_eq] at hb
      exact h4 b (hstep.chain b hb hf hown) hf hown
    · cases hrun

/-- `all_memory_deallocated()`. -/
def allMemoryDeallocated (s : Allocator) : Bool :=
  if s.first = 0 then false
  else blockIsFree s.mem s.first && blockSize s.mem s.first == sub64 s.segmentEnd s.first &&
    nextFree s.mem s.first == 0 && s.head == s.first

/-- The loop of `get_free_memory()`; `none` when the list never ends. -/
def freeMemoryLoop (m : Mem) : ℕ → ℕ → ℕ → Option ℕ
  | fuel, curr, freeMem =>
    if curr = 0 then some freeMem
    else match fuel with
      | 0 => none
      | fuel+1 => freeMemoryLoop m fuel (nextFree m curr) (add64 freeMem (sub64 (blockSize m curr) blockHeaderSize))

def getFreeMemory (s : Allocator) : Option ℕ := freeMemoryLoop s.mem walkFuel s.head 0

/-- A segment of one free block. -/
theorem Sane.oneFree (h : Sane s [b] l) (hf : b.free = true) : allMemoryDeallocated s = true ∧
    getFreeMemory s = some (s.segmentBegin+s.segmentSize-s.first-32) := by
  have hb := h.linked.mem_bounds (List.mem_singleton_self b)
  have hg := h.linked.geometry
  have hlt := hg.end_lt
  have hfirst : b.addr = s.first := h.linked.tiles.1
  have hend : s.first+b.size = s.segmentBegin+s.segmentSize := h.linked.tiles.2.2.2
  have hheader := h.linked.headers b (List.mem_singleton_self b)
  have hsize := hheader.1
  have hfree := hheader.isFree
  have hl : l = [b] := by
    have hmem := h.exact b (List.mem_singleton_self b) hf
    have hlen := h.linked.length_le
    obtain ⟨d, rfl⟩ := List.length_eq_one_iff.mp (le_antisymm hlen (List.length_pos_of_mem hmem))
    rw [List.mem_singleton.mp hmem]
  subst hl
  obtain ⟨hhead, hpos, hnext⟩ := h.linked.chain
  have hnext0 : nextFree s.mem b.addr = 0 := hnext
  rw [hfirst] at hhead hpos hnext0 hsize hfree
  refine ⟨?_, ?_⟩
  · have hsub : sub64 s.segmentEnd s.first = b.size := by
      rw [hg.segmentEnd_eq]
      unfold sub64
      omega
    unfold allMemoryDeallocated
    rw [if_neg hpos, hfree, hsize, hsub, hnext0, hhead, hf]
    simp
  · have hsum : add64 0 (sub64 b.size blockHeaderSize) = s.segmentBegin+s.segmentSize-s.first-32 := by
      unfold add64 sub64 blockHeaderSize
      omega
    unfold getFreeMemory walkFuel
    rw [hhead, show 2^64 = (2^64-1)+1 from rfl, freeMemoryLoop, if_neg hpos, hnext0, hsize, hsum]
    unfold freeMemoryLoop
    rw [if_pos rfl]

/-- With nothing allocated there is one block, and it is free. -/
theorem HeapInv.one_block {lost : ℕ → Prop} (h : HeapInv lost s [] bs l) (hlost : ∀ x, ¬ lost x)
    (hroom : s.first < s.segmentBegin+s.segmentSize) : ∃ b : Block, bs = [b] ∧ b.free = true := by
  have hfree : ∀ b ∈ bs, b.free = true := by
    intro b hb
    by_contra hf
    rcases h.owned b hb (by simpa using hf) with hl | ⟨a, ha, -⟩
    · exact hlost _ hl
    · cases ha
  match bs, h, hfree with
  | [], h, _ =>
    have := Tiles.nil_iff.mp h.linked.tiles
    omega
  | [b], _, hfree => exact ⟨b, rfl, hfree b (by simp)⟩
  | b :: d :: bs, h, hfree => exact absurd ⟨hfree b (by simp), hfree d (by simp)⟩ (List.isChain_cons_cons.mp h.coalesced).1

/-- Two segments of one size with one place for the first block; the manager header between
`segment_base` and `first_block` has the same size in both. -/
structure SameSegment (s s' : Allocator) : Prop where
  first : s'.first = s.first
  size : s'.segmentSize = s.segmentSize
  header : s'.first-s'.segmentBegin = s.first-s.segmentBegin

theorem SameSegment.limit_eq (h : SameSegment s s') (hg : Geometry s) (hg' : Geometry s') :
    s'.segmentBegin+s'.segmentSize = s.segmentBegin+s.segmentSize := by
  have h1 := hg.self_below
  have h2 := hg.self_ge
  have h3 := hg'.self_below
  have h4 := hg'.self_ge
  have h5 := h.first
  have h6 := h.size
  have h7 := h.header
  omega

/-- The blocks, their flags and the free list of a reachable state are those of any other with the
same segment and the same allocated blocks. A run that frees all it has allocated and expands
nothing older brings them back, and with nothing allocated the segment is as after `initialize`. -/
theorem canonical_state (h : Reachable g) :
    (∀ g', Reachable g' → SameSegment g.alloc g'.alloc →
      (∀ addr size, ⟨addr, size, false⟩ ∈ blockChain g'.alloc ↔ ⟨addr, size, false⟩ ∈ blockChain g.alloc) →
      blockChain g'.alloc = blockChain g.alloc ∧ freeList g'.alloc = freeList g.alloc) ∧
    (∀ calls g', g.runCalls calls = some g' → g.RunSpares g.live calls → (∀ a ∈ g'.live, a ∈ g.live) →
      blockChain g'.alloc = blockChain g.alloc ∧ freeList g'.alloc = freeList g.alloc) ∧
    (g.live = [] → allMemoryDeallocated g.alloc = true ∧ ∀ s base headerSize totalSize c,
      FreshSegment s base headerSize totalSize → (initializeAllocator base headerSize totalSize).run s = (.ok (), c) →
      c.segmentSize = g.alloc.segmentSize → c.first-c.segmentBegin = g.alloc.first-g.alloc.segmentBegin →
      getFreeMemory g.alloc = getFreeMemory c ∧ getFreeMemory c ≠ none) := by
  obtain ⟨bs, l, hinv⟩ := h.inv
  have hchain := hinv.toSane.blockChain_eq
  have hlist := hinv.toSane.freeList_eq
  have hdetermined : ∀ g', Reachable g' → SameSegment g.alloc g'.alloc →
      (∀ addr size, ⟨addr, size, false⟩ ∈ blockChain g'.alloc ↔ ⟨addr, size, false⟩ ∈ blockChain g.alloc) →
      blockChain g'.alloc = blockChain g.alloc ∧ freeList g'.alloc = freeList g.alloc := by
    intro g' h' hseg hall
    obtain ⟨bs', l', hinv'⟩ := h'.inv
    rw [hinv'.toSane.blockChain_eq, hinv'.toSane.freeList_eq, hchain, hlist]
    rw [hinv'.toSane.blockChain_eq, hchain] at hall
    obtain ⟨rfl, rfl⟩ := hinv.toWellFormed.eq_of_allocated hinv'.toWellFormed hseg.first
      (hseg.limit_eq hinv.linked.geometry hinv'.linked.geometry) fun d hd => by
        obtain ⟨addr, size, free⟩ := d
        obtain rfl : free = false := hd
        exact (hall addr size).symm
    exact ⟨rfl, rfl⟩
  refine ⟨hdetermined, fun calls g' hrun hspare hfreed => ?_, fun hlive => ?_⟩
  · have h' := h.runCalls hrun
    obtain ⟨bs', l', hinv'⟩ := h'.inv
    obtain ⟨⟨hplace, hsize⟩, hlive, hkept⟩ := h.spared_run (fun a ha => ha) hrun hspare
    obtain ⟨hf, hb⟩ := place_eq hplace
    have hin : ∀ b ∈ bs, b.free = false → b ∈ bs' := by
      intro b hb hbf
      rw [hchain, hinv'.toSane.blockChain_eq] at hkept
      exact hkept b hb hbf ((hinv.owned b hb hbf).resolve_left id)
    refine hdetermined g' h' ⟨hf, hsize, by rw [hf, hb]⟩ fun addr size => ?_
    rw [hinv'.toSane.blockChain_eq, hchain]
    refine ⟨fun hm => ?_, fun hm => hin _ hm rfl⟩
    -- an allocated block is owned, by an allocation that was there before
    obtain ⟨a, ha, haddr⟩ := (hinv'.owned _ hm rfl).resolve_left id
    obtain ⟨d, hd, hh⟩ := hinv.placed a (hfreed a ha)
    have := hinv'.linked.addr_inj (hin d hd hh.allocated) hm (hh.addr.trans haddr)
    exact this ▸ hd
  · rw [hlive] at hinv
    obtain ⟨b, rfl, hf⟩ := hinv.one_block (fun _ => id) h.room
    obtain ⟨hall, hfree⟩ := hinv.toSane.oneFree hf
    refine ⟨hall, fun s base headerSize totalSize c hs hrun hsize hheader => ?_⟩
    obtain ⟨-, _, c', hrun', d, hd, hwf⟩ := hs.runs_initialize
    rw [hrun] at hrun'
    obtain rfl := (Prod.ext_iff.mp hrun').2
    obtain ⟨-, hfree'⟩ := hwf.toSane.oneFree hd
    have hg := hinv.linked.geometry
    have hg' := hwf.linked.geometry
    have h1 := hg.self_below
    have h2 := hg.self_ge
    have h3 := hg'.self_below
    have h4 := hg'.self_ge
    dsimp only at hg' h3 h4 hfree'
    rw [hfree, hfree']
    refine ⟨congrArg some ?_, by simp⟩
    omega

/-- Handing a payload out and taking it back on a segment with a live allocation, and a fresh segment. -/
theorem canonical_state_mixedHeap : (∃ g', mixedHeap.runCalls [.allocate 40 64, .deallocate 4288] = some g' ∧
      blockChain g'.alloc = blockChain mixedHeap.alloc ∧ freeList g'.alloc = freeList mixedHeap.alloc) ∧
    allMemoryDeallocated smallHeap.alloc = true := by
  have hsome : (mixedHeap.runCalls [.allocate 40 64, .deallocate 4288]).isSome = true := by decide +kernel
  have hlive : ∀ h : (mixedHeap.runCalls [.allocate 40 64, .deallocate 4288]).isSome = true,
      ∀ a ∈ ((mixedHeap.runCalls [.allocate 40 64, .deallocate 4288]).get h).live, a ∈ mixedHeap.live := by decide +kernel
  have hother : ∀ a ∈ mixedHeap.live, a.payload ≠ 4288 := by decide +kernel
  have hmixed : Reachable mixedHeap := smallRun_reachable _ _
  refine ⟨⟨_, (Option.some_get hsome).symm, ?_⟩, ((canonical_state smallHeap_reachable).2.2 rfl).1⟩
  exact (canonical_state hmixed).2.1 _ _ (Option.some_get hsome).symm
    ⟨trivial, fun _ _ => ⟨hother, fun _ _ => trivial⟩⟩ (hlive hsome)

end ShmNext
