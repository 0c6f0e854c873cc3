import ShmNext.AllocatorMachine

/-! The header fields that say where the segment lies: only `grow` and `shrink_to_fit` store one
of them, and they leave room for a block. -/
namespace ShmNext
open Prog

variable {s c : Allocator} {g g' : Heap} {bs l : List Block} {γ : Type} {φ : Allocator → γ}

/-- `φ` reads neither the bytes nor the list head, and of the counters only how many calls of `allocate` there were. -/
structure ReadsCalls (φ : Allocator → γ) : Prop where
  mem : ∀ s m, φ { s with mem := m } = φ s
  head : ∀ s w, φ { s with freeListHead := w } = φ s
  calls : ∀ s k, k.allocateCalls = s.counters.allocateCalls → φ { s with counters := k } = φ s

namespace ReadsCalls
variable (h : ReadsCalls φ)
include h

theorem storeMem (f : Mem → Mem) : (ShmNext.storeMem f).Keeps φ := keeps_store fun _ => h.mem _ _

theorem count {f : Counters → Counters} (hf : ∀ k, (f k).allocateCalls = k.allocateCalls) : (ShmNext.count f).Keeps φ :=
  keeps_store fun _ => h.calls _ _ (hf _)

theorem storePointer (self ptr : ℕ) : (ShmNext.storePointer self ptr).Keeps φ := by
  unfold ShmNext.storePointer
  cases setPointer self ptr with
  | none => exact keeps_throw _
  | some w => exact h.storeMem _

theorem setFreeListHead (block : ℕ) : (ShmNext.setFreeListHead block).Keeps φ := by
  unfold ShmNext.setFreeListHead
  refine keeps_get_bind fun s => ?_
  cases setPointer (s.self+24) block with
  | none => exact keeps_throw _
  | some w => exact keeps_store fun _ => h.head _ _

theorem removeFreeBlockAfter (prev target : ℕ) : (ShmNext.removeFreeBlockAfter prev target).Keeps φ := by
  unfold ShmNext.removeFreeBlockAfter
  refine keeps_get_bind fun s => ?_
  dsimp only
  split
  · exact (h.storePointer _ _).bind fun _ => h.storePointer _ _
  · exact (h.setFreeListHead _).bind fun _ => h.storePointer _ _

theorem removeFreeBlock (target : ℕ) : (ShmNext.removeFreeBlock target).Keeps φ := by
  unfold ShmNext.removeFreeBlock
  refine keeps_get_bind fun s => ?_
  split
  · exact keeps_hang
  · split
    · exact keeps_pure _
    · exact h.removeFreeBlockAfter _ _

theorem insertFreeBlock (block : ℕ) : (ShmNext.insertFreeBlock block).Keeps φ := by
  unfold ShmNext.insertFreeBlock
  refine keeps_get_bind fun s => ?_
  dsimp only
  split
  · exact keeps_hang
  · refine (h.storePointer _ _).bind fun _ => ?_
    split
    · exact h.storePointer _ _
    · exact h.setFreeListHead _

theorem splitAllocatedBlock (block used : ℕ) : (ShmNext.splitAllocatedBlock block used).Keeps φ := by
  unfold ShmNext.splitAllocatedBlock
  refine keeps_get_bind fun s => ?_
  dsimp only
  split
  · exact keeps_pure _
  · exact (h.count (by exact fun _ => rfl)).bind fun _ => (h.storeMem _).bind fun _ => (h.storeMem _).bind fun _ =>
      (h.storePointer _ _).bind fun _ => (h.storeMem _).bind fun _ => h.insertFreeBlock _

/-- `allocate` counts its call, and nothing that it does afterwards is read. -/
theorem allocate (size al : ℕ) (s : Allocator) : φ ((ShmNext.allocate size al).run s).2 =
    φ { s with counters := { s.counters with allocateCalls := add64 s.counters.allocateCalls 1 } } := by
  have hkept : ∀ (p : Op ℕ) d, p.Keeps φ → φ (p.run d).2 = φ d := fun p d hp => hp d
  unfold ShmNext.allocate
  rw [run_count_bind]
  refine hkept _ _ ?_
  split
  · exact keeps_pure _
  split
  · exact keeps_hang
  refine keeps_get_bind fun s => ?_
  split
  · exact keeps_hang
  split
  · exact (h.count (by exact fun _ => rfl)).bind fun _ => keeps_throw _
  · exact (h.removeFreeBlockAfter _ _).bind fun _ => (h.splitAllocatedBlock _ _).bind fun _ =>
      (h.storeMem _).bind fun _ => (h.storePointer _ _).bind fun _ => (h.storePointer _ _).bind fun _ =>
      (h.storeMem _).bind fun _ => keeps_pure _

theorem deallocateBlock (block : ℕ) : (ShmNext.deallocateBlock block).Keeps φ := by
  have hnext : (mergeNext block).Keeps φ := by
    unfold mergeNext
    refine keeps_get_bind fun s => ?_
    dsimp only
    split
    · exact (h.removeFreeBlock _).bind fun _ => keeps_get_bind fun _ => (h.storeMem _).bind fun _ => h.count (by exact fun _ => rfl)
    · exact keeps_pure _
  have hprev : (mergePrevious block).Keeps φ := by
    unfold mergePrevious
    refine keeps_get_bind fun s => ?_
    dsimp only
    split
    · exact (h.removeFreeBlock _).bind fun _ => keeps_get_bind fun _ => (h.storeMem _).bind fun _ =>
        (h.count (by exact fun _ => rfl)).bind fun _ => keeps_pure _
    · exact keeps_pure _
  unfold ShmNext.deallocateBlock
  exact (h.storeMem _).bind fun _ => (h.storePointer _ _).bind fun _ => hnext.bind fun _ => hprev.bind fun _ =>
    (h.storeMem _).bind fun _ => (h.storePointer _ _).bind fun _ => h.insertFreeBlock _

theorem deallocate (ptr : ℕ) : (ShmNext.deallocate ptr).Keeps φ := by
  unfold ShmNext.deallocate
  refine (h.count (by exact fun _ => rfl)).bind fun _ => ?_
  split
  · exact keeps_pure _
  refine keeps_get_bind fun s => ?_
  dsimp only
  split
  · exact keeps_throw _
  split
  · exact keeps_throw _
  split
  · exact keeps_throw _
  · exact h.deallocateBlock _

theorem deallocateMany (ps : List ℕ) : (ShmNext.deallocateMany ps).Keeps φ :=
  (h.count (by exact fun _ => rfl)).bind fun _ => keeps_forM h.deallocate _

theorem tryExpand (ptr newSize al : ℕ) : (ShmNext.tryExpand ptr newSize al).Keeps φ := by
  have hfail : expandFailure.Keeps φ := (h.count (by exact fun _ => rfl)).bind fun _ => keeps_pure _
  have hsuccess : expandSuccess.Keeps φ := (h.count (by exact fun _ => rfl)).bind fun _ => keeps_pure _
  unfold ShmNext.tryExpand
  refine (h.count (by exact fun _ => rfl)).bind fun _ => keeps_get_bind fun s => ?_
  dsimp only
  split
  · exact hfail
  split
  · exact hfail
  split
  · exact keeps_hang
  split
  · exact hfail
  unfold expandBlock
  refine keeps_get_bind fun s => ?_
  dsimp only
  split
  · exact (h.storeMem _).bind fun _ => hsuccess
  split
  · exact hfail
  split
  · exact hfail
  · exact (h.removeFreeBlock _).bind fun _ => (h.storeMem _).bind fun _ => (h.splitAllocatedBlock _ _).bind fun _ =>
      (h.storeMem _).bind fun _ => hsuccess

theorem zeroFreeMemory : ShmNext.zeroFreeMemory.Keeps φ := by
  have hloop : ∀ fuel curr, (zeroFreeLoop fuel curr).Keeps φ := by
    intro fuel
    induction fuel with
    | zero =>
      intro curr
      unfold zeroFreeLoop
      split
      · exact keeps_pure _
      · exact keeps_hang
    | succ n ih =>
      intro curr
      unfold zeroFreeLoop
      split
      · exact keeps_pure _
      · exact (h.storeMem _).bind fun _ => keeps_get_bind fun _ => ih _
  exact keeps_get_bind fun s => hloop _ _

end ReadsCalls

/-- `φ` reads none of the counters either. -/
structure ReadsFields (φ : Allocator → γ) : Prop extends ReadsCalls φ where
  counters : ∀ s k, φ { s with counters := k } = φ s

namespace ReadsFields
variable (h : ReadsFields φ)
include h

theorem allocate (size al : ℕ) : (ShmNext.allocate size al).Keeps φ := fun s => (h.toReadsCalls.allocate size al s).trans (h.counters _ _)

theorem allocateMany (size n al : ℕ) : (ShmNext.allocateMany size n al).Keeps φ := by
  unfold ShmNext.allocateMany
  refine (h.count (by exact fun _ => rfl)).bind fun _ => ?_
  suffices hloop : ∀ out, (allocateManyLoop size al n out).Keeps φ from hloop []
  induction n with
  | zero => exact fun out => keeps_pure _
  | succ n ih =>
    intro out
    unfold allocateManyLoop
    refine (h.allocate _ _).attempt.bind fun r => ?_
    cases r with
    | ok p => exact ih _
    | error e => exact (keeps_forM h.deallocate _).bind fun _ => keeps_pure _

end ReadsFields

/-- Where the segment lies. -/
def Allocator.place (s : Allocator) : ℕ × ℕ × ℕ := (s.self, s.segmentBase, s.firstBlock)

theorem readsFields_place : ReadsFields Allocator.place := ⟨⟨fun _ _ => rfl, fun _ _ => rfl, fun _ _ _ => rfl⟩, fun _ _ => rfl⟩

theorem readsFields_size : ReadsFields Allocator.segmentSize := ⟨⟨fun _ _ => rfl, fun _ _ => rfl, fun _ _ _ => rfl⟩, fun _ _ => rfl⟩

theorem place_eq (h : c.place = s.place) : c.first = s.first ∧ c.segmentBegin = s.segmentBegin := by
  simp only [Allocator.place, Prod.mk.injEq] at h
  unfold Allocator.first Allocator.segmentBegin
  rw [h.1, h.2.1, h.2.2]
  exact ⟨rfl, rfl⟩

/-- `grow` moves the end of the segment up, or leaves it. -/
theorem grow_fields (n : ℕ) (s : Allocator) : ((grow n).run s).2.place = s.place ∧
    s.segmentSize ≤ ((grow n).run s).2.segmentSize := by
  unfold grow
  rw [run_get_bind]
  dsimp only
  split
  · exact ⟨rfl, le_rfl⟩
  rename_i hlt
  unfold setSegmentSize
  rw [run_store_bind, run_get_bind]
  -- the rest of both successful branches stores none of the fields
  have hkept : ∀ p : Op Bool, (∀ {δ : Type} {ψ : Allocator → δ}, ReadsFields ψ → p.Keeps ψ) →
      (p.run { s with segmentSize := alignDown n alignment }).2.place = s.place ∧
      s.segmentSize ≤ (p.run { s with segmentSize := alignDown n alignment }).2.segmentSize := by
    intro p hp
    exact ⟨hp readsFields_place _, (not_le.mp hlt).le.trans_eq (hp readsFields_size { s with segmentSize := alignDown n alignment }).symm⟩
  split
  · exact hkept _ fun h => (h.removeFreeBlock _).bind fun _ => keeps_get_bind fun _ => (h.storeMem _).bind fun _ =>
      (h.insertFreeBlock _).bind fun _ => keeps_pure _
  split
  · exact ⟨rfl, le_rfl⟩
  · exact hkept _ fun h => (h.storeMem _).bind fun _ => (h.storeMem _).bind fun _ => (h.storePointer _ _).bind fun _ =>
      (h.insertFreeBlock _).bind fun _ => keeps_pure _

/-- `p` ends with the place of the segment as it was, and its size as it was or `k`. -/
def SetsSize (k : ℕ) {α : Type} (p : Op α) : Prop :=
  ∀ s, (p.run s).2.place = s.place ∧ ((p.run s).2.segmentSize = k ∨ (p.run s).2.segmentSize = s.segmentSize)

theorem setsSize_setSegmentSize {α : Type} (k : ℕ) (a : α) : SetsSize k (do setSegmentSize k; pure a : Op α) :=
  fun _ => ⟨rfl, Or.inl rfl⟩

theorem SetsSize.after {α β : Type} {k : ℕ} {p : Op α} {f : α → Op β} (hf : ∀ a, SetsSize k (f a))
    (hp : ∀ {δ : Type} {ψ : Allocator → δ}, ReadsFields ψ → p.Keeps ψ) : SetsSize k (p >>= f) := by
  intro s
  have hplace := hp readsFields_place s
  have hsize := hp readsFields_size s
  rw [run_bind]
  rcases hr : p.run s with ⟨a | _ | _, c⟩ <;> rw [hr] at hplace hsize
  · rw [← hplace, ← hsize]
    exact hf a c
  · exact ⟨hplace, Or.inr hsize⟩
  · exact ⟨hplace, Or.inr hsize⟩

/-- `shrink_to_fit` leaves room for a block behind the manager header. -/
theorem shrinkToFit_fields (h : Sane s bs l) (hroom : s.first < s.segmentBegin+s.segmentSize) :
    (shrinkToFit.run s).2.place = s.place ∧
      s.first < s.segmentBegin+(shrinkToFit.run s).2.segmentSize := by
  have hset : ∀ {k : ℕ} {p : Op ℕ}, SetsSize k p → s.first < s.segmentBegin+k →
      (p.run s).2.place = s.place ∧ s.first < s.segmentBegin+(p.run s).2.segmentSize := by
    intro k p hp hk
    obtain ⟨h1, h2⟩ := hp s
    exact ⟨h1, by omega⟩
  unfold shrinkToFit
  rw [run_get_bind, h.lastBlock_eq]
  dsimp only
  -- nothing is cut where there is no block, or the last one is allocated
  by_cases hstay : lastAddr bs = 0 ∨ blockIsFree s.mem (lastAddr bs) = false
  · rw [if_pos hstay]
    exact ⟨rfl, hroom⟩
  rw [if_neg hstay]
  obtain ⟨xs, t, rfl⟩ : ∃ xs t, bs = xs ++ [t] := by
    rcases List.eq_nil_or_concat bs with rfl | ⟨xs, t, rfl⟩
    · exact absurd (Or.inl lastAddr_nil) hstay
    · exact ⟨xs, t, List.concat_eq_append⟩
  have htb := h.linked.mem_bounds (show t ∈ xs ++ [t] by simp)
  have hg := h.linked.geometry
  have hend := hg.end_lt
  have hself := hg.self_below
  have hbegin := hg.self_ge
  unfold Block.stop at htb
  have hsub : sub64 t.addr s.segmentBegin = t.addr-s.segmentBegin := by unfold sub64; omega
  rw [lastAddr_append, hsub]
  -- the only block keeps a header and one unit, any other goes as a whole
  by_cases hfirst : t.addr = s.first
  · rw [if_pos hfirst]
    by_cases hsmall : blockSize s.mem t.addr ≤ blockHeaderSize+alignment
    · rw [if_pos hsmall]
      exact ⟨rfl, hroom⟩
    have hadd : add64 (t.addr-s.segmentBegin) (blockHeaderSize+alignment) = t.addr-s.segmentBegin+48 := by
      rw [(h.linked.headers t (by simp)).1] at hsmall
      unfold add64 blockHeaderSize alignment at *
      omega
    rw [if_neg hsmall, if_pos (by decide), hadd]
    refine hset (k := t.addr-s.segmentBegin+48) ?_ (by omega)
    refine SetsSize.after (fun _ => ?_) fun h => h.removeFreeBlock _
    refine SetsSize.after (fun _ => ?_) fun h => h.storeMem _
    refine SetsSize.after (fun _ => ?_) fun h => h.storeMem _
    refine SetsSize.after (fun _ => ?_) fun h => h.storePointer _ _
    exact SetsSize.after (fun _ => setsSize_setSegmentSize _ _) fun h => h.insertFreeBlock _
  · rw [if_neg hfirst]
    by_cases hsmall : blockSize s.mem t.addr ≤ 0
    · rw [if_pos hsmall]
      exact ⟨rfl, hroom⟩
    have hadd : add64 (t.addr-s.segmentBegin) 0 = t.addr-s.segmentBegin := by unfold add64; omega
    rw [if_neg hsmall, if_neg (by decide), hadd]
    exact hset (SetsSize.after (fun _ => setsSize_setSegmentSize _ _) fun h => h.removeFreeBlock _) (by omega)

/-- A call other than `grow` and `shrink_to_fit` stores none of the fields. -/
theorem Heap.exec_fields {call : Call} (hexec : g.exec call = some g') (hgrow : ∀ n, call ≠ .grow n)
    (hshrink : call ≠ .shrinkToFit) : g'.alloc.place = g.alloc.place ∧ g'.alloc.segmentSize = g.alloc.segmentSize := by
  have hkept : ∀ {α : Type} (p : Op α), (∀ {δ : Type} {ψ : Allocator → δ}, ReadsFields ψ → p.Keeps ψ) →
      g'.alloc = (p.run g.alloc).2 → g'.alloc.place = g.alloc.place ∧ g'.alloc.segmentSize = g.alloc.segmentSize := by
    intro α p hp heq
    rw [heq]
    exact ⟨hp readsFields_place _, hp readsFields_size _⟩
  unfold Heap.exec at hexec
  cases call with
  | allocate n al =>
    refine hkept _ (fun h => h.allocate n al) ?_
    dsimp only at hexec
    split at hexec <;> rename_i hrun <;> rw [hrun] <;> first | (obtain rfl := Option.some.inj hexec; rfl) | cases hexec
  | allocateMany n k al =>
    refine hkept _ (fun h => h.allocateMany n k al) ?_
    dsimp only at hexec
    split at hexec <;> rename_i hrun <;> first | (rw [hrun]; obtain rfl := Option.some.inj hexec; rfl) | cases hexec
  | deallocate p =>
    refine hkept _ (fun h => h.deallocate p) ?_
    dsimp only at hexec
    split at hexec <;> rename_i hrun <;> rw [hrun] <;> first | (obtain rfl := Option.some.inj hexec; rfl) | cases hexec
  | deallocateMany ps =>
    refine hkept _ (fun h => h.deallocateMany ps) ?_
    dsimp only at hexec
    split at hexec <;> rename_i hrun <;> first | (rw [hrun]; obtain rfl := Option.some.inj hexec; rfl) | cases hexec
  | tryExpand p n al =>
    refine hkept _ (fun h => h.tryExpand p n al) ?_
    dsimp only at hexec
    split at hexec <;> rename_i hrun <;> rw [hrun] <;> first | (obtain rfl := Option.some.inj hexec; rfl) | cases hexec
  | grow n => exact absurd rfl (hgrow n)
  | shrinkToFit => exact absurd rfl hshrink
  | zeroFreeMemory =>
    refine hkept _ (fun h => h.zeroFreeMemory) ?_
    dsimp only at hexec
    split at hexec
    · cases hexec
    · rename_i hrun
      obtain rfl := Option.some.inj hexec
      rw [hrun]
  | userWrite x v =>
    obtain rfl := Option.some.inj hexec
    exact ⟨rfl, rfl⟩

theorem Heap.exec_grow {n : ℕ} (hexec : g.exec (.grow n) = some g') : g'.alloc = ((grow n).run g.alloc).2 := by
  unfold Heap.exec at hexec
  dsimp only at hexec
  split at hexec
  · cases hexec
  · rename_i hrun
    obtain rfl := Option.some.inj hexec
    rw [hrun]

theorem Heap.exec_shrinkToFit (hexec : g.exec .shrinkToFit = some g') : g'.alloc = (shrinkToFit.run g.alloc).2 := by
  unfold Heap.exec at hexec
  dsimp only at hexec
  split at hexec
  · cases hexec
  · rename_i hrun
    obtain rfl := Option.some.inj hexec
    rw [hrun]

/-- The segment of a reachable state never becomes too short for a block. -/
theorem Reachable.room {g : Heap} (h : Reachable g) : g.alloc.first < g.alloc.segmentBegin+g.alloc.segmentSize := by
  induction h with
  | fresh hs hrun =>
    obtain ⟨-, _, c, hrun', b, -, hwf⟩ := hs.runs_initialize
    rw [hrun] at hrun'
    obtain rfl := (Prod.ext_iff.mp hrun').2
    have hb := hwf.linked.mem_bounds (List.mem_singleton_self b)
    unfold Block.stop at hb
    dsimp only at hb ⊢
    omega
  | @step g g' call hg _ hexec ih =>
    obtain ⟨bs, l, hinv⟩ := hg.inv
    by_cases hgrow : ∃ n, call = .grow n
    · obtain ⟨n, rfl⟩ := hgrow
      obtain ⟨h1, h2⟩ := grow_fields n g.alloc
      rw [← Heap.exec_grow hexec] at h1 h2
      rw [(place_eq h1).1, (place_eq h1).2]
      omega
    by_cases hshrink : call = .shrinkToFit
    · subst hshrink
      obtain ⟨h1, h2⟩ := shrinkToFit_fields hinv.toSane ih
      rw [← Heap.exec_shrinkToFit hexec] at h1 h2
      rw [(place_eq h1).1, (place_eq h1).2]
      exact h2
    · obtain ⟨h1, h2⟩ := Heap.exec_fields hexec (fun n hn => hgrow ⟨n, hn⟩) hshrink
      rw [(place_eq h1).1, (place_eq h1).2, h2]
      exact ih

end ShmNext
