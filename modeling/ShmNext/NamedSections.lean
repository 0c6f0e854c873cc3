import ShmNext.NamedStorage

/-! What the critical sections of the manager do to the lists of entries, and the steps between them to the elements. -/
namespace ShmNext
open Prog NamedObjectRegistry NamedOp NamedWorld SharedMemoryManager

variable {w w' : NamedWorld} {E : Buckets} {e : NamedEntry} {p q i pid count : ℕ} {g₀ : Heap} {kept : List LiveAlloc}
  {mine : List (ℕ × ℕ)} {h : NamedObjectHeader} {T : NamedType} {name : List UInt8} {F : NamedThrown → NamedWorld → Prop}

/-- The entry of an object none of whose elements has been constructed. -/
def NamedEntry.fresh (T : NamedType) (pid : ℕ) (name : List UInt8) (count object header nameAt : ℕ) : NamedEntry :=
  ⟨header, object, nameAt, name, count, T.size, T.typeHash, pid, .constructing, []⟩

/-- The cells with the blocks of `e` filled in. -/
def NamedEntry.cells (e : NamedEntry) (cell : ℕ → Option NamedCell) (next : ℕ) : ℕ → Option NamedCell :=
  Function.update (Function.update (Function.update cell e.object (some (.object (e.count*e.size) e.alive))) e.nameAt (some (.name e.name)))
    e.header (some (.header (e.record next)))

theorem NamedEntry.cells_of_not_mem {cell : ℕ → Option NamedCell} {next : ℕ} (hq : q ∉ e.addresses) : e.cells cell next q = cell q := by
  simp only [NamedEntry.addresses, List.mem_cons, List.not_mem_nil, or_false, not_or] at hq
  unfold NamedEntry.cells
  rw [Function.update_of_ne hq.2.1, Function.update_of_ne hq.1, Function.update_of_ne hq.2.2]

theorem NamedWorld.shows_cells {cell : ℕ → Option NamedCell} {next : ℕ} (hnd : e.addresses.Nodup) (hw : w.cell = e.cells cell next) :
    w.Shows e ∧ w.next e.header = next := by
  simp only [NamedEntry.addresses, List.nodup_cons, List.mem_cons, List.not_mem_nil, or_false, not_or, not_false_eq_true,
    List.nodup_nil, and_true] at hnd
  have hheader : w.cell e.header = some (.header (e.record next)) := by
    rw [hw]
    exact Function.update_self ..
  have hnext : w.next e.header = next := next_of_header hheader
  refine ⟨⟨by rw [hnext]; exact hheader, ?_, ?_⟩, hnext⟩
  · rw [hw]
    unfold NamedEntry.cells
    rw [Function.update_of_ne hnd.1.1, Function.update_self]
  · rw [hw]
    unfold NamedEntry.cells
    rw [Function.update_of_ne (Ne.symm hnd.2), Function.update_of_ne (Ne.symm hnd.1.2), Function.update_self]

/-- There is one more entry, in blocks that held nothing. -/
structure NamedWorld.Reserved (w : NamedWorld) (E : Buckets) (e : NamedEntry) (w' : NamedWorld) : Prop where
  lists : w'.Lists (E.add e)
  empty : ∀ q ∈ e.addresses, w.cell q = none
  frame : ∀ q, q ∉ e.addresses → w'.cell q = w.cell q
  next : w'.next e.header = w.buckets e.bucket
  same : w' = { w with
    heap := w'.heap, cell := w'.cell, buckets := Function.update w.buckets e.bucket e.header, totalCount := w.totalCount+1 }

namespace NamedObjectRegistry

theorem run_insert (hw : w.cell p = some (.header h)) :
    (insert p).run w = (.ok (), { w with
      cell := Function.update w.cell p (some (.header { h with next := w.buckets (bucketIndex h.nameHash) }))
      buckets := Function.update w.buckets (bucketIndex h.nameHash) p
      totalCount := w.totalCount+1
      readyCount := w.readyCount+(if h.state = .ready then 1 else 0) }) := by
  unfold insert
  rw [run_bind_ok (run_readHeader hw)]
  change (modifyHeader p (fun g => { g with next := w.buckets (bucketIndex h.nameHash) }) >>= _).run w = _
  rw [run_bind_ok (run_modifyHeader hw)]
  change Prog.run (if h.state = .ready then _ else _) _ = _
  by_cases hstate : h.state = .ready
  · rw [if_pos hstate, if_pos hstate]
    rfl
  · rw [if_neg hstate, if_neg hstate]
    rfl

end NamedObjectRegistry

namespace SharedMemoryManager

/-- The blocks of the new entry are filled in, and it is linked into its bucket. -/
theorem ends_fillStorage {object header nameAt : ℕ} (hlists : w.Lists E)
    (hs : w.Stocked g₀ kept ((NamedEntry.fresh T pid name count object header nameAt).blocks ++ mine))
    (hempty : ∀ q ∈ (NamedEntry.fresh T pid name count object header nameAt).addresses, w.cell q = none)
    (hnew : ∀ x ∈ E.entries, x.name ≠ name) :
    (fillStorage T pid name count (count*T.size) object header nameAt).Ends w
      (fun r w' => r = ⟨header, object, 0⟩ ∧ w.Reserved E (.fresh T pid name count object header nameAt) w' ∧
        w'.Stocked g₀ kept ((NamedEntry.fresh T pid name count object header nameAt).blocks ++ mine)) F := by
  set e := NamedEntry.fresh T pid name count object header nameAt with he
  have hnd : e.addresses.Nodup := by
    have hdistinct := hs.holding.distinct
    rw [List.map_append, e.map_blocks] at hdistinct
    exact (List.nodup_append.mp hdistinct).1
  -- every entry shows in its blocks, and these held nothing
  have hapart : ∀ x ∈ E.entries, ∀ q ∈ x.addresses, q ∉ e.addresses := by
    intro x hx q hq hq'
    have hsx := hlists.shows x hx
    have hnone := hempty q hq'
    simp only [NamedEntry.addresses, List.mem_cons, List.not_mem_nil, or_false] at hq
    rcases hq with rfl | rfl | rfl
    · rw [hsx.name] at hnone
      cases hnone
    · rw [hsx.header] at hnone
      cases hnone
    · rw [hsx.object] at hnone
      cases hnone
  -- the stores to the three blocks are one change of the cells, with the link still null
  have hrun : (fillStorage T pid name count (count*T.size) object header nameAt).run w =
      (insert header >>= fun _ => pure ⟨header, object, 0⟩).run { w with cell := e.cells w.cell 0 } := rfl
  obtain ⟨w', hw', hcell, hsame⟩ : ∃ w', (insert header).run { w with cell := e.cells w.cell 0 } = (.ok (), w') ∧
      w'.cell = e.cells w.cell (w.buckets e.bucket) ∧ w' = { w with
        cell := w'.cell, buckets := Function.update w.buckets e.bucket e.header, totalCount := w.totalCount+1 } := by
    refine ⟨_, run_insert (h := e.record 0) (Function.update_self ..), ?_, rfl⟩
    exact Function.update_idem ..
  have hshows := NamedWorld.shows_cells hnd hcell
  have hframe : ∀ q, q ∉ e.addresses → w'.cell q = w.cell q := fun q hq => by rw [hcell, NamedEntry.cells_of_not_mem hq]
  refine ends_of_ok (hrun.trans (run_bind_ok hw' _)) ⟨rfl, ⟨?_, hempty, hframe, hshows.2, ?_⟩, ?_⟩
  · refine hlists.add hshows.1 (hs.ne_zero (r := (header, namedObjectHeaderSize)) ?_) hshows.2 hframe ?_ ?_ ?_ hnew hapart hnd
    · simp [he, NamedEntry.blocks, NamedEntry.fresh]
    · rw [hsame]
    · rw [hsame]
    · rw [hsame]
      rfl
  · have hheap : w'.heap = w.heap := (congrArg NamedWorld.heap hsame).trans rfl
    rw [hheap]
    exact hsame
  · exact hs.withEntry ((congrArg NamedWorld.heap hsame).trans rfl) hshows.1 hframe

/-- What `reserve_named_storage` returns for a name: the entry that has it, or a new one. -/
inductive Reserves (g₀ : Heap) (kept : List LiveAlloc) (mine : List (ℕ × ℕ)) (w : NamedWorld) (E : Buckets) (T : NamedType) (pid : ℕ)
    (name : List UInt8) (count : ℕ) (returnExistingReady : Bool) : NamedReservation → NamedWorld → Prop
  | taken {e : NamedEntry} (he : e ∈ E.entries) (hname : e.name = name) (hnot : ¬(returnExistingReady = true ∧ e.state = .ready)) :
    Reserves g₀ kept mine w E T pid name count returnExistingReady ⟨0, 0, 0⟩ w
  | found {e : NamedEntry} (he : e ∈ E.entries) (hname : e.name = name) (hready : returnExistingReady = true ∧ e.state = .ready)
    (htype : e.size = T.size ∧ e.typeHash = T.typeHash) :
    Reserves g₀ kept mine w E T pid name count returnExistingReady ⟨0, 0, e.object⟩ w
  | reserved {object header nameAt : ℕ} {w' : NamedWorld} (hnew : ∀ e ∈ E.entries, e.name ≠ name)
    (hres : w.Reserved E (.fresh T pid name count object header nameAt) w')
    (hst : w'.Stocked g₀ kept ((NamedEntry.fresh T pid name count object header nameAt).blocks ++ mine)) :
    Reserves g₀ kept mine w E T pid name count returnExistingReady ⟨header, object, 0⟩ w'

/-- A call that throws before there is an entry has left the lists alone, and the whole world if the name is taken. -/
structure ReserveThrows (g₀ : Heap) (kept : List LiveAlloc) (mine : List (ℕ × ℕ)) (w : NamedWorld) (E : Buckets)
    (name : Option (List UInt8)) (w' : NamedWorld) : Prop where
  only : w.OnlyHeap w'
  stocked : w'.Stocked g₀ kept mine
  taken : (∃ e ∈ E.entries, name = some e.name) → w' = w

theorem run_validateNamedType {next : ℕ} :
    (validateNamedType T (e.record next)).run w = (if e.size = T.size ∧ e.typeHash = T.typeHash then .ok ()
      else .error (.manager (.interprocess .namedObjectTypeMismatch)), w) := by
  unfold validateNamedType
  change Prog.run (if e.size ≠ T.size ∨ e.typeHash ≠ T.typeHash then _ else _) w = _
  by_cases htype : e.size = T.size ∧ e.typeHash = T.typeHash
  · rw [if_neg (not_or.mpr ⟨not_not.mpr htype.1, not_not.mpr htype.2⟩), if_pos htype]
    rfl
  · rw [if_pos (not_and_or.mp htype), if_neg htype]
    rfl

theorem ends_reserveUnlocked {returnExistingReady : Bool} (hlists : w.Lists E) (hs : w.Stocked g₀ kept mine)
    (hroom : NamedRoom g₀ T name count) (hcount : 0 < count) (hmax : count ≤ (2^64-1)/T.size) :
    (reserveUnlocked T pid name count (count*T.size) returnExistingReady).Ends w
      (Reserves g₀ kept mine w E T pid name count returnExistingReady)
      fun err w' => err ≠ .element ∧ ReserveThrows g₀ kept mine w E (some name) w' := by
  have hfuel := (hlists.length_lt hs).le
  unfold reserveUnlocked
  -- storage is allocated only for a name that has not been found
  rcases run_findAny hlists hfuel name with ⟨e, he, hname, hrun⟩ | ⟨hnone, hrun⟩
  · have hse := hlists.shows e he
    have hdone : ReserveThrows g₀ kept mine w E (some name) w := ⟨.refl w, hs, fun _ => rfl⟩
    unfold Prog.Ends
    rw [run_bind_ok hrun, if_pos (hlists.header_ne_zero he), run_bind_ok (run_readHeader hse.header)]
    by_cases hready : returnExistingReady = true ∧ e.state = .ready
    · rw [if_pos (show returnExistingReady = true ∧ (e.record (w.next e.header)).state = .ready from hready)]
      have hvalid := @run_validateNamedType w e T (w.next e.header)
      by_cases htype : e.size = T.size ∧ e.typeHash = T.typeHash
      · rw [if_pos htype] at hvalid
        rw [run_bind_ok hvalid]
        exact .found he hname hready htype
      · rw [if_neg htype] at hvalid
        rw [run_bind_error hvalid]
        exact ⟨fun heq => (by cases heq), hdone⟩
    · rw [if_neg (show ¬(returnExistingReady = true ∧ (e.record (w.next e.header)).state = .ready) from hready)]
      exact .taken he hname hready
  · unfold Prog.Ends
    rw [run_bind_ok hrun, if_neg (fun hne => hne rfl)]
    obtain ⟨A, hal⟩ := T.normalizes
    have hstorage := ends_allocateStorage hs (Nat.mul_pos hcount T.size_pos) hal (hroom.object hmax) hroom.header hroom.name
    refine (hstorage.mono (fun r w₁ hq => hq) fun err w₁ hq => ?_).bind fun r w₁ hq => ?_
    · rw [hq.1]
      exact ⟨fun heq => (by cases heq), hq.2.1, hq.2.2, fun ⟨x, hx, hxname⟩ => absurd (Option.some.inj hxname).symm (hnone x hx)⟩
    obtain ⟨object, header, nameAt⟩ := r
    obtain ⟨hobject, hheader, hnameAt, honly, hst⟩ := hq
    have hempty : ∀ q ∈ (NamedEntry.fresh T pid name count object header nameAt).addresses, w₁.cell q = none := by
      intro q hq
      rw [honly.cell]
      simp only [NamedEntry.addresses, NamedEntry.fresh, List.mem_cons, List.not_mem_nil, or_false] at hq
      rcases hq with rfl | rfl | rfl
      · exact hnameAt
      · exact hheader
      · exact hobject
    refine (ends_fillStorage (F := fun _ _ => False) (hlists.onlyHeap honly) hst hempty hnone).mono (fun r w' hq => ?_)
      fun _ _ hfalse => hfalse.elim
    obtain ⟨rfl, hres, hst'⟩ := hq
    refine .reserved hnone ⟨hres.lists, fun q hq => ?_, fun q hq => ?_, ?_, ?_⟩ hst'
    · rw [← honly.cell]
      exact hres.empty q hq
    · rw [hres.frame q hq, honly.cell]
    · rw [hres.next, honly.buckets]
    · rw [hres.same, honly]

theorem ends_reserveNamedStorage {name : Option (List UInt8)} {returnExistingReady : Bool} (hlists : w.Lists E)
    (hs : w.Stocked g₀ kept mine) (hroom : ∀ bytes, name = some bytes → NamedRoom g₀ T bytes count) :
    (reserveNamedStorage T pid name count returnExistingReady).Ends w
      (fun r w' => ∃ bytes, name = some bytes ∧ 0 < count ∧ Reserves g₀ kept mine w E T pid bytes count returnExistingReady r w')
      fun err w' => err ≠ .element ∧ ReserveThrows g₀ kept mine w E name w' := by
  have hdone : ∀ err, NamedThrown.manager err ≠ .element ∧ ReserveThrows g₀ kept mine w E name w := fun _ =>
    ⟨fun heq => (by cases heq), .refl w, hs, fun _ => rfl⟩
  unfold reserveNamedStorage
  rcases name with _ | ⟨_ | ⟨b, bytes⟩⟩
  · exact hdone _
  · exact hdone _
  change (checkedObjectBytes T count >>= fun objectBytes =>
    reserveUnlocked T pid (b :: bytes) count objectBytes returnExistingReady).Ends w _ _
  unfold checkedObjectBytes
  by_cases hcount : count = 0
  · rw [if_pos hcount]
    exact hdone _
  rw [if_neg hcount]
  by_cases hmax : (2^64-1)/T.size < count
  · rw [if_pos hmax]
    exact hdone _
  rw [if_neg hmax]
  have hpos := Nat.pos_of_ne_zero hcount
  refine ends_pure_bind ((ends_reserveUnlocked hlists hs (hroom _ rfl) hpos (not_lt.mp hmax)).mono (fun r w' hr => ?_) fun _ _ he => he)
  exact ⟨_, rfl, hpos, hr⟩

end SharedMemoryManager

/-- The entry `e` is gone with its blocks. -/
structure NamedWorld.Released (w : NamedWorld) (E : Buckets) (e : NamedEntry) (w' : NamedWorld) : Prop where
  lists : w'.Lists (E.remove e.header)
  cleared : ∀ q ∈ e.addresses, w'.cell q = none
  frame : ∀ q, q ∉ e.addresses → (∀ x ∈ E.entries, x.header ≠ q) → w'.cell q = w.cell q
  first : ∀ l, E e.bucket = e :: l →
    w'.buckets = Function.update w.buckets e.bucket (w.next e.header) ∧ ∀ q, q ∉ e.addresses → w'.cell q = w.cell q
  same : w' = { w with
    heap := w'.heap, cell := w'.cell, buckets := w'.buckets, readyCount := w'.readyCount, totalCount := w'.totalCount }
  freed : w'.heap.freed = e.object :: e.header :: e.nameAt :: w.heap.freed

namespace SharedMemoryManager

/-- Three blocks are given back, whatever is in them. -/
theorem ends_deallocateBlocks (hs : w.Stocked g₀ kept (e.blocks ++ mine)) :
    (do
      NamedOp.deallocate e.nameAt
      NamedOp.deallocate e.header
      NamedOp.deallocate e.object : NamedOp Unit).Ends w
      (fun _ w' => w'.Stocked g₀ kept mine ∧ (∀ q ∈ e.addresses, w'.cell q = none) ∧ (∀ q, q ∉ e.addresses → w'.cell q = w.cell q) ∧
        w' = { w with heap := w'.heap, cell := w'.cell } ∧ w'.heap.freed = e.object :: e.header :: e.nameAt :: w.heap.freed) F := by
  refine (ends_deallocate hs).bind fun _ w₁ ⟨honly₁, hs₁, hf₁⟩ => (ends_deallocate hs₁).bind fun _ w₂ ⟨honly₂, hs₂, hf₂⟩ =>
    (ends_deallocate hs₂).mono (fun _ w₃ ⟨honly₃, hs₃, hf₃⟩ => ?_) fun _ _ he => he
  have hcell : w₃.cell =
      Function.update (Function.update (Function.update w.cell e.nameAt none) e.header none) e.object none := by
    rw [honly₃.cell]
    change Function.update w₂.cell _ _ = _
    rw [honly₂.cell]
    change Function.update (Function.update w₁.cell _ _) _ _ = _
    rw [honly₁.cell]
  refine ⟨hs₃, fun q hq => ?_, fun q hq => ?_, ?_, ?_⟩
  · rw [hcell]
    simp only [NamedEntry.addresses, List.mem_cons, List.not_mem_nil, or_false] at hq
    by_cases hqo : q = e.object
    · rw [hqo, Function.update_self]
    rw [Function.update_of_ne hqo]
    by_cases hqh : q = e.header
    · rw [hqh, Function.update_self]
    rw [Function.update_of_ne hqh]
    rcases hq with rfl | rfl | rfl
    · exact Function.update_self ..
    · exact absurd rfl hqh
    · exact absurd rfl hqo
  · rw [hcell]
    simp only [NamedEntry.addresses, List.mem_cons, List.not_mem_nil, or_false, not_or] at hq
    rw [Function.update_of_ne hq.2.2, Function.update_of_ne hq.2.1, Function.update_of_ne hq.1]
  · rw [honly₃, honly₂, honly₁]
  · rw [hf₃, hf₂, hf₁]

/-- An entry goes out of the registry, and its blocks go back to the allocator. -/
theorem ends_deallocateNamedStorageUnlocked (hlists : w.Lists E) (he : e ∈ E.entries) (hs : w.Stocked g₀ kept (e.blocks ++ mine)) :
    (deallocateNamedStorageUnlocked e.header).Ends w (fun _ w' => w.Released E e w' ∧ w'.Stocked g₀ kept mine) F := by
  have hse := hlists.shows e he
  obtain ⟨w₁, hunlink, hun⟩ := run_unlink hlists (hlists.length_lt hs).le he
  have hheap : w₁.heap = w.heap := (congrArg NamedWorld.heap hun.same).trans rfl
  have hs₁ : w₁.Stocked g₀ kept (e.blocks ++ mine) := hs.of_extents hheap hun.extents
  -- the header is destroyed before its block is given back
  obtain ⟨w₂, hcell₂, hsame₂⟩ : ∃ w₂ : NamedWorld, w₂.cell = Function.update w₁.cell e.header none ∧ w₂ = { w₁ with cell := w₂.cell } :=
    ⟨{ w₁ with cell := Function.update w₁.cell e.header none }, rfl, rfl⟩
  have hs₂ : w₂.Stocked g₀ kept (e.blocks ++ mine) := by
    refine hs₁.withCell ((congrArg NamedWorld.heap hsame₂).trans rfl) fun q c hq => Or.inl ⟨c, ?_, rfl⟩
    rw [hcell₂] at hq
    have hqe : q ≠ e.header := by
      rintro rfl
      rw [Function.update_self] at hq
      cases hq
    rwa [Function.update_of_ne hqe] at hq
  unfold deallocateNamedStorageUnlocked
  rw [if_neg (hlists.header_ne_zero he)]
  unfold Prog.Ends
  rw [run_bind_ok (run_readHeader hse.header), run_bind_ok hunlink]
  have hstore : (setCell e.header none).run w₁ = (.ok (), w₂) := by
    rw [hsame₂, hcell₂]
    rfl
  rw [run_bind_ok hstore]
  refine (ends_deallocateBlocks hs₂).mono (fun _ w₃ ⟨hs₃, hclear, hframe, hsame, hfreed⟩ => ?_) fun _ _ he => he
  have hcell : ∀ q, q ∉ e.addresses → w₃.cell q = w₁.cell q := by
    intro q hq
    have hqe : q ≠ e.header := fun heq => hq (heq ▸ e.header_mem)
    rw [hframe q hq, hcell₂, Function.update_of_ne hqe]
  refine ⟨⟨?_, hclear, fun q hq hx => (hcell q hq).trans (hun.frame q hx), fun l hl => ⟨?_, fun q hq => ?_⟩, ?_, ?_⟩, hs₃⟩
  · refine hun.lists.congr (fun x hx q hq => hcell q ?_) ?_ ?_ ?_
    · rw [Buckets.entries_remove] at hx
      exact hlists.elsewhere he (List.mem_of_mem_filter hx) (of_decide_eq_true (List.mem_filter.mp hx).2) q hq
    · rw [hsame, hsame₂]
    · rw [hsame, hsame₂]
    · rw [hsame, hsame₂]
  · rw [hsame, hsame₂]
    exact (hun.first l hl).1
  · rw [hcell q hq]
    exact (hun.first l hl).2 q fun heq => hq (heq ▸ e.header_mem)
  · rw [hsame, hsame₂, hun.same]
  · rw [hfreed, hsame₂, hheap]

end SharedMemoryManager

/-! An entry in the next phase of its life. -/

namespace NamedEntry

def publish (e : NamedEntry) : NamedEntry := { e with owner := 0, state := .ready }

def withAlive (alive : List ℕ) (e : NamedEntry) : NamedEntry := { e with alive := alive }

theorem sameObject_publish (e : NamedEntry) : e.SameObject e.publish := ⟨rfl, rfl, rfl, rfl, rfl, rfl⟩

theorem sameObject_withAlive {alive : List ℕ} (e : NamedEntry) : e.SameObject (e.withAlive alive) := ⟨rfl, rfl, rfl, rfl, rfl, rfl⟩

end NamedEntry

/-- The entry `e` has become `f e`. -/
structure NamedWorld.Altered (w : NamedWorld) (E : Buckets) (e : NamedEntry) (f : NamedEntry → NamedEntry) (w' : NamedWorld) : Prop where
  lists : w'.Lists (E.alter e.header f)
  frame : ∀ q, q ≠ e.header → q ≠ e.object → w'.cell q = w.cell q
  extents : ∀ q, (w'.cell q).map NamedCell.extent = (w.cell q).map NamedCell.extent
  next : w'.next e.header = w.next e.header
  same : w' = { w with
    cell := w'.cell, readyCount := w'.readyCount, constructions := w'.constructions, events := w'.events }

theorem NamedWorld.Altered.stocked {f : NamedEntry → NamedEntry} (h : w.Altered E e f w') (hs : w.Stocked g₀ kept mine) :
    w'.Stocked g₀ kept mine := hs.of_extents ((congrArg NamedWorld.heap h.same).trans rfl) h.extents

theorem NamedWorld.Lists.altered {f : NamedEntry → NamedEntry} (h : w.Lists E) (he : e ∈ E.entries) (hsame : e.SameObject (f e))
    (hheader : w'.cell e.header = some (.header ((f e).record (w.next e.header))))
    (hobject : w'.cell e.object = some (.object (e.count*e.size) (f e).alive))
    (hframe : ∀ q, q ≠ e.header → q ≠ e.object → w'.cell q = w.cell q)
    (hready : w'.readyCount+(if e.state = .ready then 1 else 0) = w.readyCount+(if (f e).state = .ready then 1 else 0))
    (hw : w' = { w with
      cell := w'.cell, readyCount := w'.readyCount, constructions := w'.constructions, events := w'.events }) : w.Altered E e f w' := by
  refine ⟨h.alter he hsame hheader hobject hframe ((congrArg NamedWorld.buckets hw).trans rfl)
    ((congrArg NamedWorld.totalCount hw).trans rfl) hready, hframe, fun q => ?_, next_of_header hheader, hw⟩
  have hse := h.shows e he
  by_cases hqh : q = e.header
  · rw [hqh, hheader, hse.header]
    rfl
  by_cases hqo : q = e.object
  · rw [hqo, hobject, hse.object]
    rfl
  rw [hframe q hqh hqo]

/-- The header has changed, and nothing else. -/
theorem NamedWorld.Lists.altered_header {f : NamedEntry → NamedEntry} {n : ℕ} (h : w.Lists E) (he : e ∈ E.entries)
    (hsame : e.SameObject (f e)) (halive : (f e).alive = e.alive)
    (hready : n+(if e.state = .ready then 1 else 0) = w.readyCount+(if (f e).state = .ready then 1 else 0)) :
    w.Altered E e f { w with
      cell := Function.update w.cell e.header (some (.header ((f e).record (w.next e.header)))), readyCount := n } := by
  have hse := h.shows e he
  have hnd := h.nodup_addresses he
  have hoh : e.object ≠ e.header := by
    rintro heq
    simp [NamedEntry.addresses, heq] at hnd
  refine h.altered he hsame (Function.update_self ..) ?_ (fun q hqh _ => Function.update_of_ne hqh _ _) hready rfl
  rw [halive]
  exact (Function.update_of_ne hoh _ _).trans hse.object

/-- The storage of the object has changed, and nothing else. -/
theorem NamedWorld.Lists.altered_object {alive : List ℕ} {k : ℕ} {events : List ElementEvent} (h : w.Lists E) (he : e ∈ E.entries) :
    w.Altered E e (NamedEntry.withAlive alive) { w with
      cell := Function.update w.cell e.object (some (.object (e.count*e.size) alive)), constructions := k, events := events } := by
  have hse := h.shows e he
  have hnd := h.nodup_addresses he
  have hho : e.header ≠ e.object := by
    rintro heq
    simp [NamedEntry.addresses, heq] at hnd
  refine h.altered he e.sameObject_withAlive ?_ (Function.update_self ..) (fun q _ hqo => Function.update_of_ne hqo _ _) rfl rfl
  exact (Function.update_of_ne hho _ _).trans hse.header

namespace NamedObjectRegistry

theorem run_markReady (hw : w.cell p = some (.header h)) (hstate : h.state ≠ .ready) :
    (markReady p).run w = (.ok (), { w with
      cell := Function.update w.cell p (some (.header { h with state := .ready })), readyCount := w.readyCount+1 }) := by
  unfold markReady
  rw [run_bind_ok (run_readHeader hw), if_pos hstate, run_bind_ok (run_modifyHeader hw)]
  rfl

end NamedObjectRegistry

namespace SharedMemoryManager

/-- The object can be found from now on. -/
theorem ends_markNamedObjectReady (hlists : w.Lists E) (he : e ∈ E.entries) (hstate : e.state ≠ .ready) :
    (markNamedObjectReady e.header).Ends w
      (fun _ w' => w.Altered E e NamedEntry.publish w' ∧ w'.events = w.events ∧ w'.constructions = w.constructions) F := by
  have hse := hlists.shows e he
  have hrun : (markNamedObjectReady e.header).run w = (.ok (), { w with
      cell := Function.update w.cell e.header (some (.header (e.publish.record (w.next e.header))))
      readyCount := w.readyCount+1 }) := by
    unfold markNamedObjectReady
    rw [run_bind_ok (run_modifyHeader hse.header), run_markReady (Function.update_self ..) hstate]
    dsimp only
    rw [Function.update_idem]
    rfl
  refine ends_of_ok hrun ⟨hlists.altered_header he e.sameObject_publish rfl ?_, rfl, rfl⟩
  rw [if_neg hstate, if_pos (show e.publish.state = .ready from rfl)]

/-- One element more is alive, unless its constructor throws. -/
theorem ends_constructElement (hlists : w.Lists E) (he : e ∈ E.entries) (hsize : e.size = T.size) (hi : i ∉ e.alive) (hlt : i < e.count) :
    (constructElement T e.object i).Ends w
      (fun _ w' => w.Altered E e (NamedEntry.withAlive (i :: e.alive)) w' ∧ w'.events = .constructed e.object i :: w.events ∧
        w'.cell e.header = w.cell e.header ∧ T.throws w.constructions = false ∧ w'.constructions = w.constructions+1)
      fun err w' => err = .element ∧ w' = { w with constructions := w.constructions+1 } ∧ T.throws w.constructions = true := by
  have hse := hlists.shows e he
  have hho : e.header ≠ e.object := by
    have hnd := hlists.nodup_addresses he
    intro heq
    simp [NamedEntry.addresses, heq] at hnd
  have hroom : (i+1)*T.size ≤ e.count*e.size := by
    rw [hsize]
    exact Nat.mul_le_mul_right _ hlt
  have hrun : (constructElement T e.object i).run w = _ := run_read _ w
  rw [hse.object] at hrun
  dsimp only at hrun
  rw [if_neg (not_or.mpr ⟨hi, not_lt.mpr hroom⟩)] at hrun
  unfold Prog.Ends
  rw [hrun]
  cases hthrow : T.throws w.constructions
  · refine ⟨hlists.altered_object he, rfl, ?_, rfl, rfl⟩
    exact Function.update_of_ne hho _ _
  · exact ⟨rfl, rfl, rfl⟩

/-- One element less is alive. -/
theorem ends_destroyElement (hlists : w.Lists E) (he : e ∈ E.entries) (hi : i ∈ e.alive) :
    (destroyElement e.object i).Ends w
      (fun _ w' => w.Altered E e (NamedEntry.withAlive (e.alive.erase i)) w' ∧ w'.events = .destroyed e.object i :: w.events ∧
        w'.cell e.header = w.cell e.header ∧ w'.constructions = w.constructions) F := by
  have hse := hlists.shows e he
  have hho : e.header ≠ e.object := by
    have hnd := hlists.nodup_addresses he
    intro heq
    simp [NamedEntry.addresses, heq] at hnd
  have hrun : (destroyElement e.object i).run w = _ := run_read _ w
  rw [hse.object] at hrun
  dsimp only at hrun
  rw [if_pos hi] at hrun
  refine ends_of_ok hrun ⟨hlists.altered_object he, rfl, ?_, rfl⟩
  exact Function.update_of_ne hho _ _

end SharedMemoryManager

end ShmNext
