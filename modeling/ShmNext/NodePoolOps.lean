import ShmNext.NodePool

/-! What the members of the node pool do: to their own cache, to the blocks of the container, and to nothing else. -/
namespace ShmNext
open Prog NodeOp

variable {N M α : Type} {T : NodeType} {w w' w₀ t : NodeWorld N M} {vs cached : List ℕ} {kept : List LiveAlloc}
  {mine rest : List (ℕ × ℕ)} {v p n q head : ℕ} {c : Option (Cell N)} {Q : α → NodeWorld N M → Prop}
  {E : NodeThrown → NodeWorld N M → Prop} {g : Heap}

theorem NodeType.normalizes (T : NodeType) : ∃ A, normalizeAlignment T.alignofNode = some A := by
  obtain ⟨k, hk, hal⟩ := T.align_pow
  exact ⟨_, hal ▸ normalizeAlignment_two_pow hk⟩

theorem NodeType.sizeof_pos (T : NodeType) : 0 < T.sizeofNode := lt_of_lt_of_le (by decide) T.fits_link

/-- The blocks of nodes at these addresses. -/
def NodeType.blocks (T : NodeType) (ps : List ℕ) : List (ℕ × ℕ) := ps.map fun p => (p, T.sizeofNode)

@[simp] theorem NodeType.blocks_nil (T : NodeType) : T.blocks [] = [] := rfl

@[simp] theorem NodeType.blocks_cons (T : NodeType) (p : ℕ) (ps : List ℕ) : T.blocks (p :: ps) = (p, T.sizeofNode) :: T.blocks ps := rfl

@[simp] theorem NodeType.blocks_append (T : NodeType) (ps qs : List ℕ) : T.blocks (ps ++ qs) = T.blocks ps ++ T.blocks qs :=
  List.map_append

@[simp] theorem NodeType.blocks_addresses (T : NodeType) (ps : List ℕ) : (T.blocks ps).map Prod.fst = ps := by
  unfold NodeType.blocks
  rw [List.map_map]
  exact List.map_id ps

theorem NodeType.blocks_perm (T : NodeType) {ps qs : List ℕ} (h : ps.Perm qs) : (T.blocks ps).Perm (T.blocks qs) := h.map _

theorem NodeType.mem_blocks {T : NodeType} {ps : List ℕ} : (p, T.sizeofNode) ∈ T.blocks ps ↔ p ∈ ps := by
  unfold NodeType.blocks
  simp

/-- Since `w₀` the containers `vs` may have changed, and nothing else has: the allocations `kept` hold what they held.
Besides them exactly `mine` is held. -/
structure Owning (T : NodeType) (vs : List ℕ) (w₀ : NodeWorld N M) (kept : List LiveAlloc) (w : NodeWorld N M)
    (mine : List (ℕ × ℕ)) : Prop where
  holding : Holding w₀.heap kept w.heap mine
  cells_kept : ∀ a ∈ kept, w.cell a.payload = w₀.cell a.payload
  placed : ∀ q c, w.cell q = some c → ∃ a ∈ w.heap.live, a.payload = q ∧ c.extent T ≤ a.size
  pools_same : ∀ u, u ∉ vs → w.pool u = w₀.pool u
  objs_same : ∀ u, u ∉ vs → w.obj u = w₀.obj u
  names_same : w.names = w₀.names

namespace Owning

theorem perm (h : Owning T vs w₀ kept w mine) {mine' : List (ℕ × ℕ)} (hp : mine.Perm mine') : Owning T vs w₀ kept w mine' :=
  ⟨h.holding.perm hp, h.cells_kept, h.placed, h.pools_same, h.objs_same, h.names_same⟩

theorem setCell (h : Owning T vs w₀ kept w mine) (hp : (p, n) ∈ mine) (hc : ∀ c', c = some c' → c'.extent T ≤ n) :
    Owning T vs w₀ kept { w with cell := Function.update w.cell p c } mine := by
  refine ⟨h.holding, fun a ha => ?_, fun q c' hq => ?_, h.pools_same, h.objs_same, h.names_same⟩
  · exact (Function.update_of_ne (h.holding.apart _ hp a ha) _ _).trans (h.cells_kept a ha)
  · dsimp only at hq
    by_cases hqp : q = p
    · subst hqp
      rw [Function.update_self] at hq
      obtain ⟨a, ha, hpay, hsize⟩ := h.holding.mine_live _ hp
      exact ⟨a, ha, hpay, hsize ▸ hc c' hq⟩
    · rw [Function.update_of_ne hqp] at hq
      exact h.placed q c' hq

theorem setPool (h : Owning T vs w₀ kept w mine) (hv : v ∈ vs) (P : NodePool) :
    Owning T vs w₀ kept { w with pool := Function.update w.pool v P } mine := by
  refine ⟨h.holding, h.cells_kept, h.placed, fun u hu => ?_, h.objs_same, h.names_same⟩
  have hne : u ≠ v := fun heq => hu (heq ▸ hv)
  exact (Function.update_of_ne hne _ _).trans (h.pools_same u hu)

theorem setObj (h : Owning T vs w₀ kept w mine) (hv : v ∈ vs) (x : M) :
    Owning T vs w₀ kept { w with obj := Function.update w.obj v x } mine := by
  refine ⟨h.holding, h.cells_kept, h.placed, h.pools_same, fun u hu => ?_, h.names_same⟩
  have hne : u ≠ v := fun heq => hu (heq ▸ hv)
  exact (Function.update_of_ne hne _ _).trans (h.objs_same u hu)

theorem setCalls (h : Owning T vs w₀ kept w mine) (k : ℕ) : Owning T vs w₀ kept { w with calls := k } mine :=
  ⟨h.holding, h.cells_kept, h.placed, h.pools_same, h.objs_same, h.names_same⟩

theorem setHashes (h : Owning T vs w₀ kept w mine) (k : ℕ) : Owning T vs w₀ kept { w with hashes := k } mine :=
  ⟨h.holding, h.cells_kept, h.placed, h.pools_same, h.objs_same, h.names_same⟩

/-- More containers may have changed. -/
theorem mono_names {vs' : List ℕ} (h : Owning T vs w₀ kept w mine) (hsub : vs ⊆ vs') : Owning T vs' w₀ kept w mine :=
  ⟨h.holding, h.cells_kept, h.placed, fun u hu => h.pools_same u fun hm => hu (hsub hm), fun u hu => h.objs_same u fun hm => hu (hsub hm),
    h.names_same⟩

/-- A heap that has the same bytes where the cells are. -/
theorem withHeap_eq (h : Owning T vs w₀ kept w mine)
    (hsame : ∀ a ∈ w.heap.live, w.cell a.payload ≠ none → SamePayload a w.heap.alloc.mem g.alloc.mem) :
    w.withHeap T g = { w with heap := g } := by
  have hcell : (fun q => (w.cell q).filter fun c => decide (∀ i < c.extent T, g.alloc.mem (q+i) = w.heap.alloc.mem (q+i))) =
      w.cell := by
    funext q
    cases hq : w.cell q with
    | none => rfl
    | some c =>
      obtain ⟨a, ha, rfl, hext⟩ := h.placed q c hq
      have hbytes := hsame a ha (by rw [hq]; exact Option.some_ne_none c)
      refine Option.filter_eq_some_iff.mpr ⟨rfl, decide_eq_true fun i hi => hbytes _ ?_ ?_⟩ <;> omega
  unfold NodeWorld.withHeap
  rw [hcell]

/-- Nodes lie below the end of the address space, and above null. -/
theorem address_bounds (h : Owning T vs w₀ kept w mine) (hp : (p, n) ∈ mine) : p ≠ 0 ∧ p < 2^64 := by
  obtain ⟨h1, h2, h3⟩ := h.holding.bounds hp
  dsimp only at h1 h2
  omega

end Owning

/-! Primitives. -/

theorem ends_callAllocator {call : Op α} {after : α → Allocator → Heap → Heap} {E : NodeThrown → NodeWorld N M → Prop}
    (h : call.Ends w.heap.alloc (fun a s => Q a (w.withHeap T (after a s w.heap)))
      fun e s => E (.allocator e) (w.withHeap T { w.heap with alloc := s })) : (callAllocator T call after).Ends w Q E := by
  have hrun : (callAllocator T call after : NodeOp N M α).run w = _ := run_read _ w
  rcases h.cases with ⟨a, s, hr, hq⟩ | ⟨e, s, hr, he⟩
  · rw [hr] at hrun
    exact ends_of_ok hrun hq
  · rw [hr] at hrun
    exact ends_of_error hrun he

/-- What an allocator call comes to depends on the heap alone. -/
theorem run_callAllocator_congr {call : Op α} {after : α → Allocator → Heap → Heap} {w' : NodeWorld N M} (h : w'.heap = w.heap) :
    ((callAllocator T call after).run w').1 = ((callAllocator T call after).run w).1 := by
  unfold callAllocator
  rw [run_read, run_read, h]
  rcases call.run w.heap.alloc with ⟨_ | _ | _, _⟩ <;> rfl

/-- The heap alone has changed. -/
def NodeWorld.OnlyHeap (w w' : NodeWorld N M) : Prop := w' = { w with heap := w'.heap }

theorem NodeOp.ends_allocate {sz al A : ℕ} (h : Owning T vs w₀ kept w mine) (hsz : 0 < sz) (hn : 0 < n)
    (hal : normalizeAlignment al = some A) (hfits : n ≤ (2^64-1)/sz → AllocateFits w.heap.alloc (n*sz) al) :
    (NodeOp.allocate T sz al n).Ends w
      (fun p w' => p ≠ 0 ∧ w.cell p = none ∧ w.OnlyHeap w' ∧ Owning T vs w₀ kept w' ((p, n*sz) :: mine) ∧
        w'.heap.freed = w.heap.freed)
      fun e w' => (∃ e', e = .allocator e') ∧ w.OnlyHeap w' ∧ Owning T vs w₀ kept w' mine ∧ w'.heap.freed = w.heap.freed := by
  refine ends_callAllocator ?_
  rcases h.holding.allocateElements hsz hn hal hfits with ⟨p, s, hrun, hp, hnew, hsame, hhold⟩ | ⟨e, s, hrun, hc⟩
  · refine ends_of_ok hrun ?_
    rw [h.withHeap_eq (g := { w.heap with alloc := s, live := newAllocs s.mem (n*sz) al [p] ++ w.heap.live })
      fun a ha _ => hsame a ha]
    refine ⟨hp, ?_, rfl, ⟨hhold, h.cells_kept, fun q c hq => ?_, h.pools_same, h.objs_same, h.names_same⟩, rfl⟩
    · by_contra hcon
      obtain ⟨c, hc⟩ := Option.ne_none_iff_exists'.mp hcon
      obtain ⟨a, ha, hpay, -⟩ := h.placed p c hc
      exact hnew a ha hpay
    · obtain ⟨a, ha, hpay, hext⟩ := h.placed q c hq
      exact ⟨a, List.mem_append_right _ ha, hpay, hext⟩
  · refine ends_of_error hrun ?_
    have hmem := hc.mem_eq
    rw [h.withHeap_eq (g := { w.heap with alloc := s }) fun a _ _ => by rw [hmem]; exact .refl a _]
    exact ⟨⟨e, rfl⟩, rfl, ⟨h.holding.counters hc, h.cells_kept, h.placed, h.pools_same, h.objs_same, h.names_same⟩, rfl⟩

theorem NodeOp.ends_deallocate (h : Owning T vs w₀ kept w ((p, n) :: mine)) :
    (NodeOp.deallocate T p).Ends w
      (fun _ w' => { w with cell := Function.update w.cell p none }.OnlyHeap w' ∧ Owning T vs w₀ kept w' mine ∧
        w'.heap.freed = p :: w.heap.freed ∧ ¬w'.heap.Holds p) E := by
  have hp := (h.address_bounds List.mem_cons_self).1
  unfold NodeOp.deallocate
  rw [if_neg hp]
  refine ends_store_bind (ends_callAllocator ?_)
  have hclear := h.setCell (c := none) List.mem_cons_self fun c' hc' => (by cases hc')
  obtain ⟨s, hrun, hsame, hhold⟩ := h.holding.deallocate
  refine ends_of_ok hrun ?_
  have hne : ∀ q, Function.update w.cell p none q ≠ none → q ≠ p := by
    rintro q hq rfl
    exact hq (Function.update_self ..)
  rw [hclear.withHeap_eq (g := w.heap.release s [p]) fun a ha hcell => hsame a ha (hne _ hcell)]
  refine ⟨rfl, ⟨hhold, hclear.cells_kept, fun q c hq => ?_, h.pools_same, h.objs_same, h.names_same⟩, h.holding.freed_release, ?_⟩
  · change Function.update w.cell p none q = some c at hq
    obtain ⟨a, ha, hpay, hext⟩ := hclear.placed q c hq
    refine ⟨a, ?_, hpay, hext⟩
    have hqp : a.payload ≠ p := by
      rw [hpay]
      refine hne q ?_
      rw [hq]
      exact Option.some_ne_none c
    exact List.mem_filter.mpr ⟨ha, by simpa using hqp⟩
  · rintro ⟨a, ha, hpay⟩
    have hnot := (List.mem_filter.mp ha).2
    rw [hpay] at hnot
    simp at hnot

theorem ends_elementCall : (elementCall T : NodeOp N M Unit).Ends w
    (fun _ w' => w' = { w with calls := w.calls+1 } ∧ T.throws w.calls = false)
    fun e w' => e = .element ∧ w' = { w with calls := w.calls+1 } ∧ T.throws w.calls = true := by
  have hrun : (elementCall T : NodeOp N M Unit).run w =
      (if T.throws w.calls then Prog.throw .element else Prog.ret ()).run { w with calls := w.calls+1 } := rfl
  cases ht : T.throws w.calls with
  | false =>
    rw [ht] at hrun
    exact ends_of_ok hrun ⟨rfl, rfl⟩
  | true =>
    rw [ht] at hrun
    exact ends_of_error hrun ⟨rfl, rfl, rfl⟩

theorem ends_hashCall : (hashCall T : NodeOp N M Unit).Ends w
    (fun _ w' => w' = { w with hashes := w.hashes+1 } ∧ T.hashThrows w.hashes = false)
    fun e w' => e = .hash ∧ w' = { w with hashes := w.hashes+1 } ∧ T.hashThrows w.hashes = true := by
  have hrun : (hashCall T : NodeOp N M Unit).run w =
      (if T.hashThrows w.hashes then Prog.throw .hash else Prog.ret ()).run { w with hashes := w.hashes+1 } := rfl
  cases ht : T.hashThrows w.hashes with
  | false =>
    rw [ht] at hrun
    exact ends_of_ok hrun ⟨rfl, rfl⟩
  | true =>
    rw [ht] at hrun
    exact ends_of_error hrun ⟨rfl, rfl, rfl⟩

/-- A node is made, or an element constructor has thrown and the storage is raw. -/
theorem ends_constructNode {x : N} (hp : ∀ y, w.cell p ≠ some (.node y)) :
    (constructNode T p x).Ends w
      (fun _ w' => w' = { w with cell := Function.update w.cell p (some (.node x)), calls := w.calls+1 } ∧ T.throws w.calls = false)
      fun e w' => e = .element ∧ w' = { w with cell := Function.update w.cell p none, calls := w.calls+1 } ∧
        T.throws w.calls = true := by
  have hbody : (constructNode T p x).run w = (do
      setCell p none
      elementCall T
      setCell p (some (.node x)) : NodeOp N M Unit).run w := by
    have hrun : (constructNode T p x).run w = _ := run_read _ w
    rw [hrun]
    cases hc : w.cell p with
    | none => rfl
    | some c =>
      cases c with
      | node y => exact absurd hc (hp y)
      | free next => rfl
      | links a => rfl
  have hends : (do
      setCell p none
      elementCall T
      setCell p (some (.node x)) : NodeOp N M Unit).Ends w
      (fun _ w' => w' = { w with cell := Function.update w.cell p (some (.node x)), calls := w.calls+1 } ∧ T.throws w.calls = false)
      fun e w' => e = .element ∧ w' = { w with cell := Function.update w.cell p none, calls := w.calls+1 } ∧
        T.throws w.calls = true := by
    refine ends_store_bind (ends_elementCall.bind fun _ t ht => ?_)
    obtain ⟨rfl, hthrow⟩ := ht
    refine ends_store ⟨?_, hthrow⟩
    dsimp only
    rw [Function.update_idem]
  unfold Ends at hends ⊢
  rwa [hbody]

theorem ends_destroyNode_bind {x : N} {f : Unit → NodeOp N M α} (hp : w.cell p = some (.node x))
    (h : (f ()).Ends { w with cell := Function.update w.cell p none } Q E) : (destroyNode p >>= f).Ends w Q E := by
  have hrun : (destroyNode p >>= f).run w = _ := run_read_bind _ f w
  rw [hp] at hrun
  unfold Ends
  rw [hrun]
  exact h

theorem ends_freeNext_bind {f : ℕ → NodeOp N M α} (hp : w.cell p = some (.free n)) (h : (f n).Ends w Q E) :
    (freeNext p >>= f).Ends w Q E := by
  have hrun : (freeNext p >>= f).run w = _ := run_read_bind _ f w
  rw [hp] at hrun
  unfold Ends
  rw [hrun]
  exact h

/-! The cache of a pool. -/

/-- The `FreeNode`s from `head` on. -/
def FreeNodes (cell : ℕ → Option (Cell N)) : ℕ → List ℕ → Prop
  | head, [] => head = 0
  | head, p :: ps => head = p ∧ p ≠ 0 ∧ ∃ next, cell p = some (.free next) ∧ FreeNodes cell next ps

namespace FreeNodes
variable {cell cell' : ℕ → Option (Cell N)} {ps : List ℕ}

theorem congr (h : FreeNodes cell head ps) (heq : ∀ p ∈ ps, cell' p = cell p) : FreeNodes cell' head ps := by
  induction ps generalizing head with
  | nil => exact h
  | cons p ps ih =>
    obtain ⟨rfl, h0, next, hc, hrest⟩ := h
    refine ⟨rfl, h0, next, (heq _ List.mem_cons_self).trans hc, ih hrest fun q hq => heq q (List.mem_cons_of_mem _ hq)⟩

theorem mem_free (h : FreeNodes cell head ps) (hp : p ∈ ps) : p ≠ 0 ∧ ∃ next, cell p = some (.free next) := by
  induction ps generalizing head with
  | nil => cases hp
  | cons q ps ih =>
    obtain ⟨rfl, h0, next, hc, hrest⟩ := h
    rcases List.mem_cons.mp hp with rfl | hp
    · exact ⟨h0, next, hc⟩
    · exact ih hrest hp

end FreeNodes

/-- The pool of `v` caches these nodes. -/
structure Caches (w : NodeWorld N M) (v : ℕ) (cached : List ℕ) : Prop where
  chain : FreeNodes w.cell (w.pool v).freeNodes cached
  count : (w.pool v).cachedNodeCount = cached.length

theorem Caches.congr (h : Caches w v cached) (hpool : w'.pool v = w.pool v) (hcell : ∀ p ∈ cached, w'.cell p = w.cell p) :
    Caches w' v cached := by
  refine ⟨?_, by rw [hpool, h.count]⟩
  rw [hpool]
  exact h.chain.congr hcell

/-- A pool has been at work: the container objects and the hash have not. -/
structure PoolStep (w w' : NodeWorld N M) : Prop where
  obj_eq : w'.obj = w.obj
  hashes_eq : w'.hashes = w.hashes

theorem PoolStep.refl (w : NodeWorld N M) : PoolStep w w := ⟨rfl, rfl⟩

theorem PoolStep.trans (h : PoolStep w w') (h' : PoolStep w' t) : PoolStep w t :=
  ⟨h'.obj_eq.trans h.obj_eq, h'.hashes_eq.trans h.hashes_eq⟩

theorem Owning.blocks_nodup (h : Owning T vs w₀ kept w (T.blocks cached ++ rest)) : cached.Nodup := by
  have hnd := h.holding.distinct
  rw [List.map_append, T.blocks_addresses] at hnd
  exact (List.nodup_append.mp hnd).1

/-- Blocks have addresses of 64 bits, so a walk through some of them ends in time. -/
theorem Owning.blocks_length (h : Owning T vs w₀ kept w (T.blocks cached ++ rest)) : cached.length ≤ walkFuel := by
  have hsub : cached ⊆ List.range (2^64) := by
    intro p hp
    exact List.mem_range.mpr (h.address_bounds (List.mem_append_left _ (T.mem_blocks.mpr hp))).2
  have hlen := (h.blocks_nodup.subperm hsub).length_le
  rwa [List.length_range] at hlen

namespace NodePool
variable {x : ℕ → N}

theorem ends_popCachedNode (h : Owning T vs w₀ kept w (T.blocks cached ++ rest)) (hv : v ∈ vs) (hc : Caches w v cached) :
    (popCachedNode v).Ends w
      (fun p w' => w'.cell = w.cell ∧ PoolStep w w' ∧ Owning T vs w₀ kept w' (T.blocks cached ++ rest) ∧
        (w'.pool v).nodePoolAllocations = (w.pool v).nodePoolAllocations ∧ w'.heap = w.heap ∧
        (cached = [] ∧ p = 0 ∧ Caches w' v [] ∨
          ∃ ps, cached = p :: ps ∧ Caches w' v ps ∧ w.cell p = some (.free (w'.pool v).freeNodes))) E := by
  unfold popCachedNode
  refine ends_get_bind ?_
  dsimp only
  cases cached with
  | nil =>
    have hzero : (w.pool v).freeNodes = 0 := hc.chain
    rw [if_pos hzero]
    exact ends_pure ⟨rfl, .refl w, h, rfl, rfl, Or.inl ⟨rfl, rfl, hc⟩⟩
  | cons p ps =>
    obtain ⟨hhead, h0, next, hcell, hrest⟩ := hc.chain
    rw [hhead, if_neg h0]
    refine ends_freeNext_bind hcell (ends_store_bind (ends_store_bind (ends_store_bind (ends_pure ?_))))
    dsimp only
    simp only [Function.update_self, Function.update_idem]
    have hcount : (w.pool v).cachedNodeCount-1 = ps.length := by
      rw [hc.count]
      rfl
    refine ⟨trivial, ⟨rfl, rfl⟩, h.setPool hv _, trivial, trivial, Or.inr ⟨ps, rfl, ⟨?_, ?_⟩, hcell⟩⟩
    · dsimp only
      rwa [Function.update_self]
    · dsimp only
      rwa [Function.update_self]

theorem ends_pushCachedNode (h : Owning T vs w₀ kept w (T.blocks (p :: cached) ++ rest)) (hv : v ∈ vs) (hc : Caches w v cached) :
    (pushCachedNode v p).Ends w
      (fun _ w' => w'.cell = Function.update w.cell p (some (.free (w.pool v).freeNodes)) ∧ PoolStep w w' ∧
        Owning T vs w₀ kept w' (T.blocks (p :: cached) ++ rest) ∧ Caches w' v (p :: cached) ∧
        (w'.pool v).nodePoolAllocations = (w.pool v).nodePoolAllocations ∧ w'.heap.freed = w.heap.freed) E := by
  unfold pushCachedNode
  refine ends_get_bind (ends_store_bind (ends_store_bind (ends_store ?_)))
  dsimp only
  simp only [Function.update_self, Function.update_idem]
  have hmem : (p, T.sizeofNode) ∈ T.blocks (p :: cached) ++ rest := List.mem_cons_self
  have hset := h.setCell (c := some (.free (w.pool v).freeNodes)) hmem fun c' hc' => by
    obtain rfl := Option.some.inj hc'
    exact Nat.le_refl _
  have hnot : p ∉ cached := (List.nodup_cons.mp h.blocks_nodup).1
  refine ⟨trivial, ⟨rfl, rfl⟩, hset.setPool hv _, ⟨?_, ?_⟩, trivial, trivial⟩
  · dsimp only
    rw [Function.update_self]
    refine ⟨rfl, (h.address_bounds hmem).1, _, Function.update_self .., hc.chain.congr fun q hq => ?_⟩
    exact Function.update_of_ne (ne_of_mem_of_not_mem hq hnot) _ _
  · dsimp only
    rw [Function.update_self]
    exact congrArg (·+1) hc.count

theorem ends_destroy {y : N} (h : Owning T vs w₀ kept w (T.blocks (p :: cached) ++ rest)) (hv : v ∈ vs) (hc : Caches w v cached)
    (hp : w.cell p = some (.node y)) :
    (destroy v p).Ends w
      (fun _ w' => (∃ next, w'.cell = Function.update w.cell p (some (.free next))) ∧ PoolStep w w' ∧
        Owning T vs w₀ kept w' (T.blocks (p :: cached) ++ rest) ∧ Caches w' v (p :: cached) ∧
        (w'.pool v).nodePoolAllocations = (w.pool v).nodePoolAllocations) E := by
  have hmem : (p, T.sizeofNode) ∈ T.blocks (p :: cached) ++ rest := List.mem_cons_self
  have hnot : p ∉ cached := (List.nodup_cons.mp h.blocks_nodup).1
  unfold destroy
  rw [if_neg (h.address_bounds hmem).1]
  refine ends_destroyNode_bind hp ?_
  have hraw := h.setCell (c := none) hmem fun c' hc' => (by cases hc')
  have hcache : Caches { w with cell := Function.update w.cell p none } v cached :=
    hc.congr rfl fun q hq => Function.update_of_ne (ne_of_mem_of_not_mem hq hnot) _ _
  refine (ends_pushCachedNode hraw hv hcache).mono (fun _ w' hw' => ?_) fun _ _ he => he
  obtain ⟨hcell, hstep, hown, hcached, halloc, -⟩ := hw'
  refine ⟨⟨(w.pool v).freeNodes, ?_⟩, ⟨hstep.obj_eq, hstep.hashes_eq⟩, hown, hcached, halloc⟩
  rw [hcell]
  exact Function.update_idem ..

theorem ends_dropAllocation (h : Owning T vs w₀ kept w (T.blocks cached ++ rest)) (hv : v ∈ vs) (hc : Caches w v cached) :
    (dropAllocation v).Ends w
      (fun _ w' => Owning T vs w₀ kept w' (T.blocks cached ++ rest) ∧ Caches w' v cached ∧ PoolStep w w' ∧ w'.cell = w.cell ∧
        (w'.pool v).nodePoolAllocations = (w.pool v).nodePoolAllocations-1 ∧ w'.heap = w.heap) E := by
  refine ends_store ⟨h.setPool hv _, ⟨?_, ?_⟩, ⟨rfl, rfl⟩, rfl, ?_, rfl⟩
  · dsimp only
    rw [Function.update_self]
    exact hc.chain
  · dsimp only
    rw [Function.update_self]
    exact hc.count
  · dsimp only
    rw [Function.update_self]

/-- At most one block has been given back, and that is held no more. -/
def SparesHeld (w w' : NodeWorld N M) : Prop :=
  w'.heap.freed = w.heap.freed ∨ ∃ p, ¬w'.heap.Holds p ∧ w'.heap.freed = p :: w.heap.freed

/-- What a pool is left with where `create` throws: all it had. -/
structure CreateFailed (T : NodeType) (vs : List ℕ) (w₀ : NodeWorld N M) (kept : List LiveAlloc) (rest : List (ℕ × ℕ)) (v : ℕ)
    (cached : List ℕ) (w w' : NodeWorld N M) (e : NodeThrown) : Prop where
  own : Owning T vs w₀ kept w' (T.blocks cached ++ rest)
  caches : Caches w' v cached
  step : PoolStep w w'
  cell_eq : w'.cell = w.cell
  allocations : (w'.pool v).nodePoolAllocations = (w.pool v).nodePoolAllocations
  cause : e = .element ∨ ∃ e', e = .allocator e'

/-- A node `p` has been made; `ps` are still cached. -/
structure Created (T : NodeType) (vs : List ℕ) (w₀ : NodeWorld N M) (kept : List LiveAlloc) (rest : List (ℕ × ℕ)) (v : ℕ)
    (x : ℕ → N) (ps : List ℕ) (w w' : NodeWorld N M) (p : ℕ) : Prop where
  own : Owning T vs w₀ kept w' (T.blocks (p :: ps) ++ rest)
  caches : Caches w' v ps
  step : PoolStep w w'
  cell_eq : w'.cell = Function.update w.cell p (some (.node (x p)))

theorem ends_allocateNode (h : Owning T vs w₀ kept w (T.blocks [] ++ rest)) (hv : v ∈ vs) (hc : Caches w v [])
    (hroom : AddressRoom w₀.heap T.sizeofNode T.alignofNode) :
    (allocateNode T v).Ends w
      (fun p w' => w.cell p = none ∧ w'.cell = w.cell ∧ Owning T vs w₀ kept w' (T.blocks [p] ++ rest) ∧ Caches w' v [] ∧
        PoolStep w w' ∧ (w'.pool v).nodePoolAllocations = (w.pool v).nodePoolAllocations+1 ∧ w'.heap.freed = w.heap.freed)
      fun e w' => CreateFailed T vs w₀ kept rest v [] w w' e ∧ w'.heap.freed = w.heap.freed := by
  obtain ⟨A, hA⟩ := T.normalizes
  have hfits : 1 ≤ (2^64-1)/T.sizeofNode → AllocateFits w.heap.alloc (1*T.sizeofNode) T.alignofNode := by
    intro _
    obtain ⟨bs, l, hinv⟩ := h.holding.heap
    rw [Nat.one_mul]
    exact hinv.allocateFits_of_room (h.holding.room hroom)
  unfold allocateNode
  have hallocate := ends_allocate h T.sizeof_pos Nat.one_pos hA hfits
  refine (hallocate.mono (fun _ _ hq => hq) fun e t ht => ?_).bind fun p t ht => ?_
  · obtain ⟨he, honly, hown, hfreed⟩ := ht
    unfold NodeWorld.OnlyHeap at honly
    refine ⟨⟨hown, hc.congr ?_ (by simp), ⟨?_, ?_⟩, ?_, ?_, Or.inr he⟩, hfreed⟩ <;> rw [honly]
  · obtain ⟨h0, hraw, honly, hown, hfreed⟩ := ht
    rw [Nat.one_mul] at hown
    unfold NodeWorld.OnlyHeap at honly
    refine ends_store_bind (ends_pure ⟨hraw, ?_, hown.setPool hv _, ⟨?_, ?_⟩, ⟨?_, ?_⟩, ?_, hfreed⟩)
    · rw [honly]
    · dsimp only
      rw [Function.update_self, honly]
      exact hc.chain
    · dsimp only
      rw [Function.update_self, honly]
      exact hc.count
    · rw [honly]
    · rw [honly]
    · dsimp only
      rw [Function.update_self, honly]

/-- The node is constructed in storage from the cache. -/
theorem ends_constructIn_cached (h : Owning T vs w₀ kept w (T.blocks (p :: cached) ++ rest)) (hv : v ∈ vs) (hc : Caches w v cached)
    (hfree : w.cell p = some (.free (w.pool v).freeNodes)) (x : ℕ → N) :
    (constructIn T v p true (x p)).Ends w
      (fun q w' => q = p ∧ Created T vs w₀ kept rest v x cached w w' p ∧
        (w'.pool v).nodePoolAllocations = (w.pool v).nodePoolAllocations ∧ w'.heap.freed = w.heap.freed)
      fun e w' => CreateFailed T vs w₀ kept rest v (p :: cached) w w' e ∧ w'.heap.freed = w.heap.freed := by
  have hmem : (p, T.sizeofNode) ∈ T.blocks (p :: cached) ++ rest := List.mem_cons_self
  have hnot : p ∉ cached := (List.nodup_cons.mp h.blocks_nodup).1
  have hcache : ∀ c k, Caches { w with cell := Function.update w.cell p c, calls := k } v cached := fun c k =>
    hc.congr rfl fun q hq => Function.update_of_ne (ne_of_mem_of_not_mem hq hnot) _ _
  unfold constructIn
  have hnode : ∀ y, w.cell p ≠ some (.node y) := fun y hy => by
    rw [hfree] at hy
    cases hy
  refine (ends_constructNode hnode).attempt_bind (fun e t ht => ?_) fun _ t ht => ?_
  · obtain ⟨rfl, rfl, -⟩ := ht
    have hraw := (h.setCell (c := none) hmem fun c' hc' => (by cases hc')).setCalls (w.calls+1)
    refine (ends_pushCachedNode hraw hv (hcache none (w.calls+1))).bind fun _ t ht => ?_
    obtain ⟨hcell, hstep, hown, hcached, halloc, hfreed⟩ := ht
    refine ends_throw ⟨⟨hown, hcached, ⟨hstep.obj_eq, hstep.hashes_eq⟩, ?_, halloc, Or.inl rfl⟩, hfreed⟩
    rw [hcell]
    dsimp only
    rw [Function.update_idem, ← hfree, Function.update_eq_self]
  · obtain ⟨rfl, -⟩ := ht
    have hset := (h.setCell (c := some (.node (x p))) hmem fun c' hc' => by
      obtain rfl := Option.some.inj hc'
      exact Nat.le_refl _).setCalls (w.calls+1)
    exact ends_pure ⟨rfl, ⟨hset, hcache _ _, ⟨rfl, rfl⟩, rfl⟩, rfl, rfl⟩

/-- The node is constructed in new storage. -/
theorem ends_constructIn_new (h : Owning T vs w₀ kept w (T.blocks [p] ++ rest)) (hv : v ∈ vs) (hc : Caches w v [])
    (hraw : w.cell p = none) (x : ℕ → N) :
    (constructIn T v p false (x p)).Ends w
      (fun q w' => q = p ∧ Created T vs w₀ kept rest v x [] w w' p ∧
        (w'.pool v).nodePoolAllocations = (w.pool v).nodePoolAllocations ∧ w'.heap.freed = w.heap.freed)
      fun e w' => Owning T vs w₀ kept w' (T.blocks [] ++ rest) ∧ Caches w' v [] ∧ PoolStep w w' ∧ w'.cell = w.cell ∧
        (w'.pool v).nodePoolAllocations = (w.pool v).nodePoolAllocations-1 ∧ e = .element ∧
        ¬w'.heap.Holds p ∧ w'.heap.freed = p :: w.heap.freed := by
  have hmem : (p, T.sizeofNode) ∈ T.blocks [p] ++ rest := List.mem_cons_self
  unfold constructIn
  have hnode : ∀ y, w.cell p ≠ some (.node y) := fun y hy => by
    rw [hraw] at hy
    cases hy
  -- where the constructor throws the block is returned and is no allocation of the pool any more
  refine (ends_constructNode hnode).attempt_bind (fun e t ht => ?_) fun _ t ht => ?_
  · obtain ⟨rfl, rfl, -⟩ := ht
    have hcell : Function.update w.cell p none = w.cell := by
      rw [← hraw]
      exact Function.update_eq_self p w.cell
    rw [hcell]
    refine (ends_deallocate (h.setCalls (w.calls+1))).bind fun _ t ht => ?_
    obtain ⟨honly, hown, hfreed, hgone⟩ := ht
    unfold NodeWorld.OnlyHeap at honly
    dsimp only at honly
    rw [hcell] at honly
    have hcache : Caches t v [] := hc.congr (by rw [honly]) (by simp)
    have hownnil : Owning T vs w₀ kept t (T.blocks [] ++ rest) := hown
    refine (ends_dropAllocation hownnil hv hcache).bind fun _ t' ht' => ?_
    obtain ⟨hown', hcache', hstep, hcell', halloc, hsame⟩ := ht'
    refine ends_throw ⟨hown', hcache', ⟨?_, ?_⟩, ?_, ?_, rfl, ?_, ?_⟩
    · rw [hstep.obj_eq, honly]
    · rw [hstep.hashes_eq, honly]
    · rw [hcell', honly]
    · rw [halloc, honly]
    · rwa [hsame]
    · rw [hsame]
      exact hfreed
  · obtain ⟨rfl, -⟩ := ht
    have hset := (h.setCell (c := some (.node (x p))) hmem fun c' hc' => by
      obtain rfl := Option.some.inj hc'
      exact Nat.le_refl _).setCalls (w.calls+1)
    exact ends_pure ⟨rfl, ⟨hset, hc.congr rfl (by simp), ⟨rfl, rfl⟩, rfl⟩, rfl, rfl⟩

/-- A node from the cache, or from the allocator where the cache is empty; or everything is as before. -/
theorem ends_create (h : Owning T vs w₀ kept w (T.blocks cached ++ rest)) (hv : v ∈ vs) (hc : Caches w v cached)
    (hroom : AddressRoom w₀.heap T.sizeofNode T.alignofNode) (x : ℕ → N) :
    (create T v x).Ends w
      (fun p w' => ∃ ps, Created T vs w₀ kept rest v x ps w w' p ∧ (∀ y, w.cell p ≠ some (.node y)) ∧
        (cached = p :: ps ∧ (w'.pool v).nodePoolAllocations = (w.pool v).nodePoolAllocations ∨
          cached = [] ∧ ps = [] ∧ (w'.pool v).nodePoolAllocations = (w.pool v).nodePoolAllocations+1) ∧
        w'.heap.freed = w.heap.freed)
      fun e w' => CreateFailed T vs w₀ kept rest v cached w w' e ∧ SparesHeld w w' := by
  unfold create
  refine (ends_popCachedNode h hv hc).bind fun p t ht => ?_
  obtain ⟨hcell, hstep, hown, halloc, hsame, hcase⟩ := ht
  rcases hcase with ⟨rfl, rfl, hcache⟩ | ⟨ps, rfl, hcache, hfree⟩
  · -- the cache is empty: the storage is new
    rw [if_pos rfl]
    have hnew : (allocateNode T v).Ends t
        (fun p w' => w.cell p = none ∧ w'.cell = w.cell ∧ Owning T vs w₀ kept w' (T.blocks [p] ++ rest) ∧ Caches w' v [] ∧
          PoolStep w w' ∧ (w'.pool v).nodePoolAllocations = (w.pool v).nodePoolAllocations+1 ∧ w'.heap.freed = w.heap.freed)
        fun e w' => CreateFailed T vs w₀ kept rest v [] w w' e ∧ SparesHeld w w' := by
      refine (ends_allocateNode hown hv hcache hroom).mono (fun p w' hq => ?_) fun e w' he => ?_
      · obtain ⟨h1, h2, h3, h4, h5, h6, h7⟩ := hq
        rw [hsame] at h7
        exact ⟨hcell ▸ h1, h2.trans hcell, h3, h4, hstep.trans h5, h6.trans (by rw [halloc]), h7⟩
      · obtain ⟨⟨h1, h2, h3, h4, h5, h6⟩, h7⟩ := he
        rw [hsame] at h7
        exact ⟨⟨h1, h2, hstep.trans h3, h4.trans hcell, h5.trans halloc, h6⟩, Or.inl h7⟩
    refine hnew.bind fun p t' ht' => ?_
    obtain ⟨hraw, hcell', hown', hcache', hstep', halloc', hfreed⟩ := ht'
    refine (ends_constructIn_new hown' hv hcache' (hcell' ▸ hraw) x).mono (fun q w' hq => ?_) fun e w' he => ?_
    · obtain ⟨rfl, hcreated, hq, hfreed'⟩ := hq
      refine ⟨[], ⟨hcreated.own, hcreated.caches, hstep'.trans hcreated.step, ?_⟩, fun y hy => ?_, Or.inr ⟨rfl, rfl, ?_⟩, hfreed'.trans hfreed⟩
      · rw [hcreated.cell_eq, hcell']
      · rw [hraw] at hy
        cases hy
      · rw [hq, halloc']
    · obtain ⟨h1, h2, h3, h4, h5, rfl, hgone, h7⟩ := he
      refine ⟨⟨h1, h2, hstep'.trans h3, h4.trans hcell', ?_, Or.inl rfl⟩, Or.inr ⟨p, hgone, ?_⟩⟩
      · rw [h5, halloc']
        rfl
      · rw [h7, hfreed]
  · -- the first cached node is taken again
    have hp := (hc.chain.mem_free (p := p) List.mem_cons_self).1
    rw [if_neg hp]
    have hdec : decide (p ≠ 0) = true := decide_eq_true hp
    refine ends_pure_bind ?_
    rw [hdec]
    have hfree' : t.cell p = some (.free (t.pool v).freeNodes) := by rw [hcell]; exact hfree
    refine (ends_constructIn_cached hown hv hcache hfree' x).mono (fun q w' hq => ?_) fun e w' he => ?_
    · obtain ⟨rfl, hcreated, hq, hfreed⟩ := hq
      refine ⟨ps, ⟨hcreated.own, hcreated.caches, hstep.trans hcreated.step, ?_⟩, fun y hy => ?_, Or.inl ⟨rfl, ?_⟩, hfreed.trans (by rw [hsame])⟩
      · rw [hcreated.cell_eq, hcell]
      · rw [hfree] at hy
        cases hy
      · rw [hq, halloc]
    · obtain ⟨⟨h1, h2, h3, h4, h5, h6⟩, h7⟩ := he
      exact ⟨⟨h1, h2, hstep.trans h3, h4.trans hcell, h5.trans halloc, h6⟩, Or.inl (h7.trans (by rw [hsame]))⟩

/-! Giving the cache back. -/

theorem ends_reverseFreeList {ps qs : List ℕ} {current previous fuel : ℕ} (h : Owning T vs w₀ kept w (T.blocks (ps ++ qs) ++ rest))
    (hps : FreeNodes w.cell current ps) (hqs : FreeNodes w.cell previous qs) (hfuel : ps.length ≤ fuel) :
    (reverseFreeList fuel current previous).Ends w
      (fun r w' => Owning T vs w₀ kept w' (T.blocks (ps ++ qs) ++ rest) ∧ FreeNodes w'.cell r (ps.reverse ++ qs) ∧ PoolStep w w' ∧
        w'.pool = w.pool ∧ w'.heap = w.heap ∧ ∀ q, q ∉ ps → w'.cell q = w.cell q) E := by
  -- `ps` is still to be turned round, `qs` has been
  induction ps generalizing w qs current previous fuel with
  | nil =>
    have hzero : current = 0 := hps
    unfold reverseFreeList
    rw [if_pos hzero]
    exact ends_pure ⟨h, hqs, .refl w, rfl, rfl, fun _ _ => rfl⟩
  | cons p ps ih =>
    obtain ⟨rfl, h0, next, hcell, hrest⟩ := hps
    obtain ⟨fuel, rfl⟩ : ∃ k, fuel = k+1 := ⟨fuel-1, by rw [List.length_cons] at hfuel; omega⟩
    unfold reverseFreeList
    rw [if_neg h0]
    refine ends_freeNext_bind hcell (ends_store_bind ?_)
    have hmem : (current, T.sizeofNode) ∈ T.blocks (current :: ps ++ qs) ++ rest := List.mem_cons_self
    have hnd := h.blocks_nodup
    rw [List.cons_append, List.nodup_cons, List.mem_append, not_or] at hnd
    obtain ⟨⟨hps, hqs'⟩, -⟩ := hnd
    have hset := h.setCell (c := some (.free previous)) hmem fun c' hc' => by
      obtain rfl := Option.some.inj hc'
      exact Nat.le_refl _
    have hperm : (T.blocks (current :: ps ++ qs) ++ rest).Perm (T.blocks (ps ++ current :: qs) ++ rest) :=
      (List.perm_middle.symm.map _).append_right rest
    have hfree : FreeNodes (Function.update w.cell current (some (.free previous))) current (current :: qs) := by
      refine ⟨rfl, h0, previous, Function.update_self .., hqs.congr fun q hq => ?_⟩
      exact Function.update_of_ne (ne_of_mem_of_not_mem hq hqs') _ _
    have hsame : ∀ q ∈ ps, Function.update w.cell current (some (.free previous)) q = w.cell q := fun q hq =>
      Function.update_of_ne (ne_of_mem_of_not_mem hq hps) _ _
    have hlater := hrest.congr hsame
    refine (ih (hset.perm hperm) hlater hfree (by rw [List.length_cons] at hfuel; omega)).mono (fun r w' hw' => ?_) fun _ _ he => he
    obtain ⟨hown, hchain, hstep, hpool, hheap, hother⟩ := hw'
    refine ⟨hown.perm hperm.symm, ?_, ⟨hstep.obj_eq, hstep.hashes_eq⟩, hpool, hheap, fun q hq => ?_⟩
    · rw [List.reverse_cons, List.append_assoc]
      exact hchain
    · rw [List.mem_cons, not_or] at hq
      rw [hother q hq.2]
      exact Function.update_of_ne hq.1 _ _

theorem ends_releaseNodes {ps : List ℕ} {node fuel : ℕ} (h : Owning T vs w₀ kept w (T.blocks ps ++ rest)) (hv : v ∈ vs)
    (hps : FreeNodes w.cell node ps) (hfuel : ps.length ≤ fuel) :
    (releaseNodes T v fuel node).Ends w
      (fun _ w' => Owning T vs w₀ kept w' rest ∧ PoolStep w w' ∧ (∀ q, q ∉ ps → w'.cell q = w.cell q) ∧
        w'.pool v = { w.pool v with nodePoolAllocations := (w.pool v).nodePoolAllocations-ps.length } ∧
        w'.heap.freed = ps.reverse ++ w.heap.freed) E := by
  -- the link is read before the node is returned
  induction ps generalizing w node fuel with
  | nil =>
    have hzero : node = 0 := hps
    unfold releaseNodes
    rw [if_pos hzero]
    exact ends_pure ⟨h, .refl w, fun _ _ => rfl, rfl, rfl⟩
  | cons p ps ih =>
    obtain ⟨rfl, h0, next, hcell, hrest⟩ := hps
    obtain ⟨fuel, rfl⟩ : ∃ k, fuel = k+1 := ⟨fuel-1, by rw [List.length_cons] at hfuel; omega⟩
    unfold releaseNodes
    rw [if_neg h0]
    refine ends_freeNext_bind hcell ((ends_deallocate h).bind fun _ t ht => ?_)
    obtain ⟨honly, hown, hfreed, -⟩ := ht
    unfold NodeWorld.OnlyHeap at honly
    have hnot : node ∉ ps := (List.nodup_cons.mp h.blocks_nodup).1
    have hcell' : ∀ q, q ≠ node → t.cell q = w.cell q := by
      intro q hq
      rw [honly]
      exact Function.update_of_ne hq _ _
    have hpool : t.pool = w.pool := by rw [honly]
    refine ends_store_bind ?_
    have hlater : FreeNodes t.cell next ps := hrest.congr fun q hq => hcell' q (ne_of_mem_of_not_mem hq hnot)
    refine (ih (hown.setPool hv _) hlater (by rw [List.length_cons] at hfuel; omega)).mono (fun _ w' hw' => ?_) fun _ _ he => he
    obtain ⟨hown', hstep, hother, hpool', hfreed'⟩ := hw'
    refine ⟨hown', ⟨?_, ?_⟩, fun q hq => ?_, ?_, ?_⟩
    · rw [hstep.obj_eq, honly]
    · rw [hstep.hashes_eq, honly]
    · rw [List.mem_cons, not_or] at hq
      rw [hother q hq.2]
      exact hcell' q hq.1
    · rw [hpool']
      dsimp only
      rw [Function.update_self, hpool, List.length_cons, Nat.sub_sub, Nat.add_comm 1]
    · rw [hfreed']
      dsimp only
      rw [hfreed, List.reverse_cons, List.append_assoc]
      rfl

/-- All cached nodes are returned to the allocator. -/
theorem ends_shrinkToFit (h : Owning T vs w₀ kept w (T.blocks cached ++ rest)) (hv : v ∈ vs) (hc : Caches w v cached) :
    (shrinkToFit T v).Ends w
      (fun _ w' => Owning T vs w₀ kept w' rest ∧ Caches w' v [] ∧ PoolStep w w' ∧ (∀ q, q ∉ cached → w'.cell q = w.cell q) ∧
        (w'.pool v).nodePoolAllocations = (w.pool v).nodePoolAllocations-cached.length ∧
        w'.heap.freed = cached ++ w.heap.freed) E := by
  unfold shrinkToFit
  refine ends_get_bind ?_
  have hown : Owning T vs w₀ kept w (T.blocks (cached ++ []) ++ rest) := by rwa [List.append_nil]
  have hreverse := ends_reverseFreeList (E := E) hown hc.chain (rfl : FreeNodes w.cell 0 []) h.blocks_length
  refine hreverse.bind fun r t ht => ends_store_bind ?_
  obtain ⟨hown', hchain, hstep, hpool, hheap, hother⟩ := ht
  rw [List.append_nil] at hown' hchain
  have hperm : (T.blocks cached ++ rest).Perm (T.blocks cached.reverse ++ rest) :=
    ((List.reverse_perm cached).symm.map _).append_right rest
  have hown'' := (hown'.perm hperm).setPool hv { t.pool v with freeNodes := 0 }
  have hrelease := ends_releaseNodes (E := E) hown'' hv hchain hown''.blocks_length
  refine hrelease.bind fun _ t' ht' => ends_store ?_
  obtain ⟨hown₁, hstep₁, hother₁, hpool₁, hfreed₁⟩ := ht'
  dsimp only at hpool₁
  rw [Function.update_self, List.length_reverse] at hpool₁
  refine ⟨hown₁.setPool hv _, ⟨?_, ?_⟩, ⟨?_, ?_⟩, fun q hq => ?_, ?_, ?_⟩
  · dsimp only
    rw [Function.update_self, hpool₁]
    rfl
  · dsimp only
    rw [Function.update_self]
    rfl
  · exact hstep₁.obj_eq.trans hstep.obj_eq
  · exact hstep₁.hashes_eq.trans hstep.hashes_eq
  · have hq' : q ∉ cached.reverse := fun hm => hq (List.mem_reverse.mp hm)
    exact (hother₁ q hq').trans (hother q hq)
  · dsimp only
    rw [Function.update_self, hpool₁, hpool]
  · dsimp only
    rw [hfreed₁, List.reverse_reverse]
    exact congrArg (cached ++ ·.freed) hheap

theorem ends_takeFrom {other : ℕ} (h : Owning T vs w₀ kept w mine) (hv : v ∈ vs) (hother : other ∈ vs) :
    (takeFrom v other).Ends w
      (fun _ w' => w' = { w with pool := Function.update (Function.update w.pool v (w.pool other)) other .empty } ∧
        Owning T vs w₀ kept w' mine) E := by
  unfold takeFrom
  exact ends_get_bind (ends_store_bind (ends_store ⟨rfl, (h.setPool hv _).setPool hother _⟩))

theorem ends_swap {other : ℕ} (h : Owning T vs w₀ kept w mine) (hv : v ∈ vs) (hother : other ∈ vs) :
    (swap v other).Ends w
      (fun _ w' => w' = { w with pool := Function.update (Function.update w.pool v (w.pool other)) other (w.pool v) } ∧
        Owning T vs w₀ kept w' mine) E := by
  unfold swap
  exact ends_get_bind (ends_store_bind (ends_store ⟨rfl, (h.setPool hv _).setPool hother _⟩))

end NodePool

end ShmNext
