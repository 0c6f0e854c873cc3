import ShmNext.HashTableLinks

/-! What the members of the hash table do to a table that is in order, up to a rehash. -/
namespace ShmNext
open Prog NodeOp SharedMemoryHashTable HashLink

variable {K V F α : Type} {T : TableType K V F} {w w' w₀ u : TableWorld K V F} {vs cached : List ℕ} {kept : List LiveAlloc}
  {mine rest : List (ℕ × ℕ)} {items xs ys : Items K V} {v p n array bucketCount i : ℕ} {e : K × V} {key : K}
  {Q : α → TableWorld K V F → Prop} {E : NodeThrown → TableWorld K V F → Prop}

/-- The block of the bucket array. -/
def SharedMemoryHashTable.arrayBlock (t : SharedMemoryHashTable F) : List (ℕ × ℕ) :=
  if t.buckets = 0 then [] else [(t.buckets, t.bucketCount*8)]

/-- The blocks of a table: those of its nodes, of the cached ones and of the array. -/
def TableType.owned (T : TableType K V F) (t : SharedMemoryHashTable F) (items : Items K V) (cached : List ℕ) : List (ℕ × ℕ) :=
  T.blocks (items.nodes ++ cached) ++ t.arrayBlock

/-- An array of `n` links would not reach the end of the address space. -/
def BucketRoom (g : Heap) (n : ℕ) : Prop := n ≤ (2^64-1)/8 → AddressRoom g (n*8) 8

instance (g : Heap) (n : ℕ) : Decidable (BucketRoom g n) := inferInstanceAs (Decidable (_ → _))

/-- What holds of a table apart from its chains: its elements in order, its cached nodes, and its array. -/
structure NodesHold (w : TableWorld K V F) (v : ℕ) (items : Items K V) (cached : List ℕ) : Prop where
  iterates : Iterates w (w.obj v) items
  size_eq : (w.obj v).size = items.length
  caches : Caches w v cached
  array : (w.obj v).buckets ≠ 0 → 0 < (w.obj v).bucketCount ∧
    ∃ a, w.cell (w.obj v).buckets = some (.links a) ∧ a.length = (w.obj v).bucketCount
  bare : (w.obj v).buckets = 0 → (w.obj v).bucketCount = 0 ∧ items = []

/-- What holds of a table. -/
structure TableHolds (T : TableType K V F) (w : TableWorld K V F) (v : ℕ) (items : Items K V) (cached : List ℕ) : Prop
    extends NodesHold w v items cached where
  chains : (w.obj v).buckets ≠ 0 → Bucketed T w (w.obj v).buckets (w.obj v).bucketCount items

/-- The table `v` has these elements, and owns its blocks besides `rest`. Its chains may be in disorder. -/
structure OwnsNodes (T : TableType K V F) (vs : List ℕ) (w₀ : TableWorld K V F) (kept : List LiveAlloc) (rest : List (ℕ × ℕ)) (v : ℕ)
    (items : Items K V) (cached : List ℕ) (w : TableWorld K V F) : Prop where
  own : Owning T.toNodeType vs w₀ kept w (T.owned (w.obj v) items cached ++ rest)
  nodes : NodesHold w v items cached

/-- The table `v` is in order, and owns its blocks besides `rest`. -/
structure OwnsTable (T : TableType K V F) (vs : List ℕ) (w₀ : TableWorld K V F) (kept : List LiveAlloc) (rest : List (ℕ × ℕ)) (v : ℕ)
    (items : Items K V) (cached : List ℕ) (w : TableWorld K V F) : Prop where
  own : Owning T.toNodeType vs w₀ kept w (T.owned (w.obj v) items cached ++ rest)
  holds : TableHolds T w v items cached

theorem OwnsTable.ownsNodes (h : OwnsTable T vs w₀ kept rest v items cached w) : OwnsNodes T vs w₀ kept rest v items cached w :=
  ⟨h.own, h.holds.toNodesHold⟩

section
variable {t : SharedMemoryHashTable F}

theorem array_of_null (h : t.buckets = 0) : t.arrayBlock = [] := if_pos h

theorem array_of_ne (h : t.buckets ≠ 0) : t.arrayBlock = [(t.buckets, t.bucketCount*8)] := if_neg h

theorem array_congr {t' : SharedMemoryHashTable F} (hb : t'.buckets = t.buckets) (hc : t'.bucketCount = t.bucketCount) :
    t'.arrayBlock = t.arrayBlock := by
  unfold SharedMemoryHashTable.arrayBlock
  rw [hb, hc]

/-- Pool blocks first. -/
theorem TableType.owned_perm (T : TableType K V F) (t : SharedMemoryHashTable F) (items : Items K V) (cached : List ℕ)
    (rest : List (ℕ × ℕ)) :
    (T.owned t items cached ++ rest).Perm (T.blocks cached ++ (T.blocks items.nodes ++ t.arrayBlock ++ rest)) := by
  unfold TableType.owned
  rw [NodeType.blocks_append]
  have hswap : (T.blocks items.nodes ++ T.blocks cached).Perm (T.blocks cached ++ T.blocks items.nodes) := List.perm_append_comm
  simpa only [List.append_assoc] using hswap.append_right (t.arrayBlock ++ rest)

theorem TableType.owned_of_null (T : TableType K V F) (hb : t.buckets = 0) (items : Items K V) (cached : List ℕ) :
    T.owned t items cached = T.blocks (items.nodes ++ cached) := by
  unfold TableType.owned
  rw [array_of_null hb, List.append_nil]

end

/-! What the predicates depend on. -/

/-- The nodes are where they were, and the pool caches what it caches. -/
theorem NodesHold.transfer {cached' : List ℕ} (h : NodesHold w v items cached) (hobj : w'.obj v = w.obj v) (hcache : Caches w' v cached')
    (hcell : ∀ q ∈ items.nodes, w'.cell q = w.cell q)
    (harray : (w.obj v).buckets ≠ 0 → w'.cell (w.obj v).buckets = w.cell (w.obj v).buckets) : NodesHold w' v items cached' := by
  obtain ⟨h1, h2, -, h4, h5⟩ := h
  refine ⟨h1.congr hcell (by rw [hobj]) (by rw [hobj]), by rw [hobj, h2], hcache, ?_, ?_⟩
  · rw [hobj]
    intro hb
    rw [harray hb]
    exact h4 hb
  · rw [hobj]
    exact h5

theorem TableHolds.transfer {cached' : List ℕ} (h : TableHolds T w v items cached) (hobj : w'.obj v = w.obj v)
    (hcache : Caches w' v cached') (hcell : ∀ q ∈ items.nodes, w'.cell q = w.cell q)
    (harray : (w.obj v).buckets ≠ 0 → w'.cell (w.obj v).buckets = w.cell (w.obj v).buckets) : TableHolds T w' v items cached' := by
  refine ⟨h.toNodesHold.transfer hobj hcache hcell harray, ?_⟩
  rw [hobj]
  intro hb
  exact (h.chains hb).congr (harray hb) hcell

theorem NodesHold.congr (h : NodesHold w v items cached) (hobj : w'.obj v = w.obj v) (hpool : w'.pool v = w.pool v)
    (hcell : ∀ q ∈ items.nodes ++ cached, w'.cell q = w.cell q)
    (harray : (w.obj v).buckets ≠ 0 → w'.cell (w.obj v).buckets = w.cell (w.obj v).buckets) : NodesHold w' v items cached :=
  h.transfer hobj (h.caches.congr hpool fun q hq => hcell q (List.mem_append_right _ hq))
    (fun q hq => hcell q (List.mem_append_left _ hq)) harray

theorem TableHolds.congr (h : TableHolds T w v items cached) (hobj : w'.obj v = w.obj v) (hpool : w'.pool v = w.pool v)
    (hcell : ∀ q ∈ items.nodes ++ cached, w'.cell q = w.cell q)
    (harray : (w.obj v).buckets ≠ 0 → w'.cell (w.obj v).buckets = w.cell (w.obj v).buckets) : TableHolds T w' v items cached :=
  h.transfer hobj (h.caches.congr hpool fun q hq => hcell q (List.mem_append_right _ hq))
    (fun q hq => hcell q (List.mem_append_left _ hq)) harray

namespace NodesHold

theorem isNode (h : NodesHold w v items cached) {q : ℕ} (hq : q ∈ items.nodes) : w.IsNode q := by
  obtain ⟨e, he⟩ := Items.exists_of_mem_nodes hq
  exact NodeWorld.isNode_iff_elem.mpr ⟨e, h.iterates.elems _ he⟩

theorem buckets_zero_iff (h : NodesHold w v items cached) : (w.obj v).buckets = 0 ↔ (w.obj v).bucketCount = 0 := by
  constructor
  · exact fun hb => (h.bare hb).1
  · intro hc
    by_contra hb
    have hpos := (h.array hb).1
    omega

end NodesHold

/-- A cached node is none in use. -/
theorem NodesHold.cached_apart (h : NodesHold w v items cached) {q : ℕ} (hq : q ∈ cached) : q ∉ items.nodes := by
  intro hm
  obtain ⟨-, next, hfree⟩ := h.caches.chain.mem_free hq
  obtain ⟨x, hx⟩ := h.isNode hm
  rw [hfree] at hx
  cases hx

theorem NodesHold.bucketStep {own : List ℕ} (h : NodesHold w v items cached) (hs : BucketStep own w w')
    (hcached : ∀ q ∈ own, q ∉ cached) (harray : (w.obj v).buckets ≠ 0 →
      ∃ a, w'.cell (w.obj v).buckets = some (.links a) ∧ a.length = (w.obj v).bucketCount) : NodesHold w' v items cached := by
  refine ⟨?_, ?_, h.caches.congr (by rw [hs.pool_eq]) fun q hq => hs.cell_eq q fun hm => hcached q hm hq, ?_, ?_⟩
  · rw [hs.obj_eq]
    exact h.iterates.bucketStep hs
  · rw [hs.obj_eq]
    exact h.size_eq
  · rw [hs.obj_eq]
    exact fun hb => ⟨(h.array hb).1, harray hb⟩
  · rw [hs.obj_eq]
    exact h.bare

/-- A walk along the nodes of a table ends in time. -/
theorem OwnsNodes.length_le (h : OwnsNodes T vs w₀ kept rest v items cached w) : items.length ≤ walkFuel := by
  have hown := h.own
  unfold TableType.owned at hown
  rw [NodeType.blocks_append, List.append_assoc, List.append_assoc] at hown
  have hlen := hown.blocks_length
  rwa [show Items.nodes items = items.map Prod.fst from rfl, List.length_map] at hlen

/-! The bucket array. -/

theorem TableType.bucket_nil : T.bucket n [] i = [] := rfl

theorem TableType.heads_nil : T.heads n [] = List.replicate n 0 := by
  unfold TableType.heads
  exact List.eq_replicate_iff.mpr ⟨by simp, by simp [TableType.bucket_nil]⟩

theorem Bucketed.nil (h : w.cell array = some (.links (List.replicate n 0))) : Bucketed T w array n [] :=
  ⟨h.trans (by rw [TableType.heads_nil]), fun _ _ => .nil⟩

theorem ends_initializeBucketArray (h : Owning T.toNodeType vs w₀ kept w mine) (hp : (array, n*8) ∈ mine)
    {Q : Unit → TableWorld K V F → Prop} (hQ : Q () (w.setArray array (List.replicate n 0))) :
    (initializeBucketArray array n : TableOp K V F Unit).Ends w Q E := by
  have hrun : (initializeBucketArray array n : TableOp K V F Unit).run w =
      (if array+8*n ≤ w.heap.alloc.segmentBegin+w.heap.alloc.segmentSize then setCell array (some (.links (List.replicate n 0)))
        else undefined : TableOp K V F Unit).run w := rfl
  have hin := (h.holding.bounds hp).2.1
  dsimp only at hin
  rw [if_pos (by omega)] at hrun
  unfold Ends
  rw [hrun]
  exact hQ

theorem Owning.setArray (h : Owning T.toNodeType vs w₀ kept w mine) (hp : (array, n*8) ∈ mine) {a : List ℕ} (ha : a.length = n) :
    Owning T.toNodeType vs w₀ kept (w.setArray array a) mine := by
  refine h.setCell hp fun c' hc' => ?_
  obtain rfl := Option.some.inj hc'
  unfold Cell.extent
  dsimp only
  omega

theorem ends_allocateBuckets (h : Owning T.toNodeType vs w₀ kept w mine) (hn : 0 < n) (hroom : BucketRoom w₀.heap n) :
    (allocateBuckets T n).Ends w
      (fun p w' => p ≠ 0 ∧ w.cell p = none ∧ w.OnlyHeap w' ∧ Owning T.toNodeType vs w₀ kept w' ((p, n*8) :: mine))
      fun e w' => (∃ e', e = .allocator e') ∧ w.OnlyHeap w' ∧ Owning T.toNodeType vs w₀ kept w' mine := by
  have halign : normalizeAlignment 8 = some 16 := by decide
  have hfits : n ≤ (2^64-1)/8 → AllocateFits w.heap.alloc (n*8) 8 := by
    intro hle
    obtain ⟨bs, l, hinv⟩ := h.holding.heap
    exact hinv.allocateFits_of_room (h.holding.room (hroom hle))
  refine (ends_allocate h (by decide) hn halign hfits).mono (fun p w' hq => ?_) fun e w' he => ?_
  · exact ⟨hq.1, hq.2.1, hq.2.2.1, hq.2.2.2.1⟩
  · exact ⟨he.1, he.2.1, he.2.2.1⟩

/-- The array is given back, where there is one. -/
theorem ends_releaseBuckets (h : Owning T.toNodeType vs w₀ kept w ((w.obj v).arrayBlock ++ mine)) (hv : v ∈ vs) :
    (releaseBuckets T v).Ends w
      (fun _ w' => Owning T.toNodeType vs w₀ kept w' mine ∧
        w'.obj = Function.update w.obj v { w.obj v with
          buckets := 0, bucketCount := if (w.obj v).buckets = 0 then (w.obj v).bucketCount else 0 } ∧
        w'.pool = w.pool ∧ w'.hashes = w.hashes ∧ ∀ q, q ≠ (w.obj v).buckets → w'.cell q = w.cell q) E := by
  unfold releaseBuckets
  refine ends_get_bind ?_
  by_cases hb : (w.obj v).buckets = 0
  · rw [if_neg (not_not.mpr hb)]
    rw [array_of_null hb, List.nil_append] at h
    refine ends_pure ⟨h, ?_, rfl, rfl, fun _ _ => rfl⟩
    rw [if_pos hb]
    have hsame : { w.obj v with buckets := 0, bucketCount := (w.obj v).bucketCount } = w.obj v := by
      conv_rhs => rw [← show ({ w.obj v with buckets := (w.obj v).buckets } : SharedMemoryHashTable F) = w.obj v from rfl, hb]
    rw [hsame, Function.update_eq_self]
  · rw [if_pos hb]
    rw [array_of_ne hb] at h
    refine (ends_deallocate h).bind fun _ t ht => ?_
    obtain ⟨honly, hown, -⟩ := ht
    unfold NodeWorld.OnlyHeap at honly
    refine ends_store_bind (ends_store ⟨(hown.setObj hv _).setObj hv _, ?_, ?_, ?_, fun q hq => ?_⟩)
    · dsimp only
      rw [Function.update_self, Function.update_idem, if_neg hb, honly]
    · rw [honly]
    · rw [honly]
    · rw [honly]
      exact Function.update_of_ne hq _ _

/-- `relink_all_buckets`: the chains of the new array, or those of the nodes that the hash got to. -/
theorem ends_relinkAllBuckets (h : Iterates w (w.obj v) items) (hn : 0 < n)
    (hcell : w.cell array = some (.links (List.replicate n 0))) (hlen : items.length ≤ walkFuel) :
    (relinkAllBuckets T v array n).Ends w
      (fun _ w' => Bucketed T w' array n items ∧ BucketStep (array :: items.nodes) w w' ∧ w'.hashes = w.hashes+items.length ∧
        ∀ k < items.length, T.hashThrows (w.hashes+k) = false)
      fun e w' => e = .hash ∧ BucketStep (array :: items.nodes) w w' ∧ ∃ xs ys, items = xs ++ ys ∧ ys ≠ [] ∧
        Bucketed T w' array n xs ∧ (∀ q ∈ ys.nodes, w'.link bucketPrev q = 0 ∧ w'.link bucketNext q = 0) ∧
        w'.hashes = w.hashes+xs.length+1 ∧ T.hashThrows (w.hashes+xs.length) = true ∧
        ∀ k < xs.length, T.hashThrows (w.hashes+k) = false := by
  have hnode : ∀ q ∈ items.nodes, w.IsNode q := by
    intro q hq
    obtain ⟨e, he⟩ := Items.exists_of_mem_nodes hq
    exact NodeWorld.isNode_iff_elem.mpr ⟨e, h.elems _ he⟩
  have hnot : array ∉ items.nodes := fun hm => NodeWorld.not_isNode_of_links hcell (hnode _ hm)
  have hforward := h.linked.forward
  have hfuel : items.nodes.length ≤ walkFuel := by rwa [Items.nodes, List.length_map]
  unfold relinkAllBuckets
  refine ends_get_bind ?_
  have hclear := ends_clearBucketLinks (w := w) (E := fun e w' => e = .hash ∧ BucketStep (array :: items.nodes) w w' ∧
    ∃ xs ys, items = xs ++ ys ∧ ys ≠ [] ∧ Bucketed T w' array n xs ∧
      (∀ q ∈ ys.nodes, w'.link bucketPrev q = 0 ∧ w'.link bucketNext q = 0) ∧ w'.hashes = w.hashes+xs.length+1 ∧
      T.hashThrows (w.hashes+xs.length) = true ∧ ∀ k < xs.length, T.hashThrows (w.hashes+k) = false)
    hforward h.head_eq h.nodup h.not_null hnode hfuel
  refine hclear.bind fun _ u hu => ?_
  obtain ⟨hstep, hhash, hzero⟩ := hu
  have hcell' : u.cell array = some (.links (List.replicate n 0)) := (hstep.cell_eq array hnot).trans hcell
  have hempty : Bucketed T u array n [] := .nil hcell'
  have hrelink := ends_relinkNodes hempty hn (hforward.congr fun q _ => hstep.next_eq q) h.head_eq
    (by simpa using h.nodup) (by simpa using h.not_null) (fun x hx => (hstep.elem_eq x.1).trans (h.elems x hx)) hlen
  refine hrelink.mono (fun _ w' hw' => ?_) fun e w' he => ?_
  · obtain ⟨hb, hs, hh, hk⟩ := hw'
    exact ⟨hb, (hstep.mono fun q hq => List.mem_cons_of_mem _ hq).trans hs, by rw [hh, hhash], fun k hk' => hhash ▸ hk k hk'⟩
  · obtain ⟨rfl, xs, ys, rfl, hys, hb, hs, hh, ht, hk⟩ := he
    have hsub : ∀ q ∈ array :: Items.nodes ([] ++ xs), q ∈ array :: (xs ++ ys).nodes := by
      intro q hq
      rw [List.nil_append, List.mem_cons] at hq
      rw [Items.nodes_append, List.mem_cons, List.mem_append]
      tauto
    refine ⟨rfl, (hstep.mono fun q hq => List.mem_cons_of_mem _ hq).trans (hs.mono hsub), xs, ys, rfl, hys, hb, fun q hq => ?_,
      by rw [hh, hhash], hhash ▸ ht, fun k hk' => hhash ▸ hk k hk'⟩
    -- the nodes after the throw have not been visited again
    have hnd := h.nodup
    rw [Items.nodes_append] at hnd hzero hnot
    have hqnot : q ∉ array :: Items.nodes ([] ++ xs) := by
      intro hm
      rcases List.mem_cons.mp hm with rfl | hm
      · exact hnot (List.mem_append_right _ hq)
      · exact (List.nodup_append.mp hnd).2.2 q hm q hq rfl
    have hkeep := hs.cell_eq q hqnot
    rw [NodeWorld.link_congr hkeep, NodeWorld.link_congr hkeep]
    exact hzero q (List.mem_append_right _ hq)

/-! `rehash`. -/

/-- The hash has thrown in `relink_all_buckets`: the nodes before the throw are on the chains that the new array had, the
others on none, and the old array is as it was. -/
structure RelinkFailed (T : TableType K V F) (vs : List ℕ) (w₀ : TableWorld K V F) (kept : List LiveAlloc) (rest : List (ℕ × ℕ)) (v : ℕ)
    (items : Items K V) (cached : List ℕ) (n : ℕ) (w w' : TableWorld K V F) : Prop where
  nodes : OwnsNodes T vs w₀ kept rest v items cached w'
  obj_eq : w'.obj = w.obj
  pool_eq : w'.pool = w.pool
  array_eq : (w.obj v).buckets ≠ 0 → w'.cell (w.obj v).buckets = w.cell (w.obj v).buckets
  relinked : ∃ xs ys, items = xs ++ ys ∧ ys ≠ [] ∧
    (∀ i < n, DoublyLinked (w'.link bucketPrev) (w'.link bucketNext) 0 0 (T.bucket n xs i)) ∧
    (∀ q ∈ ys.nodes, w'.link bucketPrev q = 0 ∧ w'.link bucketNext q = 0) ∧ w'.hashes = w.hashes+xs.length+1 ∧
    T.hashThrows (w.hashes+xs.length) = true ∧ ∀ k < xs.length, T.hashThrows (w.hashes+k) = false

/-- `rehash` has thrown: nothing has changed, or the hash has thrown on the way. -/
def RehashFailed (T : TableType K V F) (vs : List ℕ) (w₀ : TableWorld K V F) (kept : List LiveAlloc) (rest : List (ℕ × ℕ)) (v : ℕ)
    (items : Items K V) (cached : List ℕ) (n : ℕ) (w : TableWorld K V F) (e : NodeThrown) (w' : TableWorld K V F) : Prop :=
  (∃ e', e = .allocator e') ∧ OwnsTable T vs w₀ kept rest v items cached w' ∧ w'.obj = w.obj ∧ w'.pool = w.pool ∧
      w'.hashes = w.hashes ∧ ((allocateBuckets T n).run w).1 = .error e ∨
    e = .hash ∧ RelinkFailed T vs w₀ kept rest v items cached n w w'

theorem Owning.onlyHeap_obj (h : w.OnlyHeap w') : w'.obj = w.obj ∧ w'.pool = w.pool ∧ w'.cell = w.cell ∧ w'.hashes = w.hashes := by
  unfold NodeWorld.OnlyHeap at h
  rw [h]
  exact ⟨rfl, rfl, rfl, rfl⟩

/-- The addresses of a table's blocks. -/
theorem mem_owned_addresses {q : ℕ} {t : SharedMemoryHashTable F} :
    q ∈ (T.owned t items cached).map Prod.fst ↔ q ∈ items.nodes ∨ q ∈ cached ∨ t.buckets ≠ 0 ∧ q = t.buckets := by
  unfold TableType.owned SharedMemoryHashTable.arrayBlock
  by_cases hb : t.buckets = 0
  · rw [if_pos hb]
    simp [hb]
  · rw [if_neg hb]
    simp [hb]

theorem Owning.owned_nodup {t : SharedMemoryHashTable F} (h : Owning T.toNodeType vs w₀ kept w (T.owned t items cached ++ rest)) :
    ((T.owned t items cached).map Prod.fst).Nodup := by
  have hnd := h.holding.distinct
  rw [List.map_append] at hnd
  exact (List.nodup_append.mp hnd).1

/-- The array is no node, used or cached. -/
theorem Owning.array_apart {t : SharedMemoryHashTable F} (h : Owning T.toNodeType vs w₀ kept w (T.owned t items cached ++ rest))
    (hb : t.buckets ≠ 0) : t.buckets ∉ items.nodes ++ cached := by
  have hnd := h.owned_nodup
  unfold TableType.owned at hnd
  rw [array_of_ne hb, List.map_append, NodeType.blocks_addresses] at hnd
  exact fun hm => (List.nodup_append.mp hnd).2.2 _ hm _ List.mem_cons_self rfl

/-- `rehash` from the allocation on: the chains of the new array; or the table as it was; or the hash has thrown on the way. -/
theorem ends_rehashTo (h : OwnsTable T vs w₀ kept rest v items cached w) (hv : v ∈ vs) (hn : 0 < n) (hroom : BucketRoom w₀.heap n) :
    (rehashTo T v n).Ends w
      (fun _ w' => OwnsTable T vs w₀ kept rest v items cached w' ∧
        (∃ p, w'.obj v = { w.obj v with buckets := p, bucketCount := n }) ∧ ∀ k < items.length, T.hashThrows (w.hashes+k) = false)
      fun e w' => RehashFailed T vs w₀ kept rest v items cached n w e w' := by
  have hlen := h.ownsNodes.length_le
  obtain ⟨hown, hholds⟩ := h
  unfold rehashTo
  have hallocate := (ends_allocateBuckets hown hn hroom).with_error.mono (fun _ _ hq => hq)
    (F := fun e w' => RehashFailed T vs w₀ kept rest v items cached n w e w') fun e t ht => by
      obtain ⟨⟨he, honly, hown'⟩, hrun⟩ := ht
      obtain ⟨hobj, hpool, hcell, hhash⟩ := Owning.onlyHeap_obj honly
      refine Or.inl ⟨he, ⟨by rwa [hobj], ?_⟩, hobj, hpool, hhash, by rw [hrun]⟩
      exact hholds.congr (by rw [hobj]) (by rw [hpool]) (fun q _ => by rw [hcell]) fun _ => by rw [hcell]
  refine hallocate.bind fun p t ht => ?_
  obtain ⟨hp0, hraw, honly, hown₁⟩ := ht
  obtain ⟨hobj₁, hpool₁, hcell₁, hhash₁⟩ := Owning.onlyHeap_obj honly
  have hpmem : (p, n*8) ∈ (p, n*8) :: (T.owned (w.obj v) items cached ++ rest) := List.mem_cons_self
  refine (ends_initializeBucketArray (Q := fun _ w' => w' = t.setArray p (List.replicate n 0)) hown₁ hpmem rfl).bind
    fun _ u hu => ?_
  -- the cells of the table are where the new array is not
  have hpnot : p ∉ (T.owned (w.obj v) items cached).map Prod.fst := by
    have hnd := hown₁.holding.distinct
    rw [List.map_cons, List.nodup_cons, List.map_append, List.mem_append, not_or] at hnd
    exact hnd.1.1
  rw [mem_owned_addresses, not_or, not_or] at hpnot
  have hcellu : ∀ q, q ≠ p → u.cell q = w.cell q := by
    intro q hq
    rw [hu, ← hcell₁]
    exact Function.update_of_ne hq _ _
  have hownu : Owning T.toNodeType vs w₀ kept u ((p, n*8) :: (T.owned (w.obj v) items cached ++ rest)) :=
    hu ▸ hown₁.setArray hpmem (List.length_replicate ..)
  have hobju : u.obj = w.obj := by rw [hu]; exact hobj₁
  have hpoolu : u.pool = w.pool := by rw [hu]; exact hpool₁
  have hhashu : u.hashes = w.hashes := by rw [hu]; exact hhash₁
  have harrayu : u.cell p = some (.links (List.replicate n 0)) := by rw [hu]; exact Function.update_self ..
  have hholdsu : TableHolds T u v items cached := by
    refine hholds.congr (by rw [hobju]) (by rw [hpoolu]) (fun q hq => hcellu q ?_) fun hb => hcellu _ ?_
    · rcases List.mem_append.mp hq with hq | hq
      · exact ne_of_mem_of_not_mem hq hpnot.1
      · exact ne_of_mem_of_not_mem hq hpnot.2.1
    · exact fun heq => hpnot.2.2 ⟨hb, heq.symm⟩
  clear hu hcellu honly hown₁ hobj₁ hpool₁ hcell₁ hhash₁
  have hsub : ∀ q ∈ p :: items.nodes, q ∈ ((p, n*8) :: (T.owned (w.obj v) items cached ++ rest)).map Prod.fst := by
    intro q hq
    rw [List.map_cons, List.map_append]
    rcases List.mem_cons.mp hq with rfl | hq
    · exact List.mem_cons_self
    · exact List.mem_cons_of_mem _ (List.mem_append_left _ (mem_owned_addresses.mpr (Or.inl hq)))
  -- what relinking leaves alone
  have hkeep : ∀ {s}, BucketStep (p :: items.nodes) u s → NodesHold s v items cached ∧
      ((w.obj v).buckets ≠ 0 → s.cell (w.obj v).buckets = u.cell (w.obj v).buckets) := by
    intro s hs
    have hout : (w.obj v).buckets ≠ 0 → s.cell (w.obj v).buckets = u.cell (w.obj v).buckets := by
      intro hb
      refine hs.cell_eq _ fun hm => ?_
      rcases List.mem_cons.mp hm with heq | hm
      · exact hpnot.2.2 ⟨hb, heq.symm⟩
      · exact hown.array_apart hb (List.mem_append_left _ hm)
    refine ⟨hholdsu.toNodesHold.bucketStep hs (fun q hq hqc => ?_) fun hb => ?_, hout⟩
    · rcases List.mem_cons.mp hq with rfl | hq
      · exact hpnot.2.1 hqc
      · exact hholdsu.toNodesHold.cached_apart hqc hq
    · rw [hobju] at hb ⊢
      rw [hout hb, ← hobju]
      exact (hholdsu.array (by rwa [hobju])).2
  have hrelinked : ∀ {s}, BucketStep (p :: items.nodes) u s →
      Owning T.toNodeType vs w₀ kept s ((p, n*8) :: (T.owned (w.obj v) items cached ++ rest)) ∧ s.obj = w.obj ∧ s.pool = w.pool :=
    fun hstep => ⟨hownu.bucketStep hstep hsub, hstep.obj_eq.trans hobju, hstep.pool_eq.trans hpoolu⟩
  refine (ends_relinkAllBuckets (v := v) hholdsu.iterates hn harrayu hlen).attempt_bind (fun e s hs => ?_) fun _ s hs => ?_
  · -- the new array is given back
    obtain ⟨rfl, hstep, xs, ys, hsplit, hys, hb, hzero, hh, ht, hk⟩ := hs
    obtain ⟨hnodes, hout⟩ := hkeep hstep
    obtain ⟨howns, hobjs, hpools⟩ := hrelinked hstep
    rw [hhashu] at hh ht hk
    refine (ends_deallocate howns).bind fun _ s' hs' => ends_throw (Or.inr ⟨rfl, ?_⟩)
    obtain ⟨honly, hown', -⟩ := hs'
    have hcells : ∀ q, q ≠ p → s'.cell q = s.cell q := by
      intro q hq
      unfold NodeWorld.OnlyHeap at honly
      rw [honly]
      exact Function.update_of_ne hq _ _
    have hobj' : s'.obj = w.obj := by
      unfold NodeWorld.OnlyHeap at honly
      rw [honly]
      exact hobjs
    have hpool' : s'.pool = w.pool := by
      unfold NodeWorld.OnlyHeap at honly
      rw [honly]
      exact hpools
    have hnode : ∀ q ∈ items.nodes, q ≠ p := fun q hq => ne_of_mem_of_not_mem hq hpnot.1
    have hbne : (w.obj v).buckets ≠ 0 → (w.obj v).buckets ≠ p := fun hb heq => hpnot.2.2 ⟨hb, heq.symm⟩
    have hnodes' : NodesHold s' v items cached := by
      refine hnodes.congr (by rw [hobj', hobjs]) (by rw [hpool', hpools]) (fun q hq => hcells q ?_) fun hb => ?_
      · rcases List.mem_append.mp hq with hq | hq
        · exact hnode q hq
        · exact ne_of_mem_of_not_mem hq hpnot.2.1
      · rw [hobjs] at hb ⊢
        exact hcells _ (hbne hb)
    refine ⟨⟨by rwa [hobj'], hnodes'⟩, hobj', hpool', fun hb => ?_, xs, ys, hsplit, hys, fun i hi => ?_, fun q hq => ?_, ?_, ht, hk⟩
    · have hbu : u.cell (w.obj v).buckets = w.cell (w.obj v).buckets := by
        have h₁ := (hholdsu.chains (by rwa [hobju])).heads
        rw [hobju] at h₁
        exact h₁.trans (hholds.chains hb).heads.symm
      rw [hcells _ (hbne hb), hout hb, hbu]
    · refine (hb.chains i hi).congr (fun q hq => ?_) fun q hq => ?_ <;>
        exact NodeWorld.link_congr (hcells q (hnode q (by
          rw [hsplit, Items.nodes_append]
          exact List.mem_append_left _ (T.bucket_sublist.mem hq))))
    · have hq' : q ∈ items.nodes := by
        rw [hsplit, Items.nodes_append]
        exact List.mem_append_right _ hq
      rw [NodeWorld.link_congr (hcells q (hnode q hq')), NodeWorld.link_congr (hcells q (hnode q hq'))]
      exact hzero q hq
    · unfold NodeWorld.OnlyHeap at honly
      rw [honly]
      exact hh
  · -- the old array is given back
    obtain ⟨hb, hstep, -, hh⟩ := hs
    obtain ⟨hnodes, hout⟩ := hkeep hstep
    obtain ⟨howns, hobjs, hpools⟩ := hrelinked hstep
    rw [hhashu] at hh
    have hperm : ((p, n*8) :: (T.owned (w.obj v) items cached ++ rest)).Perm
        ((s.obj v).arrayBlock ++ ((p, n*8) :: (T.blocks (items.nodes ++ cached) ++ rest))) := by
      rw [hobjs]
      unfold TableType.owned
      refine (List.Perm.cons _ ?_).trans List.perm_middle.symm
      rw [List.append_assoc]
      have hswap : (T.blocks (items.nodes ++ cached) ++ (w.obj v).arrayBlock).Perm ((w.obj v).arrayBlock ++ T.blocks (items.nodes ++ cached)) :=
        List.perm_append_comm
      simpa only [List.append_assoc] using hswap.append_right rest
    refine (ends_releaseBuckets (howns.perm hperm) hv).bind fun _ s' hs' => ends_store_bind (ends_store ?_)
    obtain ⟨hown', hobj', hpool', -, hcells⟩ := hs'
    dsimp only
    rw [Function.update_self, Function.update_idem]
    have hbs : (s.obj v).buckets = (w.obj v).buckets := by rw [hobjs]
    rw [hbs] at hcells
    have hobjv : s'.obj v = { w.obj v with
        buckets := 0, bucketCount := if (w.obj v).buckets = 0 then (w.obj v).bucketCount else 0 } := by
      rw [hobj', Function.update_self, hobjs]
    have hpneb : p ≠ (w.obj v).buckets := by
      intro heq
      refine hpnot.2.2 ⟨?_, heq⟩
      rwa [← heq]
    have hnode : ∀ q ∈ items.nodes ++ cached, s'.cell q = s.cell q := by
      intro q hq
      refine hcells q fun heq => ?_
      by_cases hb0 : (w.obj v).buckets = 0
      · have hmem : (q, T.sizeofNode) ∈ T.owned (w.obj v) items cached ++ rest :=
          List.mem_append_left _ (List.mem_append_left _ (NodeType.mem_blocks.mpr hq))
        exact (hown.address_bounds hmem).1 (heq.trans hb0)
      · exact hown.array_apart hb0 (heq ▸ hq)
    refine ⟨⟨?_, ⟨⟨?_, ?_, ?_, ?_, ?_⟩, ?_⟩⟩, ⟨p, ?_⟩, hh⟩
    · have hset := (hown'.setObj hv { s'.obj v with buckets := p }).setObj hv { s'.obj v with buckets := p, bucketCount := n }
      dsimp only at hset
      rw [Function.update_idem] at hset
      refine hset.perm ?_
      dsimp only
      rw [Function.update_self]
      unfold TableType.owned
      rw [array_of_ne (show ({ s'.obj v with buckets := p, bucketCount := n } : SharedMemoryHashTable F).buckets ≠ 0 from hp0),
        List.append_assoc]
      exact List.perm_middle.symm
    · dsimp only
      rw [Function.update_self, hobjv]
      have hiter := hnodes.iterates
      rw [hobjs] at hiter
      exact hiter.congr (fun q hq => hnode q (List.mem_append_left _ hq)) rfl rfl
    · dsimp only
      rw [Function.update_self, hobjv]
      exact hholds.size_eq
    · exact hnodes.caches.congr (by rw [← hpool']) fun q hq => hnode q (List.mem_append_right _ hq)
    · dsimp only
      rw [Function.update_self]
      intro _
      refine ⟨hn, _, (hcells p hpneb).trans hb.heads, ?_⟩
      rw [TableType.length_heads]
    · dsimp only
      rw [Function.update_self]
      exact fun h0 => absurd h0 hp0
    · dsimp only
      rw [Function.update_self]
      intro _
      exact hb.congr (hcells p hpneb) fun q hq => hnode q (List.mem_append_left _ hq)
    · dsimp only
      rw [Function.update_self, hobjv]

theorem normalizeBucketCount_pos (requested : ℕ) : 0 < normalizeBucketCount requested := by
  unfold normalizeBucketCount
  split
  · decide
  · omega

theorem rehashTarget_pos (t : SharedMemoryHashTable F) (requested : ℕ) : 0 < rehashTarget T t requested :=
  lt_of_lt_of_le (normalizeBucketCount_pos requested) (le_max_left _ _)

/-- The array that `rehash` asks for, where it asks for one, would not reach the end of the address space. -/
def RehashRoom (T : TableType K V F) (g : Heap) (t : SharedMemoryHashTable F) (requested : ℕ) : Prop :=
  rehashTarget T t requested ≠ t.bucketCount → BucketRoom g (rehashTarget T t requested)

instance (g : Heap) (t : SharedMemoryHashTable F) (requested : ℕ) : Decidable (RehashRoom T g t requested) :=
  inferInstanceAs (Decidable (_ → _))

theorem ends_rehash {requested : ℕ} (h : OwnsTable T vs w₀ kept rest v items cached w) (hv : v ∈ vs)
    (hroom : RehashRoom T w₀.heap (w.obj v) requested) :
    (rehash T v requested).Ends w
      (fun _ w' => OwnsTable T vs w₀ kept rest v items cached w' ∧
        (∃ p, w'.obj v = { w.obj v with buckets := p, bucketCount := rehashTarget T (w.obj v) requested }) ∧
        (rehashTarget T (w.obj v) requested ≠ (w.obj v).bucketCount → ∀ k < items.length, T.hashThrows (w.hashes+k) = false))
      fun e w' => rehashTarget T (w.obj v) requested ≠ (w.obj v).bucketCount ∧
        RehashFailed T vs w₀ kept rest v items cached (rehashTarget T (w.obj v) requested) w e w' := by
  unfold rehash
  refine ends_get_bind ?_
  dsimp only
  by_cases hsame : rehashTarget T (w.obj v) requested = (w.obj v).bucketCount
  · rw [if_pos hsame]
    refine ends_pure ⟨h, ⟨(w.obj v).buckets, ?_⟩, fun hne => absurd hsame hne⟩
    rw [hsame]
  · rw [if_neg hsame]
    exact (ends_rehashTo h hv (rehashTarget_pos _ _) (hroom hsame)).mono (fun _ _ hq => ⟨hq.1, hq.2.1, fun _ => hq.2.2⟩) fun _ _ he => ⟨hsame, he⟩

end ShmNext
