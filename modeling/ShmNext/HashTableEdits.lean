import ShmNext.HashTableOps

/-! Lookup, insertion, erasure and `clear` of the hash table. -/
namespace ShmNext
open Prog NodeOp SharedMemoryHashTable HashLink

variable {K V F α : Type} {T : TableType K V F} {w w' w₀ u : TableWorld K V F} {vs cached : List ℕ} {kept : List LiveAlloc}
  {mine rest : List (ℕ × ℕ)} {items xs ys : Items K V} {v p n array bucketCount i : ℕ} {e x : K × V} {key : K}
  {Q : α → TableWorld K V F → Prop} {E : NodeThrown → TableWorld K V F → Prop}

/-! Lookup. -/

/-- The node that `find_node` comes to: the one inserted last among those of the bucket that equal the key. -/
def TableType.lookup (T : TableType K V F) (bucketCount : ℕ) (items : Items K V) (key : K) : ℕ :=
  (((items.filter fun x => T.index bucketCount x.2 = T.hash key%bucketCount).reverse.find? fun x =>
    T.keyEqual x.2.1 key).map Prod.fst).getD 0

/-- How often a lookup calls the hash. -/
def SharedMemoryHashTable.lookups (t : SharedMemoryHashTable F) : ℕ := if t.bucketCount = 0 then 0 else 1

theorem ends_findInChain {node fuel : ℕ} (hlink : ForwardLinked (w.link bucketNext) 0 items.nodes) (hhead : node = items.nodes.headD 0)
    (h0 : 0 ∉ items.nodes) (helems : ∀ x ∈ items, w.elem? x.1 = some x.2) (hfuel : items.length ≤ fuel) :
    (findInChain T key fuel node).Ends w
      (fun r w' => r = ((items.find? fun x => T.keyEqual x.2.1 key).map Prod.fst).getD 0 ∧ w' = w) E := by
  induction items generalizing fuel node with
  | nil =>
    obtain rfl : node = 0 := hhead
    unfold findInChain
    rw [if_pos rfl]
    exact ends_pure ⟨rfl, rfl⟩
  | cons x items ih =>
    obtain ⟨p, e⟩ := x
    obtain rfl : node = p := hhead
    rw [Items.nodes_cons, List.mem_cons, not_or] at h0
    have helem : w.elem? node = some e := helems (node, e) List.mem_cons_self
    unfold findInChain
    rw [if_neg (Ne.symm h0.1)]
    refine ends_readElem_bind helem ?_
    by_cases hkey : T.keyEqual e.1 key = true
    · rw [if_pos hkey, List.find?_cons_of_pos (p := fun x : ℕ × (K × V) => T.keyEqual x.2.1 key) hkey]
      exact ends_pure ⟨rfl, rfl⟩
    · obtain ⟨fuel, rfl⟩ : ∃ k, fuel = k+1 := ⟨fuel-1, by rw [List.length_cons] at hfuel; omega⟩
      rw [if_neg hkey, List.find?_cons_of_neg (p := fun x : ℕ × (K × V) => T.keyEqual x.2.1 key) hkey]
      refine ends_readLink_bind (NodeWorld.isNode_iff_elem.mpr ⟨e, helem⟩) ?_
      exact ih hlink.2 hlink.1 h0.2 (fun x hx => helems x (List.mem_cons_of_mem _ hx)) (by rw [List.length_cons] at hfuel; omega)

/-- A chain in memory, with the elements of its nodes. -/
theorem Bucketed.chain (h : Bucketed T w array bucketCount items) (hi : i < bucketCount) :
    ForwardLinked (w.link bucketNext) 0 (Items.nodes (items.filter fun x => T.index bucketCount x.2 = i).reverse) := by
  have hback := (h.chains i hi).backward
  unfold TableType.bucket Items.nodes at hback
  rw [← List.map_reverse] at hback
  exact hback

theorem TableHolds.setHashes (h : TableHolds T w v items cached) (k : ℕ) : TableHolds T { w with hashes := k } v items cached :=
  h.congr rfl rfl (fun _ _ => rfl) fun _ => rfl

theorem OwnsTable.setHashes (h : OwnsTable T vs w₀ kept rest v items cached w) (k : ℕ) :
    OwnsTable T vs w₀ kept rest v items cached { w with hashes := k } :=
  ⟨h.own.setHashes k, h.holds.setHashes k⟩

theorem ends_findNode (key : K) (h : TableHolds T w v items cached) (hlen : items.length ≤ walkFuel) : (findNode T v key).Ends w
    (fun r w' => r = T.lookup (w.obj v).bucketCount items key ∧ w' = { w with hashes := w.hashes+(w.obj v).lookups })
    fun e w' => e = .hash ∧ w' = { w with hashes := w.hashes+1 } ∧ T.hashThrows w.hashes = true := by
  unfold findNode
  refine ends_get_bind ?_
  unfold lookups
  by_cases hc : (w.obj v).bucketCount = 0
  · rw [if_pos hc, if_pos hc]
    have hnil : items = [] := (h.bare (h.toNodesHold.buckets_zero_iff.mpr hc)).2
    subst hnil
    exact ends_pure ⟨rfl, rfl⟩
  · rw [if_neg hc, if_neg hc]
    have hpos := Nat.pos_of_ne_zero hc
    have hb := h.chains fun hb => hc (h.toNodesHold.buckets_zero_iff.mp hb)
    refine (ends_bucketIndexFor hpos).bind fun i t ht => ?_
    obtain ⟨rfl, rfl, -⟩ := ht
    have hlt : T.hash key%(w.obj v).bucketCount < (w.obj v).bucketCount := Nat.mod_lt _ hpos
    refine ends_readSlot_bind hb.heads (TableType.getElem_heads _ hlt) ?_
    have hchain := hb.chain hlt
    have hsub : (items.filter fun x => T.index (w.obj v).bucketCount x.2 = T.hash key%(w.obj v).bucketCount).reverse ⊆ items := by
      intro x hx
      exact List.mem_of_mem_filter (List.mem_reverse.mp hx)
    refine ends_findInChain (w := { w with hashes := w.hashes+1 }) hchain ?_ (fun hm => ?_) (fun x hx => h.iterates.elems x (hsub hx)) ?_
    · unfold TableType.bucket Items.nodes
      rw [List.map_reverse]
    · obtain ⟨e, he⟩ := Items.exists_of_mem_nodes hm
      exact h.iterates.not_null (Items.mem_nodes (hsub he))
    · rw [List.length_reverse]
      exact (List.length_filter_le _ _).trans hlen

theorem TableType.lookup_eq_zero_iff (h0 : 0 ∉ items.nodes) : T.lookup bucketCount items key = 0 ↔
    ∀ x ∈ items, T.index bucketCount x.2 = T.hash key%bucketCount → T.keyEqual x.2.1 key = false := by
  unfold lookup
  constructor
  · intro h x hx hidx
    by_contra hkey
    rw [Bool.not_eq_false] at hkey
    cases hfind : ((items.filter fun x => T.index bucketCount x.2 = T.hash key%bucketCount).reverse.find? fun x => T.keyEqual x.2.1 key) with
    | none =>
      have hall := List.find?_eq_none.mp hfind x (List.mem_reverse.mpr (List.mem_filter.mpr ⟨hx, decide_eq_true hidx⟩))
      exact hall hkey
    | some y =>
      rw [hfind] at h
      have hy := List.mem_of_mem_filter (List.mem_reverse.mp (List.mem_of_find?_eq_some hfind))
      exact h0 (h ▸ Items.mem_nodes hy)
  · intro h
    have hnone : ((items.filter fun x => T.index bucketCount x.2 = T.hash key%bucketCount).reverse.find? fun x =>
        T.keyEqual x.2.1 key) = none := by
      refine List.find?_eq_none.mpr fun x hx hkey => ?_
      obtain ⟨hmem, hidx⟩ := List.mem_filter.mp (List.mem_reverse.mp hx)
      rw [h x hmem (of_decide_eq_true hidx)] at hkey
      cases hkey
    rw [hnone]
    rfl

theorem TableType.lookup_ne_zero (h : T.lookup bucketCount items key ≠ 0) :
    ∃ e, (T.lookup bucketCount items key, e) ∈ items ∧ T.keyEqual e.1 key = true := by
  unfold lookup at h ⊢
  cases hfind : ((items.filter fun x => T.index bucketCount x.2 = T.hash key%bucketCount).reverse.find? fun x => T.keyEqual x.2.1 key) with
  | none =>
    rw [hfind] at h
    exact absurd rfl h
  | some y =>
    have hy := List.mem_of_mem_filter (List.mem_reverse.mp (List.mem_of_find?_eq_some hfind))
    exact ⟨y.2, hy, List.find?_some (p := fun x : ℕ × (K × V) => T.keyEqual x.2.1 key) hfind⟩

/-! The other calls that rehash. -/

theorem SharedMemoryHashTable.ends_reserve {count : ℕ} (h : OwnsTable T vs w₀ kept rest v items cached w) (hv : v ∈ vs)
    (hroom : (w.obj v).bucketCount < minimumBucketCountForSize T count (w.obj v).maxLoadFactor →
      RehashRoom T w₀.heap (w.obj v) (minimumBucketCountForSize T count (w.obj v).maxLoadFactor)) :
    (reserve T v count).Ends w
      (fun _ w' => OwnsTable T vs w₀ kept rest v items cached w' ∧ ∃ p, w'.obj v = { w.obj v with
        buckets := p
        bucketCount := if (w.obj v).bucketCount < minimumBucketCountForSize T count (w.obj v).maxLoadFactor then
          rehashTarget T (w.obj v) (minimumBucketCountForSize T count (w.obj v).maxLoadFactor) else (w.obj v).bucketCount })
      fun e w' => (w.obj v).bucketCount < minimumBucketCountForSize T count (w.obj v).maxLoadFactor ∧
        RehashFailed T vs w₀ kept rest v items cached
          (rehashTarget T (w.obj v) (minimumBucketCountForSize T count (w.obj v).maxLoadFactor)) w e w' := by
  unfold reserve
  refine ends_get_bind ?_
  dsimp only
  by_cases hlt : (w.obj v).bucketCount < minimumBucketCountForSize T count (w.obj v).maxLoadFactor
  · rw [if_pos hlt, if_pos hlt]
    exact (ends_rehash h hv (hroom hlt)).mono (fun _ _ hq => ⟨hq.1, hq.2.1⟩) fun _ _ he => ⟨hlt, he.2⟩
  · rw [if_neg hlt, if_neg hlt]
    exact ends_pure ⟨h, _, rfl⟩

/-- The state in which `max_load_factor(value)` rehashes. -/
def SharedMemoryHashTable.withFactor (t : SharedMemoryHashTable F) (value : F) : SharedMemoryHashTable F :=
  { t with maxLoadFactor := value }

theorem OwnsTable.setFactor (h : OwnsTable T vs w₀ kept rest v items cached w) (hv : v ∈ vs) (f : F) :
    OwnsTable T vs w₀ kept rest v items cached
      { w with obj := Function.update w.obj v ((w.obj v).withFactor f) } := by
  obtain ⟨hown, ⟨⟨h1, h2, h3, h4, h5⟩, h6⟩⟩ := h
  have hset := hown.setObj hv ((w.obj v).withFactor f)
  refine ⟨?_, ⟨⟨?_, ?_, h3.congr rfl fun _ _ => rfl, ?_, ?_⟩, ?_⟩⟩ <;> dsimp only <;> rw [Function.update_self]
  · exact hset
  · exact h1.congr (fun _ _ => rfl) rfl rfl
  · exact h2
  · exact h4
  · exact h5
  · exact fun hb => (h6 hb).congr rfl fun _ _ => rfl

/-- The count that `max_load_factor(value)` asks for. -/
def SharedMemoryHashTable.factorTarget (T : TableType K V F) (t : SharedMemoryHashTable F) (value : F) : ℕ :=
  rehashTarget T (t.withFactor value) (minimumBucketCountForSize T t.size value)

theorem ends_setMaxLoadFactor {value : F} (h : OwnsTable T vs w₀ kept rest v items cached w) (hv : v ∈ vs)
    (hroom : T.factors.overfull (w.obj v).size (w.obj v).bucketCount value = true →
      RehashRoom T w₀.heap ((w.obj v).withFactor value) (minimumBucketCountForSize T (w.obj v).size value)) :
    (setMaxLoadFactor T v value).Ends w
      (fun _ w' => T.factors.nonpositive value = false ∧ OwnsTable T vs w₀ kept rest v items cached w' ∧
        ∃ p, w'.obj v = { w.obj v with
          buckets := p
          bucketCount := if T.factors.overfull (w.obj v).size (w.obj v).bucketCount value = true then (w.obj v).factorTarget T value
            else (w.obj v).bucketCount
          maxLoadFactor := value })
      fun e w' => T.factors.nonpositive value = true ∧
          e = .invalidArgument "SharedMemoryHashTable::max_load_factor must be positive" ∧ w' = w ∨
        T.factors.nonpositive value = false ∧ T.factors.overfull (w.obj v).size (w.obj v).bucketCount value = true ∧
          (w.obj v).factorTarget T value ≠ (w.obj v).bucketCount ∧
          RehashFailed T vs w₀ kept rest v items cached ((w.obj v).factorTarget T value)
            { w with obj := Function.update w.obj v ((w.obj v).withFactor value) } e w' := by
  unfold setMaxLoadFactor
  by_cases hneg : T.factors.nonpositive value = true
  · rw [if_pos hneg]
    exact ends_throw (Or.inl ⟨hneg, rfl, rfl⟩)
  · rw [if_neg hneg]
    rw [Bool.not_eq_true] at hneg
    -- the factor is stored before anything can throw, and stays when `rehash` does
    have hset := h.setFactor hv value
    have hobj : ({ w with obj := Function.update w.obj v ((w.obj v).withFactor value) } : TableWorld K V F).obj v =
      (w.obj v).withFactor value := Function.update_self ..
    apply ends_store_bind
    change Ends _ { w with obj := Function.update w.obj v ((w.obj v).withFactor value) } _ _
    generalize ({ w with obj := Function.update w.obj v ((w.obj v).withFactor value) } : TableWorld K V F) = u at hset hobj ⊢
    refine ends_get_bind ?_
    dsimp only
    rw [hobj]
    change Ends (if T.factors.overfull (w.obj v).size (w.obj v).bucketCount value = true then
      rehash T v (minimumBucketCountForSize T (w.obj v).size value) else pure ()) u _ _
    by_cases hfull : T.factors.overfull (w.obj v).size (w.obj v).bucketCount value = true
    · rw [if_pos hfull, if_pos hfull]
      have hrehash := ends_rehash hset hv
        (by rw [hobj]; exact hroom hfull)
      rw [hobj] at hrehash
      exact hrehash.mono (fun _ _ hq => ⟨hneg, hq.1, hq.2.1⟩) fun _ _ he => Or.inr ⟨hneg, hfull, he⟩
    · rw [if_neg hfull, if_neg hfull]
      exact ends_pure ⟨hneg, hset, (w.obj v).buckets, hobj⟩

/-! Insertion. -/

/-- The bucket count after an insertion of a new element. -/
def SharedMemoryHashTable.countAfterInsert (T : TableType K V F) (t : SharedMemoryHashTable F) : ℕ :=
  if t.bucketCount = 0 ∨ T.factors.crowded (t.size+1) t.bucketCount t.maxLoadFactor = true then rehashTarget T t (grownBucketCount t)
  else t.bucketCount

/-- The bucket array that an insertion asks for lies below the end of the address space. -/
def InsertionRoom (T : TableType K V F) (g : Heap) (t : SharedMemoryHashTable F) : Prop :=
  t.bucketCount = 0 ∨ T.factors.crowded (t.size+1) t.bucketCount t.maxLoadFactor = true →
    RehashRoom T g t (grownBucketCount t)

instance (g : Heap) (t : SharedMemoryHashTable F) : Decidable (InsertionRoom T g t) := inferInstanceAs (Decidable (_ → _))

/-- What a single insertion of the key asks for fits. -/
def InsertionFits (T : TableType K V F) (w : TableWorld K V F) (v : ℕ) (key : K) : Prop :=
  ((findNode T v key).run w).1 = .ok 0 → InsertionRoom T w.heap (w.obj v)

instance (w : TableWorld K V F) (v : ℕ) (key : K) : Decidable (InsertionFits T w v key) := inferInstanceAs (Decidable (_ → _))

theorem Owning.rehashRoom_iff {N : NodeType} (h : Owning N vs w₀ kept w mine) {t : SharedMemoryHashTable F} :
    RehashRoom T w.heap t n ↔ RehashRoom T w₀.heap t n := by
  unfold RehashRoom BucketRoom
  rw [h.holding.room_iff]

theorem Owning.bucketRoom_iff {N : NodeType} (h : Owning N vs w₀ kept w mine) : BucketRoom w.heap n ↔ BucketRoom w₀.heap n := by
  unfold BucketRoom
  rw [h.holding.room_iff]

theorem ends_maybeRehashForInsert (h : OwnsTable T vs w₀ kept rest v items cached w) (hv : v ∈ vs)
    (hroom : InsertionRoom T w₀.heap (w.obj v)) :
    (maybeRehashForInsert T v).Ends w
      (fun _ w' => OwnsTable T vs w₀ kept rest v items cached w' ∧ (w'.obj v).buckets ≠ 0 ∧
        ∃ p, w'.obj v = { w.obj v with buckets := p, bucketCount := (w.obj v).countAfterInsert T })
      fun e w' => ((w.obj v).bucketCount = 0 ∨ T.factors.crowded ((w.obj v).size+1) (w.obj v).bucketCount (w.obj v).maxLoadFactor = true) ∧
        rehashTarget T (w.obj v) (grownBucketCount (w.obj v)) ≠ (w.obj v).bucketCount ∧
        RehashFailed T vs w₀ kept rest v items cached (rehashTarget T (w.obj v) (grownBucketCount (w.obj v))) w e w' := by
  unfold maybeRehashForInsert
  refine ends_get_bind ?_
  dsimp only
  unfold countAfterInsert
  by_cases hcond : (w.obj v).bucketCount = 0 ∨
      T.factors.crowded ((w.obj v).size+1) (w.obj v).bucketCount (w.obj v).maxLoadFactor = true
  · rw [if_pos hcond, if_pos hcond]
    refine (ends_rehash h hv (hroom hcond)).mono (fun _ w' hq => ⟨hq.1, fun hb => ?_, hq.2.1⟩) fun _ _ he => ⟨hcond, he⟩
    obtain ⟨h', ⟨p, hobj⟩, -⟩ := hq
    have hzero := h'.holds.toNodesHold.buckets_zero_iff.mp hb
    rw [hobj] at hzero
    exact absurd hzero (Nat.pos_iff_ne_zero.mp (rehashTarget_pos (T := T) (w.obj v) _))
  · rw [if_neg hcond, if_neg hcond]
    refine ends_pure ⟨h, fun hb => hcond (Or.inl (h.holds.toNodesHold.buckets_zero_iff.mp hb)), (w.obj v).buckets, rfl⟩

theorem Owning.iterStep {own : List ℕ} {N : NodeType} (h : Owning N vs w₀ kept w mine) (hs : IterStep v own w w') (hv : v ∈ vs)
    (hown : ∀ q ∈ own, q ∈ mine.map Prod.fst) : Owning N vs w₀ kept w' mine := by
  obtain ⟨h1, h2, h3, h4, h5, h6⟩ := h
  have hheap := hs.heap_eq
  refine ⟨by rwa [hheap], fun a ha => ?_, fun q c hq => ?_, fun u hu => ?_, fun u hu => ?_, hs.names_eq.trans h6⟩
  · rw [hs.cell_eq _ fun hm => ?_, h2 a ha]
    obtain ⟨r, hr, heq⟩ := List.mem_map.mp (hown _ hm)
    exact h1.apart r hr a ha heq.symm
  · have hext := hs.extent_eq N q
    rw [hq] at hext
    obtain ⟨c', hc', hsize⟩ := Option.map_eq_some_iff.mp hext.symm
    rw [hheap]
    obtain ⟨a, ha, hpay, hle⟩ := h3 q c' hc'
    exact ⟨a, ha, hpay, hsize ▸ hle⟩
  · rw [hs.pool_eq]
    exact h4 u hu
  · obtain ⟨head, tail, hobj⟩ := hs.obj_eq
    have hne : u ≠ v := fun heq => hu (heq ▸ hv)
    rw [hobj, Function.update_of_ne hne]
    exact h5 u hu

/-- The node is on both lists; or the hash has thrown before any store. -/
theorem ends_linkNewNode (h : OwnsTable T vs w₀ kept ((p, T.sizeofNode) :: rest) v items cached w) (hv : v ∈ vs)
    (hb : (w.obj v).buckets ≠ 0) (he : w.elem? p = some e) :
    (linkNewNode T v p).Ends w
      (fun _ w' => Owning T.toNodeType vs w₀ kept w' (T.owned (w.obj v) items cached ++ ((p, T.sizeofNode) :: rest)) ∧
        Iterates w' (w'.obj v) (items ++ [(p, e)]) ∧ Bucketed T w' (w.obj v).buckets (w.obj v).bucketCount (items ++ [(p, e)]) ∧
        Caches w' v cached ∧ (∃ head tail, w'.obj v = { w.obj v with head := head, tail := tail }) ∧ w'.hashes = w.hashes+1)
      fun e' w' => e' = .hash ∧ w' = { w with hashes := w.hashes+1 } := by
  obtain ⟨hown, hholds⟩ := h
  have hmine : (p, T.sizeofNode) ∈ T.owned (w.obj v) items cached ++ ((p, T.sizeofNode) :: rest) := by simp
  have hp0 := (hown.address_bounds hmine).1
  -- the node is not of the table yet
  have hpnot : p ∉ (T.owned (w.obj v) items cached).map Prod.fst := by
    have hnd := hown.holding.distinct
    rw [List.map_append, List.map_cons] at hnd
    exact fun hm => (List.nodup_append.mp hnd).2.2 _ hm _ List.mem_cons_self rfl
  rw [mem_owned_addresses, not_or, not_or] at hpnot
  obtain ⟨hpitems, hpcached, -⟩ := hpnot
  have hnode : ∀ q ∈ items.nodes, w.IsNode q := fun q hq => hholds.toNodesHold.isNode hq
  have hpos := (hholds.array hb).1
  have hin : ∀ q ∈ (w.obj v).buckets :: p :: items.nodes,
      q ∈ (T.owned (w.obj v) items cached ++ ((p, T.sizeofNode) :: rest)).map Prod.fst := by
    intro q hq
    rw [List.map_append, List.mem_append, mem_owned_addresses, List.map_cons, List.mem_cons]
    simp only [List.mem_cons] at hq
    rcases hq with rfl | rfl | hq
    · exact Or.inl (Or.inr (Or.inr ⟨hb, rfl⟩))
    · exact Or.inr (Or.inl rfl)
    · exact Or.inl (Or.inl hq)
  have hcachedout : ∀ q ∈ cached, q ∉ (w.obj v).buckets :: p :: items.nodes := by
    intro q hq hm
    simp only [List.mem_cons] at hm
    rcases hm with rfl | rfl | hm
    · exact hown.array_apart hb (List.mem_append_right _ hq)
    · exact hpcached hq
    · exact hholds.toNodesHold.cached_apart hq hm
  unfold linkNewNode
  refine ends_get_bind ?_
  dsimp only
  have hlink := ends_linkInBucket (hholds.chains hb) hholds.iterates.nodup hpitems hholds.iterates.not_null hpos he hnode
  refine (hlink.mono (fun _ _ hq => hq) fun e' w' he' => ⟨he'.1, he'.2.1⟩).bind fun _ u hu => ?_
  obtain ⟨hbu, hstep, hhash, -⟩ := hu
  have hownu := hown.bucketStep hstep hin
  have hiter := hholds.iterates.bucketStep hstep
  have hobj : u.obj = w.obj := hstep.obj_eq
  rw [← hobj] at hiter
  have heu : u.elem? p = some e := (hstep.elem_eq p).trans he
  refine (ends_linkIteration hiter hpitems hp0 heu).mono (fun _ w' hw' => ?_) fun _ _ he' => he'
  obtain ⟨hiter', hstep'⟩ := hw'
  have hsub : ∀ q ∈ p :: items.nodes, q ∈ (w.obj v).buckets :: p :: items.nodes := fun q hq => List.mem_cons_of_mem _ hq
  refine ⟨hownu.iterStep hstep' hv fun q hq => hin q (hsub q hq), hiter', hbu.iterStep hstep', ?_, ?_, hstep'.hashes_eq.trans hhash⟩
  · refine hholds.caches.congr (by rw [hstep'.pool_eq, hstep.pool_eq]) fun q hq => ?_
    rw [hstep'.cell_eq q fun hm => hcachedout q hq (hsub q hm), hstep.cell_eq q (hcachedout q hq)]
  · obtain ⟨head, tail, hobj'⟩ := hstep'.obj_eq
    refine ⟨head, tail, ?_⟩
    rw [hobj', Function.update_self, hobj]

/-- A single insertion has thrown: the elements are those of before, in order. Where the hash has thrown a node may have been
lost, or a rehash have been cut off. -/
def InsertFailed (T : TableType K V F) (vs : List ℕ) (w₀ : TableWorld K V F) (kept : List LiveAlloc) (rest : List (ℕ × ℕ)) (v : ℕ)
    (items : Items K V) (cached : List ℕ) (key : K) (w : TableWorld K V F) (e : NodeThrown) (w' : TableWorld K V F) : Prop :=
  (∃ lost cached', OwnsTable T vs w₀ kept (lost ++ rest) v items cached' w' ∧ (e ≠ .hash → lost = [] ∧ cached' = cached) ∧
      (w'.obj v).maxLoadFactor = (w.obj v).maxLoadFactor ∧
      ((w'.obj v).bucketCount = (w.obj v).bucketCount ∨ (w'.obj v).bucketCount = (w.obj v).countAfterInsert T)) ∨
    e = .hash ∧ ((findNode T v key).run w).1 = .ok 0 ∧
      ((w.obj v).bucketCount = 0 ∨ T.factors.crowded ((w.obj v).size+1) (w.obj v).bucketCount (w.obj v).maxLoadFactor = true) ∧
      rehashTarget T (w.obj v) (grownBucketCount (w.obj v)) ≠ (w.obj v).bucketCount ∧
      RelinkFailed T vs w₀ kept rest v items cached (rehashTarget T (w.obj v) (grownBucketCount (w.obj v)))
        { w with hashes := w.hashes+(w.obj v).lookups } w'

/-- The node is made, linked and counted. -/
theorem ends_addNode (h : OwnsTable T vs w₀ kept rest v items cached w) (hv : v ∈ vs) (hb : (w.obj v).buckets ≠ 0)
    (hroom : AddressRoom w₀.heap T.sizeofNode T.alignofNode) :
    (do
      let node ← NodePool.create T.toNodeType v (newNode e)
      linkNewNode T v node
      modifyObj v fun t => { t with size := t.size+1 }
      pure (node, true) : TableOp K V F (ℕ × Bool)).Ends w
      (fun r w' => r.2 = true ∧ r.1 ∉ items.nodes ∧ OwnsTable T vs w₀ kept rest v (items ++ [(r.1, e)]) cached.tail w' ∧
        ∃ head tail, w'.obj v = { w.obj v with size := (w.obj v).size+1, head := head, tail := tail })
      fun e' w' => ∃ lost cached', OwnsTable T vs w₀ kept (lost ++ rest) v items cached' w' ∧
        (e' ≠ .hash → lost = [] ∧ cached' = cached) ∧ w'.obj v = w.obj v := by
  obtain ⟨hown, hholds⟩ := h
  have hpool := hown.perm (T.owned_perm (w.obj v) items cached rest)
  have hcreate := NodePool.ends_create hpool hv hholds.caches hroom (newNode e)
  refine (hcreate.mono (fun _ _ hq => hq) fun e' w' he' => ?_).bind fun p t ht => ?_
  · -- the node has not been made
    replace he' := he'.1
    refine ⟨[], cached, ⟨?_, ?_⟩, fun _ => ⟨rfl, rfl⟩, by rw [he'.step.obj_eq]⟩
    · rw [he'.step.obj_eq, List.nil_append]
      exact he'.own.perm (T.owned_perm (w.obj v) items cached rest).symm
    · exact hholds.transfer (by rw [he'.step.obj_eq]) he'.caches (fun q _ => by rw [he'.cell_eq]) fun _ => by rw [he'.cell_eq]
  obtain ⟨ps, hcreated, hnot, hcase, -⟩ := ht
  have hps : ps = cached.tail := by
    rcases hcase with ⟨rfl, -⟩ | ⟨rfl, rfl, -⟩ <;> rfl
  subst hps
  have hobj := hcreated.step.obj_eq
  have hperm : (T.blocks (p :: cached.tail) ++ (T.blocks items.nodes ++ (w.obj v).arrayBlock ++ rest)).Perm
      (T.owned (t.obj v) items cached.tail ++ ((p, T.sizeofNode) :: rest)) := by
    rw [hobj]
    refine (List.Perm.trans ?_ List.perm_middle.symm)
    exact (T.owned_perm (w.obj v) items cached.tail rest).symm.cons _
  have hownt := hcreated.own.perm hperm
  -- the table is where the node is not
  have hpnot : p ∉ (T.owned (t.obj v) items cached.tail).map Prod.fst := by
    have hnd := hownt.holding.distinct
    rw [List.map_append, List.map_cons] at hnd
    exact fun hm => (List.nodup_append.mp hnd).2.2 _ hm _ List.mem_cons_self rfl
  rw [mem_owned_addresses, not_or, not_or] at hpnot
  obtain ⟨hpitems, hpcached, hparray⟩ := hpnot
  have hcell : ∀ q, q ≠ p → t.cell q = w.cell q := by
    intro q hq
    rw [hcreated.cell_eq]
    exact Function.update_of_ne hq _ _
  have hholdst : TableHolds T t v items cached.tail := by
    refine hholds.transfer (by rw [hobj]) hcreated.caches (fun q hq => hcell q (ne_of_mem_of_not_mem hq hpitems)) fun hb' => ?_
    refine hcell _ fun heq => hparray ?_
    rw [hobj]
    exact ⟨hb', heq.symm⟩
  have het : t.elem? p = some e := by
    unfold NodeWorld.elem?
    rw [hcreated.cell_eq, Function.update_self]
    rfl
  have hbt : (t.obj v).buckets ≠ 0 := by rwa [hobj]
  refine ((ends_linkNewNode ⟨hownt, hholdst⟩ hv hbt het).mono (fun _ _ hq => hq) fun e' w' he' => ?_).bind fun _ s hs => ?_
  · obtain ⟨rfl, rfl⟩ := he'
    exact ⟨[(p, T.sizeofNode)], _, ⟨hownt.setHashes _, hholdst.setHashes _⟩, fun hne => absurd rfl hne, by rw [← hobj]⟩
  obtain ⟨howns, hiter, hbucketed, hcaches, ⟨head, tail, hobjs⟩, -⟩ := hs
  refine ends_store_bind (ends_pure ⟨rfl, hpitems, ⟨?_, ⟨⟨?_, ?_, hcaches.congr rfl fun _ _ => rfl, ?_, ?_⟩, ?_⟩⟩, head, tail, ?_⟩)
  · have hset := howns.setObj hv { s.obj v with size := (s.obj v).size+1 }
    refine hset.perm ?_
    dsimp only
    rw [Function.update_self]
    have harray : ({ s.obj v with size := (s.obj v).size+1 } : SharedMemoryHashTable F).arrayBlock = (t.obj v).arrayBlock :=
      array_congr (by rw [hobjs]) (by rw [hobjs])
    unfold TableType.owned
    rw [harray, Items.nodes_append, List.append_assoc, NodeType.blocks_append, NodeType.blocks_append, NodeType.blocks_append]
    simp only [Items.nodes_cons, Items.nodes_nil, NodeType.blocks_cons, NodeType.blocks_nil, List.append_assoc, List.nil_append,
      List.cons_append]
    refine List.Perm.append_left _ ?_
    have hmid : (T.blocks cached.tail ++ (t.obj v).arrayBlock ++ (p, T.sizeofNode) :: rest).Perm
        ((p, T.sizeofNode) :: (T.blocks cached.tail ++ (t.obj v).arrayBlock ++ rest)) := List.perm_middle
    simpa only [List.append_assoc] using hmid
  · dsimp only
    rw [Function.update_self]
    exact hiter.congr (fun _ _ => rfl) rfl rfl
  · dsimp only
    rw [Function.update_self, hobjs, List.length_append]
    exact congrArg (·+1) hholdst.size_eq
  · dsimp only
    rw [Function.update_self, hobjs]
    intro hb'
    refine ⟨(hholdst.array hb').1, _, hbucketed.heads, ?_⟩
    rw [TableType.length_heads]
  · dsimp only
    rw [Function.update_self, hobjs]
    exact fun hb' => absurd hb' hbt
  · dsimp only
    rw [Function.update_self, hobjs]
    exact fun _ => hbucketed.congr rfl fun _ _ => rfl
  · dsimp only
    rw [Function.update_self, hobjs, hobj]

/-- `insert_value` and `try_emplace_impl`. -/
theorem ends_insertNode (h : OwnsTable T vs w₀ kept rest v items cached w) (hv : v ∈ vs)
    (hroom : AddressRoom w₀.heap T.sizeofNode T.alignofNode) (hins : InsertionFits T w v key) :
    (insertNode T v key e).Ends w
      (fun r w' => T.lookup (w.obj v).bucketCount items key ≠ 0 ∧ r = (T.lookup (w.obj v).bucketCount items key, false) ∧
          w' = { w with hashes := w.hashes+(w.obj v).lookups } ∨
        T.lookup (w.obj v).bucketCount items key = 0 ∧ r.2 = true ∧ r.1 ∉ items.nodes ∧
          OwnsTable T vs w₀ kept rest v (items ++ [(r.1, e)]) cached.tail w' ∧ (w'.obj v).maxLoadFactor = (w.obj v).maxLoadFactor ∧
          (w'.obj v).bucketCount = (w.obj v).countAfterInsert T)
      fun e' w' => InsertFailed T vs w₀ kept rest v items cached key w e' w' := by
  unfold insertNode
  -- the hash may throw in the lookup
  have hfind := (ends_findNode key h.holds h.ownsNodes.length_le).mono (fun _ _ hq => hq)
    (F := fun e' w' => InsertFailed T vs w₀ kept rest v items cached key w e' w') fun e' w' he' => by
      obtain ⟨rfl, rfl, -⟩ := he'
      exact Or.inl ⟨[], cached, h.setHashes _, fun _ => ⟨rfl, rfl⟩, rfl, Or.inl rfl⟩
  refine hfind.with_run.bind fun p t ht => ?_
  obtain ⟨⟨rfl, rfl⟩, hrun⟩ := ht
  by_cases hfound : T.lookup (w.obj v).bucketCount items key = 0
  · rw [if_neg (not_not.mpr hfound)]
    have ht := h.setHashes (w.hashes+(w.obj v).lookups)
    have hins : InsertionRoom T w₀.heap (w.obj v) := by
      intro hcond
      refine h.own.rehashRoom_iff.mp (hins ?_ hcond)
      rw [hrun, hfound]
    -- the table may grow first, which fails for want of memory or in the hash, while nodes are relinked
    have hgrow := (ends_maybeRehashForInsert ht hv hins).mono (fun _ _ hq => hq)
      (F := fun e' w' => InsertFailed T vs w₀ kept rest v items cached key w e' w') fun e' w' he' => by
        obtain ⟨hcond, hne, he'⟩ := he'
        rcases he' with ⟨-, hown, hobj, -⟩ | ⟨rfl, hfailed⟩
        · exact Or.inl ⟨[], cached, hown, fun _ => ⟨rfl, rfl⟩, by rw [hobj], Or.inl (by rw [hobj])⟩
        · exact Or.inr ⟨rfl, by rw [hrun, hfound], hcond, hne, hfailed⟩
    refine hgrow.bind fun _ u hu => ?_
    obtain ⟨hown, hb, p, hobj⟩ := hu
    -- a node is made and linked; where that throws the table has grown already
    refine (ends_addNode hown hv hb hroom).mono (fun r w' hr => ?_) fun e' w' he' => ?_
    rotate_left
    · obtain ⟨lost, cached', hlost, hnone, hobj'⟩ := he'
      exact Or.inl ⟨lost, cached', hlost, hnone, by rw [hobj', hobj], Or.inr (by rw [hobj', hobj])⟩
    obtain ⟨h1, h2, h3, head, tail, hobj'⟩ := hr
    refine Or.inr ⟨hfound, h1, h2, h3, ?_, ?_⟩ <;> rw [hobj', hobj]
  · rw [if_pos hfound]
    exact ends_pure (Or.inl ⟨hfound, rfl, rfl⟩)

/-! Erasure. -/

/-- `erase_node`: the node goes to the cache. -/
theorem ends_eraseNode (h : OwnsTable T vs w₀ kept rest v (xs ++ (p, e) :: ys) cached w) (hv : v ∈ vs)
    (hthrow : T.hashThrows w.hashes = false) :
    (eraseNode T v p).Ends w
      (fun _ w' => OwnsTable T vs w₀ kept rest v (xs ++ ys) (p :: cached) w' ∧
        (∃ head tail, w'.obj v = { w.obj v with size := (w.obj v).size-1, head := head, tail := tail }) ∧
        w'.hashes = w.hashes+1) E := by
  obtain ⟨hown, hholds⟩ := h
  have hne : xs ++ (p, e) :: ys ≠ [] := by simp
  have hb : (w.obj v).buckets ≠ 0 := fun hb => hne (hholds.bare hb).2
  obtain ⟨hpos, -⟩ := hholds.array hb
  have hnode : ∀ q ∈ (xs ++ (p, e) :: ys).nodes, w.IsNode q := fun q hq => hholds.toNodesHold.isNode hq
  have hsub : ∀ q ∈ (xs ++ ys).nodes, q ∈ (xs ++ (p, e) :: ys).nodes := by
    intro q hq
    rw [Items.nodes_append, List.mem_append] at hq ⊢
    rw [Items.nodes_cons, List.mem_cons]
    tauto
  have hpmem : p ∈ (xs ++ (p, e) :: ys).nodes := by simp
  have hpnot : p ∉ (xs ++ ys).nodes := by
    have hnd := hholds.iterates.nodup
    rw [Items.nodes_append, Items.nodes_cons] at hnd
    have hmid := (List.nodup_middle.mp hnd)
    rw [Items.nodes_append]
    exact (List.nodup_cons.mp hmid).1
  have hin : ∀ q ∈ (w.obj v).buckets :: (xs ++ ys).nodes, q ∈ (T.owned (w.obj v) (xs ++ (p, e) :: ys) cached ++ rest).map Prod.fst := by
    intro q hq
    rw [List.map_append, List.mem_append, mem_owned_addresses]
    rcases List.mem_cons.mp hq with rfl | hq
    · exact Or.inl (Or.inr (Or.inr ⟨hb, rfl⟩))
    · exact Or.inl (Or.inl (hsub q hq))
  have hcachedout : ∀ q ∈ cached, q ∉ (w.obj v).buckets :: (xs ++ ys).nodes := by
    intro q hq hm
    rcases List.mem_cons.mp hm with rfl | hm
    · exact hown.array_apart hb (List.mem_append_right _ hq)
    · exact hholds.toNodesHold.cached_apart hq (hsub q hm)
  unfold eraseNode
  have hunlink := ends_unlinkBucket (E := E) (hholds.chains hb) hholds.iterates.nodup hholds.iterates.not_null hpos
    hholds.iterates.elems hthrow
  refine hunlink.bind fun _ u hu => ?_
  obtain ⟨hbu, hstep, hhash⟩ := hu
  have hownu := hown.bucketStep hstep hin
  have hobju : u.obj = w.obj := hstep.obj_eq
  have hiteru := hholds.iterates.bucketStep hstep
  rw [← hobju] at hiteru
  refine (ends_unlinkIteration (E := E) hiteru).bind fun _ s hs => ?_
  obtain ⟨hiters, hstep'⟩ := hs
  have hbs := hbu.iterStep hstep'
  have howns := hownu.iterStep hstep' hv fun q hq => hin q (List.mem_cons_of_mem _ hq)
  obtain ⟨head, tail, hobjs⟩ := hstep'.obj_eq
  have hobjsv : s.obj v = { w.obj v with head := head, tail := tail } := by rw [hobjs, Function.update_self, hobju]
  have hcaches : Caches s v cached := by
    refine hholds.caches.congr (by rw [hstep'.pool_eq, hstep.pool_eq]) fun q hq => ?_
    rw [hstep'.cell_eq q fun hm => hcachedout q hq (List.mem_cons_of_mem _ hm), hstep.cell_eq q (hcachedout q hq)]
  have hps : s.IsNode p := (hstep'.isNode p).mpr ((hstep.isNode p).mpr (hnode p hpmem))
  have hhashs : s.hashes = w.hashes+1 := hstep'.hashes_eq.trans hhash
  have hset : ∀ f x (r : TableWorld K V F), r.IsNode p → (r.setLink p f x).IsNode p := fun f x r hr => by simpa using hr
  -- the links of the node itself are cleared
  have hp1 := hset bucketPrev 0 s hps
  have hp2 := hset bucketNext 0 _ hp1
  have hp3 := hset iterPrev 0 _ hp2
  have hp4 := hset iterNext 0 _ hp3
  refine ends_setLink_bind hps (ends_setLink_bind hp1 (ends_setLink_bind hp2 (ends_setLink_bind hp3 ?_)))
  have hmem : (p, T.sizeofNode) ∈ T.owned (w.obj v) (xs ++ (p, e) :: ys) cached ++ rest :=
    List.mem_append_left _ (List.mem_append_left _ (NodeType.mem_blocks.mpr (List.mem_append_left _ hpmem)))
  have hownl := (((howns.setLink (f := bucketPrev) (x := 0) hmem (Nat.le_refl _) hps).setLink (f := bucketNext) (x := 0) hmem
    (Nat.le_refl _) hp1).setLink (f := iterPrev) (x := 0) hmem (Nat.le_refl _) hp2).setLink (f := iterNext) (x := 0) hmem
    (Nat.le_refl _) hp3
  have hcell : ∀ q, q ≠ p → ((((s.setLink p bucketPrev 0).setLink p bucketNext 0).setLink p iterPrev 0).setLink p iterNext 0).cell q =
      s.cell q := by
    intro q hq
    rw [NodeWorld.setLink_cell_of_ne hq, NodeWorld.setLink_cell_of_ne hq, NodeWorld.setLink_cell_of_ne hq,
      NodeWorld.setLink_cell_of_ne hq]
  have hobjl : ((((s.setLink p bucketPrev 0).setLink p bucketNext 0).setLink p iterPrev 0).setLink p iterNext 0).obj = s.obj := rfl
  have hpooll : ((((s.setLink p bucketPrev 0).setLink p bucketNext 0).setLink p iterPrev 0).setLink p iterNext 0).pool = s.pool := rfl
  have hhashl : ((((s.setLink p bucketPrev 0).setLink p bucketNext 0).setLink p iterPrev 0).setLink p iterNext 0).hashes = s.hashes := rfl
  generalize (((s.setLink p bucketPrev 0).setLink p bucketNext 0).setLink p iterPrev 0).setLink p iterNext 0 = l
    at hp4 hownl hcell hobjl hpooll hhashl ⊢
  have hpcached : p ∉ cached := fun hm => hholds.toNodesHold.cached_apart hm hpmem
  have hperm : (T.owned (w.obj v) (xs ++ (p, e) :: ys) cached ++ rest).Perm
      (T.blocks (p :: cached) ++ (T.blocks (xs ++ ys).nodes ++ (w.obj v).arrayBlock ++ rest)) := by
    refine (T.owned_perm (w.obj v) _ cached rest).trans ?_
    have hmid : (T.blocks (xs ++ (p, e) :: ys).nodes).Perm ((p, T.sizeofNode) :: T.blocks (xs ++ ys).nodes) := by
      rw [Items.nodes_append, Items.nodes_append, Items.nodes_cons, NodeType.blocks_append, NodeType.blocks_append, NodeType.blocks_cons]
      exact List.perm_middle
    refine ((hmid.append_right _).append_right _ |>.append_left _).trans ?_
    exact List.perm_middle
  have hcachel : Caches l v cached :=
    hcaches.congr (by rw [hpooll]) fun q hq => hcell q (ne_of_mem_of_not_mem hq hpcached)
  obtain ⟨y, hy⟩ := hp4
  refine (NodePool.ends_destroy (E := E) (hownl.perm hperm) hv hcachel hy).bind fun _ t ht => ends_store ?_
  obtain ⟨⟨next, hcellt⟩, hpstep, hownt, hcachet, -⟩ := ht
  have hcells : ∀ q, q ≠ p → t.cell q = s.cell q := by
    intro q hq
    rw [hcellt, Function.update_of_ne hq, hcell q hq]
  have hobjt : t.obj v = { w.obj v with head := head, tail := tail } := by rw [hpstep.obj_eq, hobjl, hobjsv]
  have hne' : ∀ q ∈ (xs ++ ys).nodes, q ≠ p := fun q hq => ne_of_mem_of_not_mem hq hpnot
  have harrayp : (w.obj v).buckets ≠ p := fun heq => hown.array_apart hb (by rw [heq]; exact List.mem_append_left _ hpmem)
  have harray : t.cell (w.obj v).buckets = some (.links (T.heads (w.obj v).bucketCount (xs ++ ys))) :=
    (hcells _ harrayp).trans hbs.heads
  refine ⟨⟨?_, ⟨⟨?_, ?_, hcachet.congr rfl fun _ _ => rfl, ?_, ?_⟩, ?_⟩⟩, ⟨head, tail, ?_⟩, hpstep.hashes_eq.trans (hhashl.trans hhashs)⟩
  · have hfinal := hownt.setObj hv { t.obj v with size := (t.obj v).size-1 }
    refine hfinal.perm ?_
    dsimp only
    rw [Function.update_self, hobjt]
    exact (T.owned_perm (w.obj v) (xs ++ ys) (p :: cached) rest).symm
  · dsimp only
    rw [Function.update_self]
    have hsame : ∀ q ∈ (xs ++ ys).nodes, t.cell q = s.cell q := fun q hq => hcells q (hne' q hq)
    exact hiters.congr hsame (by rw [hobjt, hobjsv]) (by rw [hobjt, hobjsv])
  · dsimp only
    rw [Function.update_self, hobjt]
    have hsize := hholds.size_eq
    rw [List.length_append, List.length_cons] at hsize
    rw [List.length_append]
    change (w.obj v).size-1 = _
    omega
  · dsimp only
    rw [Function.update_self, hobjt]
    exact fun _ => ⟨hpos, _, harray, TableType.length_heads _ _⟩
  · dsimp only
    rw [Function.update_self, hobjt]
    exact fun hb' => absurd hb' hb
  · dsimp only
    rw [Function.update_self, hobjt]
    intro _
    refine hbs.congr ?_ fun q hq => hcells q (hne' q hq)
    exact hcells _ harrayp
  · dsimp only
    rw [Function.update_self, hobjt]

/-! `clear`. -/

/-- The members but for the array after `clear`. -/
def SharedMemoryHashTable.emptied (t : SharedMemoryHashTable F) : SharedMemoryHashTable F := { t with size := 0, head := 0, tail := 0 }

/-- The loop of `clear`: the nodes go to the cache, one after the other. -/
theorem ends_destroyNodes {ps : List ℕ} {fuel node : ℕ} (h : Owning T.toNodeType vs w₀ kept w (T.blocks (ps ++ cached) ++ rest))
    (hv : v ∈ vs) (hc : Caches w v cached) (hlink : ForwardLinked (w.link iterNext) 0 ps) (hhead : node = ps.headD 0)
    (h0 : 0 ∉ ps) (hnodes : ∀ q ∈ ps, w.IsNode q) (hfuel : ps.length ≤ fuel) :
    (destroyNodes v fuel node : TableOp K V F Unit).Ends w
      (fun _ w' => Owning T.toNodeType vs w₀ kept w' (T.blocks (ps.reverse ++ cached) ++ rest) ∧ Caches w' v (ps.reverse ++ cached) ∧
        PoolStep w w' ∧ (∀ q, q ∉ ps → w'.cell q = w.cell q) ∧
        (w'.pool v).nodePoolAllocations = (w.pool v).nodePoolAllocations) E := by
  induction ps generalizing w cached fuel node with
  | nil =>
    obtain rfl : node = 0 := hhead
    unfold destroyNodes
    rw [if_pos rfl]
    exact ends_pure ⟨h, hc, .refl w, fun _ _ => rfl, rfl⟩
  | cons p ps ih =>
    obtain ⟨fuel, rfl⟩ : ∃ k, fuel = k+1 := ⟨fuel-1, by rw [List.length_cons] at hfuel; omega⟩
    obtain rfl : node = p := hhead
    rw [List.mem_cons, not_or] at h0
    have hnd : (node :: (ps ++ cached)).Nodup := h.blocks_nodup
    have hnot : node ∉ ps := fun hm => (List.nodup_cons.mp hnd).1 (List.mem_append_left _ hm)
    have hp := hnodes node List.mem_cons_self
    unfold destroyNodes
    rw [if_neg (Ne.symm h0.1)]
    refine ends_readLink_bind hp ?_
    obtain ⟨x, hx⟩ := hp
    -- the node goes from the chain to the cache of the pool
    have hperm : (T.blocks (node :: ps ++ cached) ++ rest).Perm (T.blocks (node :: cached) ++ (T.blocks ps ++ rest)) := by
      simp only [List.cons_append, NodeType.blocks_cons, NodeType.blocks_append]
      rw [← List.append_assoc]
      have hcomm : (T.blocks ps ++ T.blocks cached).Perm (T.blocks cached ++ T.blocks ps) := List.perm_append_comm
      exact (hcomm.append_right rest).cons _
    have hdestroy := NodePool.ends_destroy (E := E) (h.perm hperm) hv hc hx
    refine hdestroy.bind fun _ t ht => ?_
    obtain ⟨⟨next, hcell⟩, hstep, hown, hcache, halloc⟩ := ht
    have hperm' : (T.blocks (node :: cached) ++ (T.blocks ps ++ rest)).Perm (T.blocks (ps ++ node :: cached) ++ rest) := by
      rw [NodeType.blocks_append, ← List.append_assoc]
      exact List.perm_append_comm.append_right rest
    have hcells : ∀ q, q ≠ node → t.cell q = w.cell q := by
      intro q hq
      rw [hcell]
      exact Function.update_of_ne hq _ _
    have hlater : ForwardLinked (t.link iterNext) 0 ps :=
      hlink.2.congr fun q hq => NodeWorld.link_congr (hcells q (ne_of_mem_of_not_mem hq hnot))
    have hnodes' : ∀ q ∈ ps, t.IsNode q := fun q hq =>
      (NodeWorld.isNode_congr (hcells q (ne_of_mem_of_not_mem hq hnot))).mpr (hnodes q (List.mem_cons_of_mem _ hq))
    refine (ih (hown.perm hperm') hcache hlater hlink.1 h0.2 hnodes' (by rw [List.length_cons] at hfuel; omega)).mono
      (fun _ w' hw' => ?_) fun _ _ he => he
    obtain ⟨hown', hcache', hstep', hcells', halloc'⟩ := hw'
    have hlist : (node :: ps).reverse ++ cached = ps.reverse ++ node :: cached := by simp
    rw [hlist]
    refine ⟨hown', hcache', hstep.trans hstep', fun q hq => ?_, halloc'.trans halloc⟩
    rw [List.mem_cons, not_or] at hq
    rw [hcells' q hq.2, hcells q hq.1]

/-- `clear`, also where the chains are in disorder. -/
theorem SharedMemoryHashTable.ends_clear (h : OwnsNodes T vs w₀ kept rest v items cached w) (hv : v ∈ vs) :
    (clear v : TableOp K V F Unit).Ends w
      (fun _ w' => OwnsTable T vs w₀ kept rest v [] (items.nodes.reverse ++ cached) w' ∧
        w'.obj v = (w.obj v).emptied ∧ w'.hashes = w.hashes) E := by
  have hlen := h.length_le
  obtain ⟨hown, hnodes⟩ := h
  unfold clear
  refine ends_get_bind ?_
  have hperm : (T.owned (w.obj v) items cached ++ rest).Perm (T.blocks (items.nodes ++ cached) ++ ((w.obj v).arrayBlock ++ rest)) := by
    unfold TableType.owned
    rw [List.append_assoc]
  have hfuel : items.nodes.length ≤ walkFuel := by rwa [Items.nodes, List.length_map]
  have hdestroy := ends_destroyNodes (E := E) (hown.perm hperm) hv hnodes.caches hnodes.iterates.linked.forward
    hnodes.iterates.head_eq hnodes.iterates.not_null (fun q hq => hnodes.isNode hq) hfuel
  refine hdestroy.bind fun _ t ht => ?_
  obtain ⟨hownt, hcache, hstep, hcells, -⟩ := ht
  have hobj := hstep.obj_eq
  refine ends_store_bind (ends_store_bind (ends_store_bind ?_))
  dsimp only
  simp only [Function.update_self, Function.update_idem]
  -- the array, where there is one, is emptied
  change Ends _ { t with obj := Function.update t.obj v (t.obj v).emptied } _ _
  have hset := hownt.setObj hv (t.obj v).emptied
  have hobj' : ({ t with obj := Function.update t.obj v (t.obj v).emptied } : TableWorld K V F).obj v = (w.obj v).emptied := by
    dsimp only
    rw [Function.update_self, hobj]
  have hcache' : Caches ({ t with obj := Function.update t.obj v (t.obj v).emptied } : TableWorld K V F) v
      (items.nodes.reverse ++ cached) := hcache.congr rfl fun _ _ => rfl
  have hhash : ({ t with obj := Function.update t.obj v (t.obj v).emptied } : TableWorld K V F).hashes = w.hashes := hstep.hashes_eq
  generalize ({ t with obj := Function.update t.obj v (t.obj v).emptied } : TableWorld K V F) = u at hset hobj' hcache' hhash ⊢
  have hiter : ∀ s : TableWorld K V F, Iterates s (w.obj v).emptied [] := fun s =>
    ⟨by simp, List.nodup_nil, by simp, .nil, rfl, rfl⟩
  unfold clearBuckets
  refine ends_get_bind ?_
  rw [hobj']
  change Ends (if (w.obj v).buckets ≠ 0 then initializeBucketArray (w.obj v).buckets (w.obj v).bucketCount else pure ()) u _ _
  by_cases hb : (w.obj v).buckets = 0
  · rw [if_neg (not_not.mpr hb)]
    refine ends_pure ⟨⟨?_, ⟨⟨?_, ?_, hcache', ?_, ?_⟩, ?_⟩⟩, hobj', hhash⟩ <;> try rw [hobj']
    · unfold TableType.owned
      rw [List.append_assoc]
      exact hset
    · exact hiter u
    · rfl
    · exact fun hb' => absurd hb hb'
    · exact fun _ => ⟨(hnodes.bare hb).1, rfl⟩
    · exact fun hb' => absurd hb hb'
  · rw [if_pos hb]
    have hmem : ((w.obj v).buckets, (w.obj v).bucketCount*8) ∈
        T.blocks (items.nodes.reverse ++ cached) ++ ((w.obj v).arrayBlock ++ rest) := by
      rw [array_of_ne hb]
      simp
    refine ends_initializeBucketArray hset hmem ?_
    have hownd := hset.setArray hmem (List.length_replicate (n := (w.obj v).bucketCount) (a := 0))
    have hobjd : (u.setArray (w.obj v).buckets (List.replicate (w.obj v).bucketCount 0)).obj v = _ := hobj'
    have harray : (u.setArray (w.obj v).buckets (List.replicate (w.obj v).bucketCount 0)).cell (w.obj v).buckets =
        some (.links (List.replicate (w.obj v).bucketCount 0)) := Function.update_self ..
    refine ⟨⟨?_, ⟨⟨?_, ?_, ?_, ?_, ?_⟩, ?_⟩⟩, hobjd, hhash⟩ <;> try rw [hobjd]
    · unfold TableType.owned
      rw [List.append_assoc]
      exact hownd
    · exact hiter _
    · rfl
    · refine hcache'.congr rfl fun q hq => Function.update_of_ne (fun heq => ?_) _ _
      refine hown.array_apart hb ?_
      rw [← heq]
      rcases List.mem_append.mp hq with hq | hq
      · exact List.mem_append_left _ (List.mem_reverse.mp hq)
      · exact List.mem_append_right _ hq
    · exact fun _ => ⟨(hnodes.array hb).1, _, harray, List.length_replicate ..⟩
    · exact fun hb' => absurd hb' hb
    · exact fun _ => .nil harray

end ShmNext
