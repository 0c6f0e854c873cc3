import ShmNext.DoublyLinked
import ShmNext.HashTable

/-! The two lists of the hash table, and what linking, unlinking and relinking a node do to them. -/
namespace ShmNext
open Prog NodeOp SharedMemoryHashTable HashLink

/-- Nodes with their elements, in the order of insertion. -/
abbrev Items (K V : Type) := List (ℕ × (K × V))

def Items.nodes {K V : Type} (items : Items K V) : List ℕ := items.map Prod.fst

variable {K V F α : Type} {T : TableType K V F} {w w' w₀ t : TableWorld K V F} {vs own : List ℕ} {kept : List LiveAlloc}
  {mine : List (ℕ × ℕ)} {items done rest xs ys : Items K V} {v p q array bucketCount i : ℕ} {e : K × V} {key : K}
  {Q : α → TableWorld K V F → Prop} {l : List ℕ} {first : ℕ} {E : NodeThrown → TableWorld K V F → Prop}

/-- The bucket of an element. -/
def TableType.index (T : TableType K V F) (bucketCount : ℕ) (e : K × V) : ℕ := T.hash e.1%bucketCount

/-- The nodes of the bucket `i`, in the order of insertion. The chain in memory runs the other way. -/
def TableType.bucket (T : TableType K V F) (bucketCount : ℕ) (items : Items K V) (i : ℕ) : List ℕ :=
  Items.nodes (items.filter fun x => T.index bucketCount x.2 = i)

/-- What the bucket array has to be. -/
def TableType.heads (T : TableType K V F) (bucketCount : ℕ) (items : Items K V) : List ℕ :=
  (List.range bucketCount).map fun i => (T.bucket bucketCount items i).reverse.headD 0

/-- The elements are in the nodes, and the iteration list visits these in order. -/
structure Iterates (w : TableWorld K V F) (t : SharedMemoryHashTable F) (items : Items K V) : Prop where
  elems : ∀ x ∈ items, w.elem? x.1 = some x.2
  nodup : items.nodes.Nodup
  not_null : 0 ∉ items.nodes
  linked : DoublyLinked (w.link iterNext) (w.link iterPrev) 0 0 items.nodes
  head_eq : t.head = items.nodes.headD 0
  tail_eq : t.tail = items.nodes.reverse.headD 0

/-- The chains of the array hold exactly the nodes of their buckets. -/
structure Bucketed (T : TableType K V F) (w : TableWorld K V F) (array bucketCount : ℕ) (items : Items K V) : Prop where
  heads : w.cell array = some (.links (T.heads bucketCount items))
  chains : ∀ i < bucketCount, DoublyLinked (w.link bucketPrev) (w.link bucketNext) 0 0 (T.bucket bucketCount items i)

/-- Nothing has changed but the bucket links of the nodes `own`, or arrays among `own`. -/
structure BucketStep (own : List ℕ) (w w' : TableWorld K V F) : Prop where
  cell_eq : ∀ q, q ∉ own → w'.cell q = w.cell q
  isNode : ∀ q, w'.IsNode q ↔ w.IsNode q
  elem_eq : ∀ q, w'.elem? q = w.elem? q
  next_eq : ∀ q, w'.link iterNext q = w.link iterNext q
  prev_eq : ∀ q, w'.link iterPrev q = w.link iterPrev q
  extent_eq : ∀ (N : NodeType) q, (w'.cell q).map (Cell.extent N) = (w.cell q).map (Cell.extent N)
  obj_eq : w'.obj = w.obj
  pool_eq : w'.pool = w.pool
  heap_eq : w'.heap = w.heap
  names_eq : w'.names = w.names

theorem BucketStep.refl (own : List ℕ) (w : TableWorld K V F) : BucketStep own w w :=
  ⟨fun _ _ => rfl, fun _ => Iff.rfl, fun _ => rfl, fun _ => rfl, fun _ => rfl, fun _ _ => rfl, rfl, rfl, rfl, rfl⟩

theorem BucketStep.trans (h : BucketStep own w w') (h' : BucketStep own w' t) : BucketStep own w t :=
  ⟨fun q hq => (h'.cell_eq q hq).trans (h.cell_eq q hq), fun q => (h'.isNode q).trans (h.isNode q),
    fun q => (h'.elem_eq q).trans (h.elem_eq q), fun q => (h'.next_eq q).trans (h.next_eq q),
    fun q => (h'.prev_eq q).trans (h.prev_eq q), fun N q => (h'.extent_eq N q).trans (h.extent_eq N q),
    h'.obj_eq.trans h.obj_eq, h'.pool_eq.trans h.pool_eq, h'.heap_eq.trans h.heap_eq, h'.names_eq.trans h.names_eq⟩

theorem BucketStep.mono {own' : List ℕ} (h : BucketStep own w w') (hsub : ∀ q ∈ own, q ∈ own') : BucketStep own' w w' :=
  ⟨fun q hq => h.cell_eq q fun hm => hq (hsub q hm), h.isNode, h.elem_eq, h.next_eq, h.prev_eq, h.extent_eq, h.obj_eq, h.pool_eq,
    h.heap_eq, h.names_eq⟩

theorem BucketStep.hashes (own : List ℕ) (w : TableWorld K V F) (k : ℕ) : BucketStep own w { w with hashes := k } :=
  ⟨fun _ _ => rfl, fun _ => Iff.rfl, fun _ => rfl, fun _ => rfl, fun _ => rfl, fun _ _ => rfl, rfl, rfl, rfl, rfl⟩

theorem Owning.bucketStep {N : NodeType} (h : Owning N vs w₀ kept w mine) (hs : BucketStep own w w')
    (hown : ∀ q ∈ own, q ∈ mine.map Prod.fst) : Owning N vs w₀ kept w' mine := by
  obtain ⟨h1, h2, h3, h4, h5, h6⟩ := h
  have hheap := hs.heap_eq
  refine ⟨by rwa [hheap], fun a ha => ?_, fun q c hq => ?_, fun u hu => ?_, fun u hu => ?_, hs.names_eq.trans h6⟩
  · rw [hs.cell_eq _ fun hm => ?_, h2 a ha]
    obtain ⟨r, hr, heq⟩ := List.mem_map.mp (hown _ hm)
    exact h1.apart r hr a ha heq.symm
  · have hext := hs.extent_eq N q
    rw [hq] at hext
    obtain ⟨c', hc', hsize⟩ := Option.map_eq_some_iff.mp hext.symm
    rw [hheap]
    obtain ⟨a, ha, hpay, hle⟩ := h3 q c' hc'
    exact ⟨a, ha, hpay, hsize ▸ hle⟩
  · rw [hs.pool_eq]
    exact h4 u hu
  · rw [hs.obj_eq]
    exact h5 u hu

namespace NodeWorld
variable {N M : Type} {u u' : NodeWorld (LinkedNode HashLink ℕ (K × V)) M}

theorem link_congr {f : HashLink} (h : u'.cell q = u.cell q) : u'.link f q = u.link f q := by
  unfold link
  rw [h]

theorem elem_congr (h : u'.cell q = u.cell q) : u'.elem? q = u.elem? q := by
  unfold elem?
  rw [h]

theorem isNode_congr (h : u'.cell q = u.cell q) : u'.IsNode q ↔ u.IsNode q := by
  unfold IsNode
  rw [h]

end NodeWorld

/-! Buckets as lists. -/

namespace Items

@[simp] theorem nodes_append (xs ys : Items K V) : Items.nodes (xs ++ ys) = xs.nodes ++ ys.nodes := List.map_append

@[simp] theorem nodes_cons (x : ℕ × (K × V)) (xs : Items K V) : Items.nodes (x :: xs) = x.1 :: xs.nodes := rfl

@[simp] theorem nodes_nil : Items.nodes ([] : Items K V) = [] := rfl

theorem mem_nodes {x : ℕ × (K × V)} (h : x ∈ items) : x.1 ∈ items.nodes := List.mem_map_of_mem h

theorem exists_of_mem_nodes (h : p ∈ items.nodes) : ∃ e, (p, e) ∈ items := by
  obtain ⟨x, hx, rfl⟩ := List.mem_map.mp h
  exact ⟨x.2, hx⟩

theorem eq_of_nodup (hnd : items.nodes.Nodup) {e e' : K × V} (h : (p, e) ∈ items) (h' : (p, e') ∈ items) : e = e' := by
  have hinj := List.inj_on_of_nodup_map hnd h h' rfl
  exact (Prod.ext_iff.mp hinj).2

end Items

namespace TableType

theorem bucket_append (xs ys : Items K V) : T.bucket bucketCount (xs ++ ys) i = T.bucket bucketCount xs i ++ T.bucket bucketCount ys i := by
  unfold bucket
  rw [List.filter_append, Items.nodes_append]

theorem bucket_singleton (p : ℕ) (e : K × V) : T.bucket bucketCount [(p, e)] i = if T.index bucketCount e = i then [p] else [] := by
  unfold bucket
  by_cases h : T.index bucketCount e = i
  · rw [if_pos h, List.filter_cons, if_pos (decide_eq_true h)]
    rfl
  · rw [if_neg h, List.filter_cons, if_neg (by simpa using h)]
    rfl

theorem bucket_cons (p : ℕ) (e : K × V) (ys : Items K V) :
    T.bucket bucketCount ((p, e) :: ys) i = (if T.index bucketCount e = i then [p] else []) ++ T.bucket bucketCount ys i := by
  rw [← bucket_singleton (T := T) p e, ← bucket_append]
  rfl

theorem mem_bucket : p ∈ T.bucket bucketCount items i ↔ ∃ e, (p, e) ∈ items ∧ T.index bucketCount e = i := by
  unfold bucket Items.nodes
  simp

theorem bucket_sublist {bucketCount i : ℕ} : (T.bucket bucketCount items i).Sublist items.nodes := List.filter_sublist.map _

/-- A node is in one bucket only. -/
theorem index_eq_of_mem (hnd : items.nodes.Nodup) (he : (p, e) ∈ items) (hp : p ∈ T.bucket bucketCount items i) :
    T.index bucketCount e = i := by
  obtain ⟨e', he', hi⟩ := mem_bucket.mp hp
  rwa [Items.eq_of_nodup hnd he he']

@[simp] theorem length_heads (bucketCount : ℕ) (items : Items K V) : (T.heads bucketCount items).length = bucketCount := by
  unfold heads
  rw [List.length_map, List.length_range]

theorem getElem_heads (items : Items K V) (h : i < bucketCount) :
    (T.heads bucketCount items)[i]? = some ((T.bucket bucketCount items i).reverse.headD 0) := by
  unfold heads
  rw [List.getElem?_map, List.getElem?_range h]
  rfl

/-- Only the bucket of one element is headed by another node. -/
theorem heads_set (xs ys : Items K V) (hsame : ∀ j, j ≠ i → T.bucket bucketCount ys j = T.bucket bucketCount xs j) :
    (T.heads bucketCount xs).set i ((T.bucket bucketCount ys i).reverse.headD 0) = T.heads bucketCount ys := by
  refine List.ext_getElem? fun j => ?_
  rw [List.getElem?_set, length_heads]
  by_cases hij : i = j
  · subst hij
    by_cases hlt : i < bucketCount
    · rw [if_pos rfl, if_pos hlt, getElem_heads _ hlt]
    · rw [if_pos rfl, if_neg hlt, List.getElem?_eq_none (by rw [length_heads]; omega)]
  · rw [if_neg hij]
    by_cases hlt : j < bucketCount
    · rw [getElem_heads _ hlt, getElem_heads _ hlt, hsame j (Ne.symm hij)]
    · rw [List.getElem?_eq_none (by rw [length_heads]; omega), List.getElem?_eq_none (by rw [length_heads]; omega)]

end TableType

theorem Bucketed.congr (h : Bucketed T w array bucketCount items) (harray : w'.cell array = w.cell array)
    (hcell : ∀ q ∈ items.nodes, w'.cell q = w.cell q) : Bucketed T w' array bucketCount items := by
  refine ⟨harray.trans h.heads, fun i hi => (h.chains i hi).congr (fun q hq => ?_) fun q hq => ?_⟩
  · exact NodeWorld.link_congr (hcell q (T.bucket_sublist.mem hq))
  · exact NodeWorld.link_congr (hcell q (T.bucket_sublist.mem hq))

theorem Iterates.congr {t t' : SharedMemoryHashTable F} (h : Iterates w t items) (hcell : ∀ q ∈ items.nodes, w'.cell q = w.cell q)
    (hhead : t'.head = t.head) (htail : t'.tail = t.tail) : Iterates w' t' items := by
  obtain ⟨h1, h2, h3, h4, h5, h6⟩ := h
  refine ⟨fun x hx => ?_, h2, h3, h4.congr (fun q hq => ?_) fun q hq => ?_, hhead.trans h5, htail.trans h6⟩
  · rw [NodeWorld.elem_congr (hcell _ (Items.mem_nodes hx))]
    exact h1 x hx
  · exact NodeWorld.link_congr (hcell q hq)
  · exact NodeWorld.link_congr (hcell q hq)

/-- Steps on bucket links leave the iteration list alone. -/
theorem Iterates.bucketStep {t : SharedMemoryHashTable F} (h : Iterates w t items) (hs : BucketStep own w w') : Iterates w' t items := by
  obtain ⟨h1, h2, h3, h4, h5, h6⟩ := h
  refine ⟨fun x hx => (hs.elem_eq x.1).trans (h1 x hx), h2, h3, ?_, h5, h6⟩
  exact h4.congr (fun q _ => hs.next_eq q) fun q _ => hs.prev_eq q

/-! One node becomes the first of its bucket. -/

/-- The stores of `linkInBucket`. -/
def NodeWorld.linkedIn (w : TableWorld K V F) (p first : ℕ) : TableWorld K V F :=
  let w' := (w.setLink p bucketPrev 0).setLink p bucketNext first
  if first ≠ 0 then w'.setLink first bucketPrev p else w'

namespace NodeWorld

theorem linkedIn_prev (hp : w.IsNode p) (hfirst : first ≠ 0 → w.IsNode first ∧ first ≠ p) :
    (w.linkedIn p first).link bucketPrev q = if q = p then 0 else if first ≠ 0 ∧ q = first then p else w.link bucketPrev q := by
  unfold linkedIn
  dsimp only
  by_cases h0 : first = 0
  · rw [if_neg (not_not.mpr h0), link_setLink_of_ne (by decide), link_setLink hp]
    by_cases hq : q = p
    · rw [if_pos ⟨rfl, hq⟩, if_pos hq]
    · rw [if_neg fun h => hq h.2, if_neg hq, if_neg fun h => h.1 h0]
  · obtain ⟨hnode, hne⟩ := hfirst h0
    rw [if_pos h0, link_setLink (by simpa using hnode), link_setLink_of_ne (by decide), link_setLink hp]
    by_cases hqf : q = first
    · subst hqf
      rw [if_pos ⟨rfl, rfl⟩, if_neg hne, if_pos ⟨h0, rfl⟩]
    · rw [if_neg fun h => hqf h.2, if_neg (show ¬(first ≠ 0 ∧ q = first) from fun h => hqf h.2)]
      by_cases hq : q = p
      · rw [if_pos ⟨rfl, hq⟩, if_pos hq]
      · rw [if_neg fun h => hq h.2, if_neg hq]

theorem linkedIn_next (hp : w.IsNode p) : (w.linkedIn p first).link bucketNext q = if q = p then first else w.link bucketNext q := by
  have hnode : (w.setLink p bucketPrev 0).IsNode p := by simpa using hp
  have htwo : ((w.setLink p bucketPrev 0).setLink p bucketNext first).link bucketNext q =
      if q = p then first else w.link bucketNext q := by
    rw [link_setLink hnode, link_setLink_of_ne (by decide)]
    by_cases hq : q = p
    · rw [if_pos ⟨rfl, hq⟩, if_pos hq]
    · rw [if_neg fun h => hq h.2, if_neg hq]
  unfold linkedIn
  dsimp only
  by_cases h0 : first = 0
  · rw [if_neg (not_not.mpr h0), htwo]
  · rw [if_pos h0, link_setLink_of_ne (by decide), htwo]

theorem bucketStep_setLink {f : HashLink} {x : ℕ} (hf : f = bucketPrev ∨ f = bucketNext) : BucketStep [p] w (w.setLink p f x) := by
  have hne : iterNext ≠ f ∧ iterPrev ≠ f := by rcases hf with rfl | rfl <;> decide
  exact ⟨fun q hq => setLink_cell_of_ne (List.ne_of_not_mem_cons hq), fun q => isNode_setLink, fun q => elem_setLink,
    fun q => link_setLink_of_ne hne.1, fun q => link_setLink_of_ne hne.2, fun N q => extent_setLink, rfl, rfl, rfl, rfl⟩

theorem bucketStep_linkedIn (hp : p ∈ own) (hfirst : first ≠ 0 → first ∈ own) : BucketStep own w (w.linkedIn p first) := by
  have hone : ∀ q ∈ [p], q ∈ own := fun q hq => List.mem_singleton.mp hq ▸ hp
  have htwo : BucketStep own w ((w.setLink p bucketPrev 0).setLink p bucketNext first) :=
    ((bucketStep_setLink (Or.inl rfl)).trans (bucketStep_setLink (Or.inr rfl))).mono hone
  unfold linkedIn
  dsimp only
  by_cases h0 : first = 0
  · rw [if_neg (not_not.mpr h0)]
    exact htwo
  · rw [if_pos h0]
    have hlast : ∀ q ∈ [first], q ∈ own := fun q hq => List.mem_singleton.mp hq ▸ hfirst h0
    exact htwo.trans ((bucketStep_setLink (Or.inl rfl)).mono hlast)

@[simp] theorem linkedIn_hashes : (w.linkedIn p first).hashes = w.hashes := by
  unfold linkedIn
  dsimp only
  split <;> rfl

/-- What is no node stays as it was. -/
theorem linkedIn_cell_of_not (h : ¬w.IsNode q) : (w.linkedIn p first).cell q = w.cell q := by
  have htwo : ((w.setLink p bucketPrev 0).setLink p bucketNext first).cell q = w.cell q := by
    rw [setLink_cell_of_not (by simpa using h), setLink_cell_of_not h]
  unfold linkedIn
  dsimp only
  by_cases h0 : first = 0
  · rw [if_neg (not_not.mpr h0), htwo]
  · rw [if_pos h0, setLink_cell_of_not (by simpa using h), htwo]

theorem not_isNode_of_links {a : List ℕ} (h : w.cell q = some (.links a)) : ¬w.IsNode q := by
  rintro ⟨n, hn⟩
  rw [h] at hn
  cases hn

end NodeWorld

/-- The array of links at `array` is stored anew. -/
def NodeWorld.setArray (w : TableWorld K V F) (array : ℕ) (a : List ℕ) : TableWorld K V F :=
  { w with cell := Function.update w.cell array (some (.links a)) }

section
variable {a : List ℕ} (h : w.cell array = some (.links a))
include h

theorem link_setArray (a' : List ℕ) (f : HashLink) (q : ℕ) : (w.setArray array a').link f q = w.link f q := by
  by_cases hq : q = array
  · subst hq
    unfold NodeWorld.link NodeWorld.setArray
    dsimp only
    rw [Function.update_self, h]
  · exact NodeWorld.link_congr (Function.update_of_ne hq _ _)

theorem bucketStep_setArray (hlen : a'.length = a.length) : BucketStep [array] w (w.setArray array a') := by
  have hcell : ∀ q, q ≠ array → (w.setArray array a').cell q = w.cell q := fun q hq => Function.update_of_ne hq _ _
  refine ⟨fun q hq => hcell q (List.ne_of_not_mem_cons hq), fun q => ?_, fun q => ?_, link_setArray h _ _, link_setArray h _ _,
    fun N q => ?_, rfl, rfl, rfl, rfl⟩
  · by_cases hq : q = array
    · subst hq
      unfold NodeWorld.IsNode NodeWorld.setArray
      dsimp only
      rw [Function.update_self, h]
      simp
    · exact NodeWorld.isNode_congr (hcell q hq)
  · by_cases hq : q = array
    · subst hq
      unfold NodeWorld.elem? NodeWorld.setArray
      dsimp only
      rw [Function.update_self, h]
    · exact NodeWorld.elem_congr (hcell q hq)
  · by_cases hq : q = array
    · subst hq
      unfold NodeWorld.setArray
      dsimp only
      rw [Function.update_self, h, Option.map_some, Option.map_some]
      unfold Cell.extent
      dsimp only
      rw [hlen]
    · rw [hcell q hq]

end

theorem headD_reverse_mem (h : l.reverse.headD 0 ≠ 0) : l.reverse.headD 0 ∈ l :=
  List.mem_reverse.mp ((headD_mem_or l.reverse 0).resolve_right fun hnil => h hnil.2)

/-- The chains after the stores of `linkInBucket`. -/
theorem Bucketed.link (h : Bucketed T w array bucketCount items) (hnd : items.nodes.Nodup) (hpnot : p ∉ items.nodes)
    (h0 : 0 ∉ items.nodes) (hp : w.IsNode p) (hnodes : ∀ q ∈ items.nodes, w.IsNode q)
    (hfirst : (T.bucket bucketCount items (T.index bucketCount e)).reverse.headD 0 = first) :
    Bucketed T ((w.linkedIn p first).setArray array ((T.heads bucketCount items).set (T.index bucketCount e) p)) array bucketCount
      (items ++ [(p, e)]) := by
  have hbucket : ∀ i, T.bucket bucketCount (items ++ [(p, e)]) i =
      T.bucket bucketCount items i ++ if T.index bucketCount e = i then [p] else [] := by
    intro i
    rw [TableType.bucket_append, TableType.bucket_singleton]
  have hfmem : first ≠ 0 → first ∈ T.bucket bucketCount items (T.index bucketCount e) := by
    intro hne
    rw [← hfirst] at hne ⊢
    exact headD_reverse_mem hne
  have hfnode : first ≠ 0 → w.IsNode first ∧ first ≠ p := by
    intro hne
    have hm := T.bucket_sublist.mem (hfmem hne)
    exact ⟨hnodes first hm, ne_of_mem_of_not_mem hm hpnot⟩
  have hcell : (w.linkedIn p first).cell array = some (.links (T.heads bucketCount items)) :=
    (NodeWorld.linkedIn_cell_of_not (NodeWorld.not_isNode_of_links h.heads)).trans h.heads
  refine ⟨?_, fun i hi => ?_⟩
  · have hhead : (T.bucket bucketCount (items ++ [(p, e)]) (T.index bucketCount e)).reverse.headD 0 = p := by
      rw [hbucket, if_pos rfl, List.reverse_append]
      rfl
    have hset := TableType.heads_set items (items ++ [(p, e)]) fun j (hj : j ≠ T.index bucketCount e) => by
      rw [hbucket, if_neg (Ne.symm hj), List.append_nil]
    rw [hhead] at hset
    rw [← hset]
    exact Function.update_self ..
  · have hprev := fun q => (link_setArray hcell ((T.heads bucketCount items).set (T.index bucketCount e) p) bucketPrev q).trans
      (NodeWorld.linkedIn_prev hp hfnode)
    have hnext := fun q => (link_setArray hcell ((T.heads bucketCount items).set (T.index bucketCount e) p) bucketNext q).trans
      (NodeWorld.linkedIn_next hp)
    rw [hbucket]
    by_cases hi' : T.index bucketCount e = i
    · -- the chain that gets the node
      subst hi'
      rw [if_pos rfl]
      have hchain := h.chains _ hi
      rw [← List.append_nil (T.bucket bucketCount items (T.index bucketCount e))] at hchain
      have hndb := hnd.sublist (@TableType.bucket_sublist _ _ _ T items bucketCount (T.index bucketCount e))
      have hnull : 0 ∉ T.bucket bucketCount items (T.index bucketCount e) := fun hm => h0 (T.bucket_sublist.mem hm)
      refine hchain.insert (by rwa [List.append_nil]) (by simp) hnull (fun q hq => ?_) (fun q hq => ?_) ?_ ?_
      · rw [List.append_nil] at hq
        have hqp : q ≠ p := ne_of_mem_of_not_mem (T.bucket_sublist.mem hq) hpnot
        rw [hprev, if_neg hqp, hfirst]
        by_cases hqf : q = first
        · rw [if_pos ⟨fun hz => hnull (by rw [← hz, ← hqf]; exact hq), hqf⟩, if_pos hqf]
        · rw [if_neg fun hc => hqf hc.2, if_neg hqf]
      · rw [List.append_nil] at hq
        have hqp : q ≠ p := ne_of_mem_of_not_mem (T.bucket_sublist.mem hq) hpnot
        rw [hnext, if_neg hqp]
        exact (if_neg (show ¬q = 0 from fun hz => hnull (hz ▸ hq))).symm
      · rw [hprev, if_pos rfl]
        rfl
      · rw [hnext, if_pos rfl, hfirst]
    · rw [if_neg hi', List.append_nil]
      -- `first` is in its own bucket only, so the other chains see none of the stores
      refine (h.chains i hi).congr (fun q hq => ?_) fun q hq => ?_
      · have hqp : q ≠ p := ne_of_mem_of_not_mem (T.bucket_sublist.mem hq) hpnot
        rw [hprev, if_neg hqp]
        refine if_neg fun hc => hi' ?_
        obtain ⟨e', he', hidx⟩ := TableType.mem_bucket.mp (hc.2 ▸ hfmem hc.1)
        exact hidx.symm.trans (TableType.index_eq_of_mem hnd he' hq)
      · have hqp : q ≠ p := ne_of_mem_of_not_mem (T.bucket_sublist.mem hq) hpnot
        rw [hnext, if_neg hqp]

theorem ends_bucketIndexFor (h : 0 < bucketCount) : (bucketIndexFor T key bucketCount).Ends w
    (fun i w' => i = T.hash key%bucketCount ∧ w' = { w with hashes := w.hashes+1 } ∧ T.hashThrows w.hashes = false)
    fun e w' => e = .hash ∧ w' = { w with hashes := w.hashes+1 } ∧ T.hashThrows w.hashes = true := by
  unfold bucketIndexFor
  rw [if_neg (Nat.pos_iff_ne_zero.mp h)]
  refine ends_hashCall.bind fun _ t ht => ?_
  obtain ⟨rfl, hthrow⟩ := ht
  exact ends_pure ⟨rfl, rfl, hthrow⟩

/-- The node is put in front of its bucket, or the hash has thrown before any store. -/
theorem ends_linkInBucket (h : Bucketed T w array bucketCount items) (hnd : items.nodes.Nodup) (hpnot : p ∉ items.nodes)
    (h0 : 0 ∉ items.nodes) (hpos : 0 < bucketCount) (he : w.elem? p = some e) (hnodes : ∀ q ∈ items.nodes, w.IsNode q) :
    (linkInBucket T array bucketCount p).Ends w
      (fun _ w' => Bucketed T w' array bucketCount (items ++ [(p, e)]) ∧ BucketStep (array :: p :: items.nodes) w w' ∧
        w'.hashes = w.hashes+1 ∧ T.hashThrows w.hashes = false)
      fun e' w' => e' = .hash ∧ w' = { w with hashes := w.hashes+1 } ∧ T.hashThrows w.hashes = true := by
  unfold linkInBucket
  refine ends_readElem_bind he ((ends_bucketIndexFor hpos).bind fun i t ht => ?_)
  obtain ⟨hi, ht, hthrow⟩ := ht
  have hidx : i = T.index bucketCount e := hi
  have hlt : i < bucketCount := hi ▸ Nat.mod_lt _ hpos
  have hstep := BucketStep.hashes (array :: p :: items.nodes) w (w.hashes+1)
  rw [← ht] at hstep
  have hb : Bucketed T t array bucketCount items := h.congr (by rw [ht]) fun q _ => by rw [ht]
  have hp : t.IsNode p := (hstep.isNode p).mpr (NodeWorld.isNode_iff_elem.mpr ⟨e, he⟩)
  have hnodes' : ∀ q ∈ items.nodes, t.IsNode q := fun q hq => (hstep.isNode q).mpr (hnodes q hq)
  generalize hfirst : (T.bucket bucketCount items i).reverse.headD 0 = first
  have hfmem : first ≠ 0 → first ∈ items.nodes := by
    intro hne
    rw [← hfirst] at hne ⊢
    exact T.bucket_sublist.mem (headD_reverse_mem hne)
  have hnot : ¬t.IsNode array := NodeWorld.not_isNode_of_links hb.heads
  have hread : ∀ f x, (t.setLink p f x).cell array = some (.links (T.heads bucketCount items)) := fun f x =>
    (NodeWorld.setLink_cell_of_not hnot).trans hb.heads
  have hhead : (T.heads bucketCount items)[i]? = some first := by rw [TableType.getElem_heads _ hlt, hfirst]
  have hlen : i < (T.heads bucketCount items).length := by rwa [TableType.length_heads]
  have hcell : (t.linkedIn p first).cell array = some (.links (T.heads bucketCount items)) :=
    (NodeWorld.linkedIn_cell_of_not hnot).trans hb.heads
  -- the two ways through `linkOr` make the same stores but for the link back from `first`
  have hdone : Bucketed T ((t.linkedIn p first).setArray array ((T.heads bucketCount items).set i p)) array bucketCount
      (items ++ [(p, e)]) ∧
      BucketStep (array :: p :: items.nodes) w ((t.linkedIn p first).setArray array ((T.heads bucketCount items).set i p)) := by
    subst hidx
    have hlinked : BucketStep (array :: p :: items.nodes) t (t.linkedIn p first) :=
      NodeWorld.bucketStep_linkedIn (by simp) fun hne => by simp [hfmem hne]
    have hset : BucketStep (array :: p :: items.nodes) (t.linkedIn p first)
        ((t.linkedIn p first).setArray array ((T.heads bucketCount items).set (T.index bucketCount e) p)) :=
      (bucketStep_setArray hcell (List.length_set ..)).mono (by simp)
    refine ⟨hb.link hnd hpnot h0 hp hnodes' hfirst, hstep.trans (hlinked.trans hset)⟩
  have hend : ((t.linkedIn p first).setArray array ((T.heads bucketCount items).set i p)).hashes = w.hashes+1 := by
    change (t.linkedIn p first).hashes = _
    rw [NodeWorld.linkedIn_hashes, ht]
  refine ends_setLink_bind hp (ends_readSlot_bind (hread _ _) hhead (ends_setLink_bind (by simpa using hp) ?_))
  unfold linkOr
  by_cases hz : first = 0
  · rw [if_neg (not_not.mpr hz)]
    have hsame : t.linkedIn p first = (t.setLink p bucketPrev 0).setLink p bucketNext first := by
      unfold NodeWorld.linkedIn
      rw [if_neg (not_not.mpr hz)]
    rw [hsame] at hcell hdone hend
    exact ends_pure_bind (ends_setSlot hcell hlen ⟨hdone.1, hdone.2, hend, hthrow⟩)
  · rw [if_pos hz]
    have hsame : t.linkedIn p first = ((t.setLink p bucketPrev 0).setLink p bucketNext first).setLink first bucketPrev p := by
      unfold NodeWorld.linkedIn
      rw [if_pos hz]
    rw [hsame] at hcell hdone hend
    refine ends_setLink_bind ?_ (ends_setSlot hcell hlen ⟨hdone.1, hdone.2, hend, hthrow⟩)
    simpa using hnodes' first (hfmem hz)

/-! `relink_all_buckets`. -/

theorem ends_clearBucketLinks {ps : List ℕ} {fuel node : ℕ} (hlink : ForwardLinked (w.link iterNext) 0 ps) (hhead : node = ps.headD 0)
    (hnd : ps.Nodup) (h0 : 0 ∉ ps) (hnodes : ∀ q ∈ ps, w.IsNode q) (hfuel : ps.length ≤ fuel) :
    (clearBucketLinks fuel node : TableOp K V F Unit).Ends w
      (fun _ w' => BucketStep ps w w' ∧ w'.hashes = w.hashes ∧ ∀ q ∈ ps, w'.link bucketPrev q = 0 ∧ w'.link bucketNext q = 0) E := by
  -- the induction is on the nodes still to be cleared
  induction ps generalizing w fuel node with
  | nil =>
    obtain rfl : node = 0 := hhead
    unfold clearBucketLinks
    rw [if_pos rfl]
    exact ends_pure ⟨.refl _ _, rfl, by simp⟩
  | cons p ps ih =>
    obtain ⟨fuel, rfl⟩ : ∃ k, fuel = k+1 := ⟨fuel-1, by rw [List.length_cons] at hfuel; omega⟩
    obtain rfl : node = p := hhead
    rw [List.mem_cons, not_or] at h0
    obtain ⟨hnot, hnd⟩ := List.nodup_cons.mp hnd
    have hp := hnodes node List.mem_cons_self
    unfold clearBucketLinks
    rw [if_neg (Ne.symm h0.1)]
    refine ends_setLink_bind hp (ends_setLink_bind (by simpa using hp) (ends_readLink_bind (by simpa using hp) ?_))
    have hstep : BucketStep [node] w ((w.setLink node bucketPrev 0).setLink node bucketNext 0) :=
      (NodeWorld.bucketStep_setLink (Or.inl rfl)).trans (NodeWorld.bucketStep_setLink (Or.inr rfl))
    have hcleared : ((w.setLink node bucketPrev 0).setLink node bucketNext 0).link bucketPrev node = 0 ∧
        ((w.setLink node bucketPrev 0).setLink node bucketNext 0).link bucketNext node = 0 := by
      rw [NodeWorld.link_setLink_of_ne (by decide), NodeWorld.link_setLink hp, NodeWorld.link_setLink (by simpa using hp)]
      exact ⟨if_pos ⟨rfl, rfl⟩, if_pos ⟨rfl, rfl⟩⟩
    have hhashes : ((w.setLink node bucketPrev 0).setLink node bucketNext 0).hashes = w.hashes := rfl
    generalize (w.setLink node bucketPrev 0).setLink node bucketNext 0 = u at hstep hcleared hhashes ⊢
    have hrest : ForwardLinked (u.link iterNext) 0 ps := hlink.2.congr fun q _ => hstep.next_eq q
    have hnext : u.link iterNext node = ps.headD 0 := (hstep.next_eq node).trans hlink.1
    refine (ih hrest hnext hnd h0.2 (fun q hq => (hstep.isNode q).mpr (hnodes q (List.mem_cons_of_mem _ hq)))
      (by rw [List.length_cons] at hfuel; omega)).mono (fun _ w' hw' => ?_) fun _ _ he => he
    obtain ⟨hs, hh, hz⟩ := hw'
    refine ⟨(hstep.mono (by simp)).trans (hs.mono fun q hq => List.mem_cons_of_mem _ hq), hh.trans hhashes, fun q hq => ?_⟩
    rcases List.mem_cons.mp hq with rfl | hq
    · rw [NodeWorld.link_congr (hs.cell_eq q hnot), NodeWorld.link_congr (hs.cell_eq q hnot)]
      exact hcleared
    · exact hz q hq

theorem ends_relinkNodes {fuel node : ℕ} (h : Bucketed T w array bucketCount done) (hpos : 0 < bucketCount)
    (hlink : ForwardLinked (w.link iterNext) 0 rest.nodes) (hhead : node = rest.nodes.headD 0)
    (hnd : (done ++ rest).nodes.Nodup) (h0 : 0 ∉ (done ++ rest).nodes) (helems : ∀ x ∈ done ++ rest, w.elem? x.1 = some x.2)
    (hfuel : rest.length ≤ fuel) :
    (relinkNodes T array bucketCount fuel node).Ends w
      (fun _ w' => Bucketed T w' array bucketCount (done ++ rest) ∧ BucketStep (array :: (done ++ rest).nodes) w w' ∧
        w'.hashes = w.hashes+rest.length ∧ ∀ k < rest.length, T.hashThrows (w.hashes+k) = false)
      fun e w' => e = .hash ∧ ∃ xs ys, rest = xs ++ ys ∧ ys ≠ [] ∧ Bucketed T w' array bucketCount (done ++ xs) ∧
        BucketStep (array :: (done ++ xs).nodes) w w' ∧ w'.hashes = w.hashes+xs.length+1 ∧
        T.hashThrows (w.hashes+xs.length) = true ∧ ∀ k < xs.length, T.hashThrows (w.hashes+k) = false := by
  -- the chains of `done` are complete; the induction is on the nodes that the loop has not come to
  induction rest generalizing w done fuel node with
  | nil =>
    obtain rfl : node = 0 := hhead
    unfold relinkNodes
    rw [if_pos rfl]
    rw [List.append_nil]
    exact ends_pure ⟨h, .refl _ _, rfl, fun k hk => absurd hk (Nat.not_lt_zero _)⟩
  | cons x rest ih =>
    obtain ⟨fuel, rfl⟩ : ∃ k, fuel = k+1 := ⟨fuel-1, by rw [List.length_cons] at hfuel; omega⟩
    obtain ⟨p, e⟩ := x
    obtain rfl : node = p := hhead
    have hsplit : done ++ (node, e) :: rest = (done ++ [(node, e)]) ++ rest := by simp
    have hnd' := hnd
    rw [Items.nodes_append] at hnd' h0
    obtain ⟨hndd, -, hdisj⟩ := List.nodup_append.mp hnd'
    have hpnot : node ∉ done.nodes := fun hm => hdisj node hm node List.mem_cons_self rfl
    rw [List.mem_append, not_or] at h0
    have hp0 : node ≠ 0 := fun hz => h0.2 (hz ▸ List.mem_cons_self)
    unfold relinkNodes
    rw [if_neg hp0]
    have hnodes : ∀ q ∈ done.nodes, w.IsNode q := by
      intro q hq
      obtain ⟨e', he'⟩ := Items.exists_of_mem_nodes hq
      exact NodeWorld.isNode_iff_elem.mpr ⟨e', helems _ (List.mem_append_left _ he')⟩
    have helem : w.elem? node = some e := helems (node, e) (by simp)
    -- where the hash throws on this node nothing of `rest` has been linked
    have hlinked := (ends_linkInBucket h hndd hpnot h0.1 hpos helem hnodes).mono (fun _ _ hq => hq)
      (F := fun e w' => e = .hash ∧ ∃ xs ys, (node, _) :: rest = xs ++ ys ∧ ys ≠ [] ∧ Bucketed T w' array bucketCount (done ++ xs) ∧
        BucketStep (array :: (done ++ xs).nodes) w w' ∧ w'.hashes = w.hashes+xs.length+1 ∧
        T.hashThrows (w.hashes+xs.length) = true ∧ ∀ k < xs.length, T.hashThrows (w.hashes+k) = false) fun e' w' he' => by
      obtain ⟨rfl, rfl, hthrow⟩ := he'
      refine ⟨rfl, [], (node, e) :: rest, rfl, by simp, ?_, .hashes _ _ _, rfl, hthrow, fun k hk => absurd hk (Nat.not_lt_zero _)⟩
      rw [List.append_nil]
      exact h.congr rfl fun _ _ => rfl
    refine hlinked.bind fun _ u hu => ?_
    obtain ⟨hb, hstep, hhash, hthrow⟩ := hu
    refine ends_readLink_bind ((hstep.isNode node).mpr (NodeWorld.isNode_iff_elem.mpr ⟨e, helem⟩)) ?_
    rw [hsplit] at hnd helems ⊢
    -- no bucket link is an iteration link, so the loop goes on along the same list
    have hrest : ForwardLinked (u.link iterNext) 0 (Items.nodes rest) := hlink.2.congr fun q _ => hstep.next_eq q
    have hnext : u.link iterNext node = (Items.nodes rest).headD 0 := (hstep.next_eq node).trans hlink.1
    have hown : ∀ zs : Items K V, ∀ q ∈ array :: node :: done.nodes, q ∈ array :: Items.nodes (done ++ [(node, e)] ++ zs) := by
      intro zs q hq
      simp only [Items.nodes_append, Items.nodes_cons, Items.nodes_nil, List.mem_cons, List.mem_append, List.not_mem_nil] at hq ⊢
      tauto
    refine (ih hb hrest hnext hnd ?_ (fun x hx => (hstep.elem_eq x.1).trans (helems x hx))
      (by rw [List.length_cons] at hfuel; omega)).mono (fun _ w' hw' => ?_) fun e' w' he' => ?_
    · simp only [Items.nodes_append, Items.nodes_cons, Items.nodes_nil, List.mem_append, List.mem_cons, List.not_mem_nil] at h0 ⊢
      tauto
    · obtain ⟨hb', hs', hh', ht'⟩ := hw'
      refine ⟨hb', (hstep.mono (hown rest)).trans hs', ?_, fun k hk => ?_⟩
      · rw [hh', hhash, List.length_cons]
        omega
      · cases k with
        | zero => exact hthrow
        | succ k =>
          have := ht' k (by simpa using hk)
          rwa [hhash, show w.hashes+1+k = w.hashes+(k+1) from by omega] at this
    · obtain ⟨rfl, xs, ys, rfl, hys, hb', hs', hh', ht', hk'⟩ := he'
      refine ⟨rfl, (node, e) :: xs, ys, rfl, hys, ?_, ?_, ?_, ?_, fun k hk => ?_⟩
      · rwa [List.append_assoc] at hb'
      · have := (hstep.mono (hown xs)).trans hs'
        rwa [List.append_assoc] at this
      · rw [hh', hhash, List.length_cons]
        omega
      · rw [hhash] at ht'
        rwa [List.length_cons, show w.hashes+(xs.length+1) = w.hashes+1+xs.length from by omega]
      · cases k with
        | zero => exact hthrow
        | succ k =>
          have := hk' k (by simpa using hk)
          rwa [hhash, show w.hashes+1+k = w.hashes+(k+1) from by omega] at this

/-! The iteration list. -/

/-- Nothing has changed but the iteration links of the nodes `own`, and `head_` and `tail_` of `v`. -/
structure IterStep (v : ℕ) (own : List ℕ) (w w' : TableWorld K V F) : Prop where
  cell_eq : ∀ q, q ∉ own → w'.cell q = w.cell q
  isNode : ∀ q, w'.IsNode q ↔ w.IsNode q
  elem_eq : ∀ q, w'.elem? q = w.elem? q
  next_eq : ∀ q, w'.link bucketNext q = w.link bucketNext q
  prev_eq : ∀ q, w'.link bucketPrev q = w.link bucketPrev q
  not_node : ∀ q, ¬w.IsNode q → w'.cell q = w.cell q
  extent_eq : ∀ (N : NodeType) q, (w'.cell q).map (Cell.extent N) = (w.cell q).map (Cell.extent N)
  obj_eq : ∃ head tail, w'.obj = Function.update w.obj v { w.obj v with head := head, tail := tail }
  pool_eq : w'.pool = w.pool
  heap_eq : w'.heap = w.heap
  names_eq : w'.names = w.names
  hashes_eq : w'.hashes = w.hashes

theorem IterStep.refl (v : ℕ) (own : List ℕ) (w : TableWorld K V F) : IterStep v own w w :=
  ⟨fun _ _ => rfl, fun _ => Iff.rfl, fun _ => rfl, fun _ => rfl, fun _ => rfl, fun _ _ => rfl, fun _ _ => rfl,
    ⟨_, _, (Function.update_eq_self v w.obj).symm⟩, rfl, rfl, rfl, rfl⟩

theorem IterStep.trans (h : IterStep v own w w') (h' : IterStep v own w' t) : IterStep v own w t := by
  refine ⟨fun q hq => (h'.cell_eq q hq).trans (h.cell_eq q hq), fun q => (h'.isNode q).trans (h.isNode q),
    fun q => (h'.elem_eq q).trans (h.elem_eq q), fun q => (h'.next_eq q).trans (h.next_eq q),
    fun q => (h'.prev_eq q).trans (h.prev_eq q), fun q hq => ?_, fun N q => (h'.extent_eq N q).trans (h.extent_eq N q), ?_,
    h'.pool_eq.trans h.pool_eq, h'.heap_eq.trans h.heap_eq, h'.names_eq.trans h.names_eq, h'.hashes_eq.trans h.hashes_eq⟩
  · exact (h'.not_node q fun hn => hq ((h.isNode q).mp hn)).trans (h.not_node q hq)
  · obtain ⟨head, tail, hobj⟩ := h.obj_eq
    obtain ⟨head', tail', hobj'⟩ := h'.obj_eq
    refine ⟨head', tail', ?_⟩
    rw [hobj', hobj, Function.update_self, Function.update_idem]

theorem IterStep.setLink {f : HashLink} {x : ℕ} (hf : f = iterPrev ∨ f = iterNext) (hp : p ∈ own) :
    IterStep v own w (w.setLink p f x) := by
  have hne : bucketNext ≠ f ∧ bucketPrev ≠ f := by rcases hf with rfl | rfl <;> decide
  exact ⟨fun q hq => NodeWorld.setLink_cell_of_ne fun heq => hq (heq ▸ hp), fun q => NodeWorld.isNode_setLink,
    fun q => NodeWorld.elem_setLink, fun q => NodeWorld.link_setLink_of_ne hne.1, fun q => NodeWorld.link_setLink_of_ne hne.2,
    fun q hq => NodeWorld.setLink_cell_of_not hq, fun N q => NodeWorld.extent_setLink,
    ⟨_, _, (Function.update_eq_self v w.obj).symm⟩, rfl, rfl, rfl, rfl⟩

theorem IterStep.setObj (w : TableWorld K V F) (v : ℕ) (own : List ℕ) (head tail : ℕ) :
    IterStep v own w { w with obj := Function.update w.obj v { w.obj v with head := head, tail := tail } } :=
  ⟨fun _ _ => rfl, fun _ => Iff.rfl, fun _ => rfl, fun _ => rfl, fun _ => rfl, fun _ _ => rfl, fun _ _ => rfl,
    ⟨_, _, rfl⟩, rfl, rfl, rfl, rfl⟩

/-- Steps on iteration links leave the chains alone. -/
theorem Bucketed.iterStep (h : Bucketed T w array bucketCount items) (hs : IterStep v own w w') :
    Bucketed T w' array bucketCount items := by
  refine ⟨?_, fun i hi => (h.chains i hi).congr (fun q _ => hs.prev_eq q) fun q _ => hs.next_eq q⟩
  rw [hs.not_node array (NodeWorld.not_isNode_of_links h.heads)]
  exact h.heads

/-- The iteration list with a node more at its end. -/
theorem Iterates.snoc {t t' : SharedMemoryHashTable F} (h : Iterates w t items) (hpnot : p ∉ items.nodes) (hp0 : p ≠ 0)
    (he : w'.elem? p = some e) (helem : ∀ q, w'.elem? q = w.elem? q)
    (hn : ∀ q ∈ items.nodes, w'.link iterNext q = if q = t.tail then p else w.link iterNext q)
    (hp : ∀ q ∈ items.nodes, w'.link iterPrev q = w.link iterPrev q) (hnp : w'.link iterNext p = 0)
    (hpp : w'.link iterPrev p = t.tail) (hhead : t'.head = if t.tail ≠ 0 then t.head else p) (htail : t'.tail = p) :
    Iterates w' t' (items ++ [(p, e)]) := by
  obtain ⟨h1, h2, h3, h4, h5, h6⟩ := h
  have hnd : (items.nodes ++ [p]).Nodup :=
    List.nodup_append.mpr ⟨h2, List.nodup_singleton p, fun q hq r hr => List.mem_singleton.mp hr ▸ ne_of_mem_of_not_mem hq hpnot⟩
  refine ⟨fun x hx => ?_, ?_, ?_, ?_, ?_, ?_⟩
  · rcases List.mem_append.mp hx with hx | hx
    · rw [helem]
      exact h1 x hx
    · rw [List.mem_singleton.mp hx]
      exact he
  · rwa [Items.nodes_append]
  · rw [Items.nodes_append, List.mem_append, not_or]
    exact ⟨h3, fun hm => hp0 (List.mem_singleton.mp hm).symm⟩
  · rw [Items.nodes_append]
    rw [← List.append_nil items.nodes] at h4
    refine h4.insert (by rwa [List.append_nil]) (by simp) h3 (fun q hq => ?_) (fun q hq => ?_) hnp (hpp.trans h6)
    · rw [List.append_nil] at hq
      rw [hn q hq, h6]
    · rw [List.append_nil] at hq
      rw [hp q hq]
      exact (if_neg (show ¬q = 0 from fun hz => h3 (hz ▸ hq))).symm
  · rw [hhead, Items.nodes_append, headD_append, h6, h5]
    exact headD_of_last h3 _ _
  · rw [htail, Items.nodes_append, List.reverse_append]
    rfl

/-- The node becomes the last of the iteration list. -/
theorem ends_linkIteration (h : Iterates w (w.obj v) items) (hpnot : p ∉ items.nodes) (hp0 : p ≠ 0) (he : w.elem? p = some e) :
    (linkIteration v p : TableOp K V F Unit).Ends w
      (fun _ w' => Iterates w' (w'.obj v) (items ++ [(p, e)]) ∧ IterStep v (p :: items.nodes) w w') E := by
  have hnode : w.IsNode p := NodeWorld.isNode_iff_elem.mpr ⟨e, he⟩
  unfold linkIteration
  refine ends_get_bind (ends_setLink_bind hnode (ends_setLink_bind (by simpa using hnode) ?_))
  have hprev : ∀ q, ((w.setLink p iterPrev (w.obj v).tail).setLink p iterNext 0).link iterPrev q =
      if q = p then (w.obj v).tail else w.link iterPrev q := by
    intro q
    rw [NodeWorld.link_setLink_of_ne (by decide), NodeWorld.link_setLink hnode]
    by_cases hq : q = p
    · rw [if_pos ⟨rfl, hq⟩, if_pos hq]
    · rw [if_neg fun hc => hq hc.2, if_neg hq]
  have hnext : ∀ q, ((w.setLink p iterPrev (w.obj v).tail).setLink p iterNext 0).link iterNext q =
      if q = p then 0 else w.link iterNext q := by
    intro q
    rw [NodeWorld.link_setLink (by simpa using hnode), NodeWorld.link_setLink_of_ne (by decide)]
    by_cases hq : q = p
    · rw [if_pos ⟨rfl, hq⟩, if_pos hq]
    · rw [if_neg fun hc => hq hc.2, if_neg hq]
  have hstep : IterStep v (p :: items.nodes) w ((w.setLink p iterPrev (w.obj v).tail).setLink p iterNext 0) :=
    (IterStep.setLink (Or.inl rfl) List.mem_cons_self).trans (IterStep.setLink (Or.inr rfl) List.mem_cons_self)
  have hobj : ((w.setLink p iterPrev (w.obj v).tail).setLink p iterNext 0).obj = w.obj := rfl
  generalize (w.setLink p iterPrev (w.obj v).tail).setLink p iterNext 0 = u at hprev hnext hstep hobj ⊢
  have hne : ∀ q ∈ items.nodes, q ≠ p := fun q hq => ne_of_mem_of_not_mem hq hpnot
  unfold linkOr
  by_cases htail : (w.obj v).tail = 0
  · -- the list was empty
    rw [if_neg (not_not.mpr htail)]
    refine ends_store_bind (ends_store ?_)
    dsimp only
    rw [Function.update_self, Function.update_idem, hobj]
    have hdone := hstep.trans (IterStep.setObj u v (p :: items.nodes) p p)
    rw [hobj] at hdone
    refine ⟨?_, hdone⟩
    refine h.snoc hpnot hp0 (hdone.elem_eq p |>.trans he) hdone.elem_eq (fun q hq => ?_) (fun q hq => ?_) ?_ ?_ ?_ ?_
    · have hqt : q ≠ (w.obj v).tail := fun hc => h.not_null (by rwa [← htail, ← hc])
      rw [if_neg hqt]
      exact (hnext q).trans (if_neg (hne q hq))
    · exact (hprev q).trans (if_neg (hne q hq))
    · exact (hnext p).trans (if_pos rfl)
    · exact (hprev p).trans (if_pos rfl)
    · rw [if_neg (not_not.mpr htail), Function.update_self]
    · rw [Function.update_self]
  · -- the old tail is a node of the list and gets the link to the new one
    have hmem : (w.obj v).tail ∈ items.nodes := by
      have := h.tail_eq
      rw [this] at htail ⊢
      exact headD_reverse_mem htail
    have htnode : u.IsNode (w.obj v).tail := by
      obtain ⟨e', he'⟩ := Items.exists_of_mem_nodes hmem
      exact (hstep.isNode _).mpr (NodeWorld.isNode_iff_elem.mpr ⟨e', h.elems _ he'⟩)
    rw [if_pos htail]
    refine ends_setLink_bind htnode (ends_store ?_)
    have hset : IterStep v (p :: items.nodes) u (u.setLink (w.obj v).tail iterNext p) :=
      IterStep.setLink (Or.inr rfl) (List.mem_cons_of_mem _ hmem)
    have hdone := (hstep.trans hset).trans
      (IterStep.setObj (u.setLink (w.obj v).tail iterNext p) v (p :: items.nodes) (w.obj v).head p)
    have hnext' : ∀ q, (u.setLink (w.obj v).tail iterNext p).link iterNext q =
        if q = (w.obj v).tail then p else if q = p then 0 else w.link iterNext q := by
      intro q
      rw [NodeWorld.link_setLink htnode, hnext]
      by_cases hq : q = (w.obj v).tail
      · rw [if_pos ⟨rfl, hq⟩, if_pos hq]
      · rw [if_neg fun hc => hq hc.2, if_neg hq]
    have hprev' : ∀ q, (u.setLink (w.obj v).tail iterNext p).link iterPrev q = if q = p then (w.obj v).tail else w.link iterPrev q := by
      intro q
      rw [NodeWorld.link_setLink_of_ne (by decide), hprev]
    dsimp only [NodeWorld.setLink_obj] at hdone ⊢
    rw [hobj] at hdone ⊢
    refine ⟨?_, hdone⟩
    refine h.snoc hpnot hp0 (hdone.elem_eq p |>.trans he) hdone.elem_eq (fun q hq => ?_) (fun q hq => ?_) ?_ ?_ ?_ ?_
    · refine (hnext' q).trans ?_
      rw [if_neg (hne q hq)]
    · exact (hprev' q).trans (if_neg (hne q hq))
    · refine (hnext' p).trans ?_
      rw [if_neg fun hc : p = (w.obj v).tail => hpnot (by rw [hc]; exact hmem), if_pos rfl]
    · exact (hprev' p).trans (if_pos rfl)
    · rw [if_pos htail, Function.update_self]
    · rw [Function.update_self]

/-! A node is taken off both lists. -/

theorem TableType.bucket_remove (p : ℕ) (e : K × V) (xs ys : Items K V) :
    T.bucket bucketCount (xs ++ (p, e) :: ys) i =
      T.bucket bucketCount xs i ++ (if T.index bucketCount e = i then [p] else []) ++ T.bucket bucketCount ys i := by
  rw [TableType.bucket_append, TableType.bucket_cons, List.append_assoc]

/-- The iteration list without one of its nodes. -/
theorem Iterates.remove {t t' : SharedMemoryHashTable F} (h : Iterates w t (xs ++ (p, e) :: ys))
    (helem : ∀ q, w'.elem? q = w.elem? q)
    (hn : ∀ q ∈ (xs ++ ys).nodes, w'.link iterNext q = if q = w.link iterPrev p then w.link iterNext p else w.link iterNext q)
    (hp : ∀ q ∈ (xs ++ ys).nodes, w'.link iterPrev q = if q = w.link iterNext p then w.link iterPrev p else w.link iterPrev q)
    (hhead : t'.head = if w.link iterPrev p ≠ 0 then t.head else w.link iterNext p)
    (htail : t'.tail = if w.link iterNext p ≠ 0 then t.tail else w.link iterPrev p) : Iterates w' t' (xs ++ ys) := by
  obtain ⟨h1, h2, h3, h4, h5, h6⟩ := h
  rw [Items.nodes_append, Items.nodes_cons] at h2 h3 h4 h5 h6
  have hmid := DoublyLinked.middle_iff.mp h4
  obtain ⟨-, hnext, hprev, -⟩ := hmid
  dsimp only at hnext hprev h2 h3 h4 h5 h6
  rw [List.mem_append, List.mem_cons, not_or, not_or] at h3
  refine ⟨fun x hx => ?_, ?_, ?_, ?_, ?_, ?_⟩
  · rw [helem]
    refine h1 x ?_
    rcases List.mem_append.mp hx with hx | hx
    · exact List.mem_append_left _ hx
    · exact List.mem_append_right _ (List.mem_cons_of_mem _ hx)
  · rw [Items.nodes_append]
    exact h2.sublist (List.Sublist.append_left (List.sublist_cons_self _ _) _)
  · rw [Items.nodes_append, List.mem_append, not_or]
    exact ⟨h3.1, h3.2.2⟩
  · rw [Items.nodes_append] at hn hp ⊢
    exact h4.remove h2 h3.2.2 h3.1 hn hp
  · rw [hhead, Items.nodes_append, headD_append, hprev, hnext, h5, headD_append]
    exact headD_of_last h3.1 _ _
  · rw [htail, hprev, hnext, h6, last_append_cons, Items.nodes_append, List.reverse_append, headD_append]
    have hlast := headD_of_last (l := ys.nodes.reverse) (by rw [List.mem_reverse]; exact h3.2.2) p (xs.nodes.reverse.headD 0)
    rwa [List.reverse_reverse] at hlast

/-- `if (x) x->f = y; else` a store to `head_` or `tail_`. -/
theorem ends_linkOrObj {x y : ℕ} {f : HashLink} {g : SharedMemoryHashTable F → SharedMemoryHashTable F} (hf : f = iterPrev ∨ f = iterNext)
    (hnode : x ≠ 0 → w.IsNode x) (hown : x ≠ 0 → x ∈ own) (hg : ∀ t, ∃ head tail, g t = { t with head := head, tail := tail }) :
    (linkOr x f y (modifyObj v g) : TableOp K V F Unit).Ends w
      (fun _ w' => IterStep v own w w' ∧ (∀ q, w'.link f q = if x ≠ 0 ∧ q = x then y else w.link f q) ∧
        (∀ k q, k ≠ f → w'.link k q = w.link k q) ∧ w'.obj v = if x ≠ 0 then w.obj v else g (w.obj v)) E := by
  unfold linkOr
  by_cases h0 : x = 0
  · rw [if_neg (not_not.mpr h0)]
    obtain ⟨head, tail, hgt⟩ := hg (w.obj v)
    refine ends_store ⟨?_, fun q => (if_neg fun hc => hc.1 h0).symm, fun _ _ _ => rfl, ?_⟩
    · rw [hgt]
      exact IterStep.setObj _ _ _ head tail
    · rw [if_neg (not_not.mpr h0)]
      exact Function.update_self ..
  · rw [if_pos h0]
    refine ends_setLink (hnode h0) ⟨.setLink hf (hown h0), fun q => ?_, fun k q hk => NodeWorld.link_setLink_of_ne hk, (if_pos h0).symm⟩
    rw [NodeWorld.link_setLink (hnode h0)]
    by_cases hq : q = x
    · rw [if_pos ⟨rfl, hq⟩, if_pos ⟨h0, hq⟩]
    · rw [if_neg fun hc => hq hc.2, if_neg fun hc => hq hc.2]

theorem ends_unlinkIteration (h : Iterates w (w.obj v) (xs ++ (p, e) :: ys)) :
    (unlinkIteration v p : TableOp K V F Unit).Ends w
      (fun _ w' => Iterates w' (w'.obj v) (xs ++ ys) ∧ IterStep v (xs ++ ys).nodes w w') E := by
  have hnode : ∀ q ∈ (xs ++ (p, e) :: ys).nodes, w.IsNode q := by
    intro q hq
    obtain ⟨e', he'⟩ := Items.exists_of_mem_nodes hq
    exact NodeWorld.isNode_iff_elem.mpr ⟨e', h.elems _ he'⟩
  have hp : w.IsNode p := hnode p (by simp)
  have hlinked := h.linked
  rw [Items.nodes_append, Items.nodes_cons] at hlinked
  obtain ⟨-, hnext, hprev, -⟩ := DoublyLinked.middle_iff.mp hlinked
  dsimp only at hnext hprev
  have hprevmem : w.link iterPrev p ≠ 0 → w.link iterPrev p ∈ xs.nodes := by
    intro hne
    rw [hprev] at hne ⊢
    exact headD_reverse_mem hne
  have hnextmem : w.link iterNext p ≠ 0 → w.link iterNext p ∈ ys.nodes := by
    intro hne
    rw [hnext] at hne ⊢
    exact (headD_mem_or ys.nodes 0).resolve_right fun hnil => hne hnil.2
  have hown : ∀ q, q ∈ xs.nodes ∨ q ∈ ys.nodes → q ∈ (xs ++ ys).nodes := by
    intro q hq
    rw [Items.nodes_append]
    exact List.mem_append.mpr hq
  unfold unlinkIteration
  refine ends_readLink_bind hp (ends_readLink_bind hp ?_)
  have hprevnode : w.link iterPrev p ≠ 0 → w.IsNode (w.link iterPrev p) := fun hne => hnode _ (by simp [hprevmem hne])
  have hnextnode : w.link iterNext p ≠ 0 → w.IsNode (w.link iterNext p) := fun hne => hnode _ (by simp [hnextmem hne])
  -- `prev->iter_next` or `head_`, then `next->iter_prev` or `tail_`
  have hfirst := ends_linkOrObj (E := E) (v := v) (y := w.link iterNext p)
    (g := fun t : SharedMemoryHashTable F => { t with head := w.link iterNext p }) (Or.inr rfl) hprevnode
    (fun hne => hown _ (Or.inl (hprevmem hne))) fun t => ⟨_, t.tail, rfl⟩
  refine hfirst.bind fun _ u hu => ?_
  obtain ⟨hs, hl, hk, ho⟩ := hu
  have hsecond := ends_linkOrObj (E := E) (v := v) (y := w.link iterPrev p)
    (g := fun t : SharedMemoryHashTable F => { t with tail := w.link iterPrev p }) (Or.inl rfl)
    (fun hne => (hs.isNode _).mpr (hnextnode hne)) (fun hne => hown _ (Or.inr (hnextmem hne))) fun t => ⟨t.head, _, rfl⟩
  refine hsecond.mono (fun _ w' hw' => ?_) fun _ _ he => he
  obtain ⟨hs', hl', hk', ho'⟩ := hw'
  have h0 := h.not_null
  rw [Items.nodes_append, Items.nodes_cons, List.mem_append, List.mem_cons, not_or, not_or] at h0
  have hnull : ∀ q ∈ (xs ++ ys).nodes, q ≠ 0 := by
    intro q hq hz
    rw [Items.nodes_append, List.mem_append, hz] at hq
    exact hq.elim h0.1 h0.2.2
  refine ⟨h.remove (fun q => (hs'.elem_eq q).trans (hs.elem_eq q)) (fun q hq => ?_) (fun q hq => ?_) ?_ ?_, hs.trans hs'⟩
  · rw [hk' iterNext q (by decide), hl]
    by_cases hc : q = w.link iterPrev p
    · rw [if_pos ⟨hc ▸ hnull q hq, hc⟩, if_pos hc]
    · rw [if_neg fun hcc => hc hcc.2, if_neg hc]
  · rw [hl', hk iterPrev q (by decide)]
    by_cases hc : q = w.link iterNext p
    · rw [if_pos ⟨hc ▸ hnull q hq, hc⟩, if_pos hc]
    · rw [if_neg fun hcc => hc hcc.2, if_neg hc]
  · rw [ho', ho]
    split <;> split <;> rfl
  · rw [ho', ho]
    split <;> split <;> rfl

/-- The chains without one of the nodes. -/
theorem Bucketed.remove (h : Bucketed T w array bucketCount (xs ++ (p, e) :: ys)) (hnd : (xs ++ (p, e) :: ys).nodes.Nodup)
    (h0 : 0 ∉ (xs ++ (p, e) :: ys).nodes) (hidx : T.index bucketCount e < bucketCount)
    (hn : ∀ q ∈ (xs ++ ys).nodes, w'.link bucketNext q =
      if w.link bucketPrev p ≠ 0 ∧ q = w.link bucketPrev p then w.link bucketNext p else w.link bucketNext q)
    (hp : ∀ q ∈ (xs ++ ys).nodes, w'.link bucketPrev q =
      if w.link bucketNext p ≠ 0 ∧ q = w.link bucketNext p then w.link bucketPrev p else w.link bucketPrev q)
    (hcell : w'.cell array = some (.links (if w.link bucketPrev p ≠ 0 then T.heads bucketCount (xs ++ (p, e) :: ys)
      else (T.heads bucketCount (xs ++ (p, e) :: ys)).set (T.index bucketCount e) (w.link bucketNext p)))) :
    Bucketed T w' array bucketCount (xs ++ ys) := by
  have hchain := h.chains _ hidx
  rw [TableType.bucket_remove, if_pos rfl, List.append_assoc, List.singleton_append] at hchain
  obtain ⟨-, hprev, hnext, -⟩ := DoublyLinked.middle_iff.mp hchain
  have hsub : ∀ i, (T.bucket bucketCount (xs ++ ys) i).Sublist (xs ++ ys).nodes := fun i => T.bucket_sublist
  have hnodes : (xs ++ (p, e) :: ys).nodes = xs.nodes ++ p :: ys.nodes := by
    rw [Items.nodes_append, Items.nodes_cons]
  rw [hnodes] at hnd h0
  rw [List.mem_append, List.mem_cons, not_or, not_or] at h0
  have hndb : (T.bucket bucketCount xs (T.index bucketCount e) ++ p :: T.bucket bucketCount ys (T.index bucketCount e)).Nodup :=
    hnd.sublist (T.bucket_sublist.append (T.bucket_sublist.cons_cons p))
  have hA0 : 0 ∉ T.bucket bucketCount xs (T.index bucketCount e) := fun hm => h0.1 (T.bucket_sublist.mem hm)
  have hB0 : 0 ∉ T.bucket bucketCount ys (T.index bucketCount e) := fun hm => h0.2.2 (T.bucket_sublist.mem hm)
  have hsame : ∀ j, j ≠ T.index bucketCount e →
      T.bucket bucketCount (xs ++ ys) j = T.bucket bucketCount (xs ++ (p, e) :: ys) j := by
    intro j hj
    rw [TableType.bucket_remove, if_neg (Ne.symm hj), List.append_nil, TableType.bucket_append]
  have hprevmem : w.link bucketPrev p ≠ 0 → w.link bucketPrev p ∈ T.bucket bucketCount ys (T.index bucketCount e) := by
    intro hne
    rw [hprev] at hne ⊢
    exact (headD_mem_or _ 0).resolve_right fun hnil => hne hnil.2
  have hnextmem : w.link bucketNext p ≠ 0 → w.link bucketNext p ∈ T.bucket bucketCount xs (T.index bucketCount e) := by
    intro hne
    rw [hnext] at hne ⊢
    exact headD_reverse_mem hne
  have hnull : ∀ q ∈ (xs ++ ys).nodes, q ≠ 0 := by
    intro q hq hz
    rw [Items.nodes_append, List.mem_append, hz] at hq
    exact hq.elim h0.1 h0.2.2
  -- a node of the bucket is in no other one
  have hother : ∀ i q, i ≠ T.index bucketCount e → q ∈ T.bucket bucketCount (xs ++ (p, e) :: ys) i →
      q ∉ T.bucket bucketCount (xs ++ (p, e) :: ys) (T.index bucketCount e) := by
    intro i q hi hq hq'
    obtain ⟨e', he', hidx'⟩ := TableType.mem_bucket.mp hq
    exact hi (hidx'.symm.trans (TableType.index_eq_of_mem (by rwa [hnodes]) he' hq'))
  have hbucket : T.bucket bucketCount (xs ++ (p, e) :: ys) (T.index bucketCount e) =
      T.bucket bucketCount xs (T.index bucketCount e) ++ p :: T.bucket bucketCount ys (T.index bucketCount e) := by
    rw [TableType.bucket_remove, if_pos rfl, List.append_assoc, List.singleton_append]
  refine ⟨?_, fun i hi => ?_⟩
  · rw [hcell, ← TableType.heads_set _ _ hsame, TableType.bucket_append, List.reverse_append, headD_append, ← hnext]
    -- the head of the bucket changes exactly where no newer node of the bucket stands before the one removed
    cases hB : T.bucket bucketCount ys (T.index bucketCount e) with
    | nil =>
      have hz : w.link bucketPrev p = 0 := by rw [hprev, hB]; rfl
      rw [if_neg (not_not.mpr hz)]
      rfl
    | cons b B =>
      have hne : w.link bucketPrev p ≠ 0 := by
        rw [hprev, hB]
        intro hz
        exact hB0 (hB ▸ hz ▸ List.mem_cons_self)
      have hget := TableType.getElem_heads (T := T) (xs ++ (p, e) :: ys) hidx
      rw [hbucket, last_append_cons, hB, headD_default (y := w.link bucketNext p) (by simp)] at hget
      obtain ⟨hlt, hget⟩ := List.getElem?_eq_some_iff.mp hget
      rw [if_pos hne, ← hget, List.set_getElem_self]
  · by_cases hi' : i = T.index bucketCount e
    · subst hi'
      rw [TableType.bucket_append]
      refine hchain.remove hndb hB0 hA0 (fun q hq => ?_) fun q hq => ?_
      · rw [← TableType.bucket_append] at hq
        have hq' := (hsub _).mem hq
        rw [hp q hq']
        by_cases hc : q = w.link bucketNext p
        · rw [if_pos ⟨hc ▸ hnull q hq', hc⟩, if_pos hc]
        · rw [if_neg fun hcc => hc hcc.2, if_neg hc]
      · rw [← TableType.bucket_append] at hq
        have hq' := (hsub _).mem hq
        rw [hn q hq']
        by_cases hc : q = w.link bucketPrev p
        · rw [if_pos ⟨hc ▸ hnull q hq', hc⟩, if_pos hc]
        · rw [if_neg fun hcc => hc hcc.2, if_neg hc]
    · have hmem : ∀ q ∈ T.bucket bucketCount (xs ++ (p, e) :: ys) i, q ∈ (xs ++ ys).nodes := by
        intro q hq
        rw [← hsame i hi'] at hq
        exact (hsub i).mem hq
      rw [hsame i hi']
      refine (h.chains i hi).congr (fun q hq => ?_) fun q hq => ?_
      · rw [hp q (hmem q hq)]
        refine if_neg fun hc => hother i q hi' hq ?_
        rw [hbucket, hc.2]
        exact List.mem_append_left _ (hnextmem hc.1)
      · rw [hn q (hmem q hq)]
        refine if_neg fun hc => hother i q hi' hq ?_
        rw [hbucket, hc.2]
        exact List.mem_append_right _ (List.mem_cons_of_mem _ (hprevmem hc.1))

theorem ends_noexcept {p : TableOp K V F α} (h : p.Ends w Q fun _ _ => False) : (noexcept p).Ends w Q E := by
  unfold noexcept
  exact h.attempt_bind (fun _ _ he => he.elim) fun _ _ hq => ends_pure hq

/-- `if (x) x->f = y;` for a bucket link. -/
theorem ends_linkOr_bucket {x y : ℕ} {f : HashLink} {alt : TableOp K V F Unit} {R : TableWorld K V F → Prop}
    (hnode : x ≠ 0 → w.IsNode x) (hlink : x ≠ 0 → R (w.setLink x f y))
    (halt : x = 0 → alt.Ends w (fun _ w' => R w') E) : (linkOr x f y alt).Ends w (fun _ w' => R w') E := by
  unfold linkOr
  by_cases h0 : x = 0
  · rw [if_neg (not_not.mpr h0)]
    exact halt h0
  · rw [if_pos h0]
    exact ends_setLink (hnode h0) (hlink h0)

theorem link_setLink_iff {x y q : ℕ} {f : HashLink} (h0 : x ≠ 0) (hx : w.IsNode x) :
    (w.setLink x f y).link f q = if x ≠ 0 ∧ q = x then y else w.link f q := by
  rw [NodeWorld.link_setLink hx]
  by_cases hq : q = x
  · rw [if_pos ⟨rfl, hq⟩, if_pos ⟨h0, hq⟩]
  · rw [if_neg fun hc => hq hc.2, if_neg fun hc => hq hc.2]

/-- The node is taken off its chain. -/
theorem ends_unlinkBucket (h : Bucketed T w (w.obj v).buckets (w.obj v).bucketCount (xs ++ (p, e) :: ys))
    (hnd : (xs ++ (p, e) :: ys).nodes.Nodup) (h0 : 0 ∉ (xs ++ (p, e) :: ys).nodes) (hpos : 0 < (w.obj v).bucketCount)
    (helems : ∀ x ∈ xs ++ (p, e) :: ys, w.elem? x.1 = some x.2) (hthrow : T.hashThrows w.hashes = false) :
    (unlinkBucket T v p).Ends w
      (fun _ w' => Bucketed T w' (w.obj v).buckets (w.obj v).bucketCount (xs ++ ys) ∧
        BucketStep ((w.obj v).buckets :: (xs ++ ys).nodes) w w' ∧ w'.hashes = w.hashes+1) E := by
  have helem : w.elem? p = some e := helems (p, e) (by simp)
  have hp : w.IsNode p := NodeWorld.isNode_iff_elem.mpr ⟨e, helem⟩
  have hidx : T.index (w.obj v).bucketCount e < (w.obj v).bucketCount := Nat.mod_lt _ hpos
  unfold unlinkBucket
  refine ends_get_bind (ends_readElem_bind helem ?_)
  -- `noexcept`: a hash that throws here ends the program
  have hindex : (noexcept (bucketIndexFor T e.1 (w.obj v).bucketCount)).Ends w
      (fun i w' => i = T.index (w.obj v).bucketCount e ∧ w' = { w with hashes := w.hashes+1 }) E := by
    refine ends_noexcept ((ends_bucketIndexFor hpos).mono (fun _ _ hq => ⟨hq.1, hq.2.1⟩) fun _ _ he => ?_)
    rw [hthrow] at he
    cases he.2.2
  refine hindex.bind fun i t ht => ?_
  obtain ⟨rfl, ht⟩ := ht
  have hstep := BucketStep.hashes ((w.obj v).buckets :: (xs ++ ys).nodes) w (w.hashes+1)
  rw [← ht] at hstep
  have hlinks : ∀ f q, t.link f q = w.link f q := fun f q => by rw [ht]; rfl
  have hb : Bucketed T t (w.obj v).buckets (w.obj v).bucketCount (xs ++ (p, e) :: ys) := h.congr (by rw [ht]) fun q _ => by rw [ht]
  have hhash : t.hashes = w.hashes+1 := by rw [ht]
  have htp : t.IsNode p := (hstep.isNode p).mpr hp
  refine ends_readLink_bind htp (ends_readLink_bind htp ?_)
  -- the neighbours are nodes of the chain
  have hchain := hb.chains _ hidx
  rw [TableType.bucket_remove, if_pos rfl, List.append_assoc, List.singleton_append] at hchain
  obtain ⟨-, hprev, hnext, -⟩ := DoublyLinked.middle_iff.mp hchain
  have hprevmem : t.link bucketPrev p ≠ 0 → t.link bucketPrev p ∈ (xs ++ ys).nodes := by
    intro hne
    rw [hprev] at hne ⊢
    have hm := (headD_mem_or (T.bucket (w.obj v).bucketCount ys (T.index (w.obj v).bucketCount e)) 0).resolve_right
      fun hnil => hne hnil.2
    rw [Items.nodes_append]
    exact List.mem_append_right _ (T.bucket_sublist.mem hm)
  have hnextmem : t.link bucketNext p ≠ 0 → t.link bucketNext p ∈ (xs ++ ys).nodes := by
    intro hne
    rw [hnext] at hne ⊢
    rw [Items.nodes_append]
    exact List.mem_append_left _ (T.bucket_sublist.mem (headD_reverse_mem hne))
  have hnode : ∀ q ∈ (xs ++ ys).nodes, t.IsNode q := by
    intro q hq
    have hm : q ∈ (xs ++ (p, e) :: ys).nodes := by
      rw [Items.nodes_append] at hq ⊢
      rw [Items.nodes_cons]
      simp only [List.mem_append, List.mem_cons] at hq ⊢
      tauto
    obtain ⟨e', he'⟩ := Items.exists_of_mem_nodes hm
    exact (hstep.isNode q).mpr (NodeWorld.isNode_iff_elem.mpr ⟨e', helems _ he'⟩)
  generalize hpv : t.link bucketPrev p = prev at *
  generalize hnx : t.link bucketNext p = next at *
  have hnot : ¬t.IsNode (w.obj v).buckets := NodeWorld.not_isNode_of_links hb.heads
  have hlen : T.index (w.obj v).bucketCount e < (T.heads (w.obj v).bucketCount (xs ++ (p, e) :: ys)).length := by
    rwa [TableType.length_heads]
  -- `prev->bucket_next`, or the head of the bucket
  have hfirst : (linkOr prev bucketNext next (setSlot (w.obj v).buckets (T.index (w.obj v).bucketCount e) next) : TableOp K V F Unit).Ends t
      (fun _ u => BucketStep ((w.obj v).buckets :: (xs ++ ys).nodes) t u ∧ u.hashes = t.hashes ∧
        (∀ q, u.link bucketNext q = if prev ≠ 0 ∧ q = prev then next else t.link bucketNext q) ∧
        (∀ q, u.link bucketPrev q = t.link bucketPrev q) ∧
        u.cell (w.obj v).buckets = some (.links (if prev ≠ 0 then T.heads (w.obj v).bucketCount (xs ++ (p, e) :: ys)
          else (T.heads (w.obj v).bucketCount (xs ++ (p, e) :: ys)).set (T.index (w.obj v).bucketCount e) next))) E := by
    refine ends_linkOr_bucket (fun hne => hnode _ (hprevmem hne)) (fun hne => ?_) fun hz => ?_
    · refine ⟨(NodeWorld.bucketStep_setLink (Or.inr rfl)).mono ?_, rfl, fun q => link_setLink_iff hne (hnode _ (hprevmem hne)),
        fun q => NodeWorld.link_setLink_of_ne (by decide), ?_⟩
      · intro q hq
        rw [List.mem_singleton.mp hq]
        exact List.mem_cons_of_mem _ (hprevmem hne)
      · rw [if_pos hne, NodeWorld.setLink_cell_of_not hnot]
        exact hb.heads
    · refine ends_setSlot hb.heads hlen ⟨?_, rfl, fun q => ?_, fun q => link_setArray hb.heads _ _ _, ?_⟩
      · exact (bucketStep_setArray hb.heads (List.length_set ..)).mono (by simp)
      · rw [if_neg fun hc => hc.1 hz]
        exact link_setArray hb.heads _ _ _
      · rw [if_neg (not_not.mpr hz)]
        exact Function.update_self ..
  refine hfirst.bind fun _ u hu => ?_
  obtain ⟨hs, hh, hn, hpr, hc⟩ := hu
  have hnotu : ¬u.IsNode (w.obj v).buckets := fun hc => hnot ((hs.isNode _).mp hc)
  refine (ends_linkOr_bucket (R := fun w' => BucketStep ((w.obj v).buckets :: (xs ++ ys).nodes) u w' ∧ w'.hashes = u.hashes ∧
      (∀ q, w'.link bucketNext q = u.link bucketNext q) ∧
      (∀ q, w'.link bucketPrev q = if next ≠ 0 ∧ q = next then prev else u.link bucketPrev q) ∧
      w'.cell (w.obj v).buckets = u.cell (w.obj v).buckets) (E := E)
      (fun hne => (hs.isNode _).mpr (hnode _ (hnextmem hne))) (fun hne => ?_) fun hz => ends_pure ?_).mono (fun _ w' hw' => ?_)
      fun _ _ he => he
  · refine ⟨(NodeWorld.bucketStep_setLink (Or.inl rfl)).mono ?_, rfl, fun q => NodeWorld.link_setLink_of_ne (by decide),
      fun q => link_setLink_iff hne ((hs.isNode _).mpr (hnode _ (hnextmem hne))), NodeWorld.setLink_cell_of_not hnotu⟩
    intro q hq
    rw [List.mem_singleton.mp hq]
    exact List.mem_cons_of_mem _ (hnextmem hne)
  · exact ⟨.refl _ _, rfl, fun _ => rfl, fun q => (if_neg fun hc => hc.1 hz).symm, rfl⟩
  · obtain ⟨hs', hh', hn', hpr', hc'⟩ := hw'
    refine ⟨hb.remove hnd h0 hidx (fun q _ => ?_) (fun q _ => ?_) ?_, (hstep.trans hs).trans hs', ?_⟩
    · rw [hn', hn, hpv, hnx]
    · rw [hpr', hpr, hpv, hnx]
    · rw [hc', hc, hpv, hnx]
    · rw [hh', hh, hhash]

end ShmNext
