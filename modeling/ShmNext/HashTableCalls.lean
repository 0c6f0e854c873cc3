import ShmNext.FailedRehash

/-! The calls on one table, what they mean for an association list in the order of insertion, and that each does what
it means. -/
namespace ShmNext
open Prog NodeOp SharedMemoryHashTable HashLink

variable {K V F α : Type} {T : TableType K V F} {w w' w₀ u : TableWorld K V F} {vs cached : List ℕ} {kept : List LiveAlloc}
  {mine rest : List (ℕ × ℕ)} {items xs ys zs : Items K V} {v p i : ℕ} {e : K × V} {key : K} {x : V} {m ms ns : List (K × V)}
  {E : NodeThrown → TableWorld K V F → Prop}

/-- The iterator at position `i`, advanced from `begin()`. -/
def SharedMemoryHashTable.advance : ℕ → ℕ → TableOp K V F ℕ
  | 0, node => pure node
  | i+1, node => do
    let next ← readLink node iterNext
    advance i next

def SharedMemoryHashTable.iteratorAt (v i : ℕ) : TableOp K V F ℕ := do
  let w ← Prog.get
  advance i (w.obj v).head

/-- The calls on one table. `erase` and `eraseRange` name the positions of their iterators. -/
inductive TableEdit (K V F : Type) where
  | insert (value : K × V)
  | insertRange (values : List (K × V))
  | tryEmplace (key : K) (mapped : V)
  | subscript (key : K)
  | insertOrAssign (key : K) (mapped : V)
  | eraseKey (key : K)
  | erase (i : ℕ)
  | eraseRange (i j : ℕ)
  | clear
  | shrinkToFit
  | rehash (requested : ℕ)
  | reserve (count : ℕ)
  | maxLoadFactor (value : F)

/-- The value of the key is replaced, or added. -/
def TableType.assigned (T : TableType K V F) (m : List (K × V)) (key : K) (mapped : V) : List (K × V) :=
  if m.any fun x => T.keyEqual x.1 key then m.map fun x => if T.keyEqual x.1 key then (x.1, mapped) else x else m ++ [(key, mapped)]

namespace TableEdit

def perform (T : TableType K V F) (v : ℕ) : TableEdit K V F → TableOp K V F Unit
  | insert value => do
    let _ ← emplace T v value
  | insertRange values => SharedMemoryHashTable.insertRange T v values
  | tryEmplace key mapped => do
    let _ ← SharedMemoryHashTable.tryEmplace T v key mapped
  | subscript key => do
    let _ ← SharedMemoryHashTable.subscript T v key
  | insertOrAssign key mapped => do
    let _ ← SharedMemoryHashTable.insertOrAssign T v key mapped
  | eraseKey key => do
    let _ ← SharedMemoryHashTable.eraseKey T v key
  | erase i => do
    let pos ← iteratorAt v i
    let _ ← SharedMemoryHashTable.erase T v pos
  | eraseRange i j => do
    let first ← iteratorAt v i
    let last ← iteratorAt v j
    let _ ← SharedMemoryHashTable.eraseRange T v last walkFuel first
  | clear => SharedMemoryHashTable.clear v
  | shrinkToFit => NodePool.shrinkToFit T.toNodeType v
  | rehash requested => SharedMemoryHashTable.rehash T v requested
  | reserve count => SharedMemoryHashTable.reserve T v count
  | maxLoadFactor value => setMaxLoadFactor T v value

/-- What the calls mean for an association list in the order of insertion. -/
def onMap (T : TableType K V F) : TableEdit K V F → List (K × V) → List (K × V)
  | insert value, m => T.added m value.1 value
  | insertRange values, m => values.foldl (fun m value => T.added m value.1 value) m
  | tryEmplace key mapped, m => T.added m key (key, mapped)
  | subscript key, m => T.added m key (key, T.defaultMapped)
  | insertOrAssign key mapped, m => T.assigned m key mapped
  | eraseKey key, m => m.filter fun x => !T.keyEqual x.1 key
  | erase i, m => m.eraseIdx i
  | eraseRange i j, m => m.take i ++ m.drop j
  | clear, _ => []
  | shrinkToFit, m | rehash _, m | reserve _, m | maxLoadFactor _, m => m

/-- What a call that has thrown may have done: a range may have been inserted up to some value. Where nothing is looked up and
nothing is allocated nothing throws, and `erase` of a key throws only what the hash throws. -/
def OnFailure (T : TableType K V F) : TableEdit K V F → List (K × V) → List (K × V) → Prop
  | insertRange values, m, m' => ∃ done more, values = done ++ more ∧ m' = done.foldl (fun m value => T.added m value.1 value) m
  | eraseKey _, m, m' => (∃ k, T.hashThrows k = true) ∧ m' = m
  | erase _, _, _ | eraseRange _ _, _, _ | clear, _, _ | shrinkToFit, _, _ => False
  | _, m, m' => m' = m

/-- What callers keep to, and that what is asked of the allocator fits. -/
def Admissible (T : TableType K V F) (w : TableWorld K V F) (v : ℕ) : TableEdit K V F → Prop
  | insert value => AddressRoom w.heap T.sizeofNode T.alignofNode ∧ EmplacementFits T w v value.1
  | insertRange values => AddressRoom w.heap T.sizeofNode T.alignofNode ∧ InsertionsFit T v values w
  | tryEmplace key _ | subscript key => AddressRoom w.heap T.sizeofNode T.alignofNode ∧ InsertionFits T w v key
  | insertOrAssign key _ => AddressRoom w.heap T.sizeofNode T.alignofNode ∧
      InsertionFits T { w with hashes := w.hashes+(w.obj v).lookups } v key
  | erase i => i ≤ (w.obj v).size
  | eraseRange i j => i ≤ j ∧ j ≤ (w.obj v).size
  | rehash requested => RehashRoom T w.heap (w.obj v) requested
  | reserve count => (w.obj v).bucketCount < minimumBucketCountForSize T count (w.obj v).maxLoadFactor →
      RehashRoom T w.heap (w.obj v) (minimumBucketCountForSize T count (w.obj v).maxLoadFactor)
  | maxLoadFactor value => T.factors.overfull (w.obj v).size (w.obj v).bucketCount value = true →
      RehashRoom T w.heap ((w.obj v).withFactor value) (minimumBucketCountForSize T (w.obj v).size value)
  | _ => True

/-- Where the hash throws it harms no chain, and it does not throw in `erase_node`, which would end the program. -/
def HashSafe (T : TableType K V F) (w : TableWorld K V F) (v : ℕ) : TableEdit K V F → Prop
  | insert value => EmplacementSafe T w v value.1
  | insertRange values => InsertionsSafe T v values w
  | tryEmplace key _ | subscript key => InsertionSafe T w v key
  | insertOrAssign key _ => InsertionSafe T { w with hashes := w.hashes+(w.obj v).lookups } v key
  | eraseKey key => ((findNode T v key).run w).1 ≠ .ok 0 → T.hashThrows (w.hashes+1) = false
  | erase i => i < (w.obj v).size → T.hashThrows w.hashes = false
  | eraseRange i j => ∀ k < j-i, T.hashThrows (w.hashes+k) = false
  | rehash requested => RelinkSafe T w v w.hashes (rehashTarget T (w.obj v) requested)
  | reserve count => RelinkSafe T w v w.hashes
      (rehashTarget T (w.obj v) (minimumBucketCountForSize T count (w.obj v).maxLoadFactor))
  | maxLoadFactor value => RelinkSafe T w v w.hashes ((w.obj v).factorTarget T value)
  | _ => True

end TableEdit

theorem TableEdit.hashSafe_of_nothrow (h : ∀ k, T.hashThrows k = false) (w : TableWorld K V F) (v : ℕ) (edit : TableEdit K V F) :
    edit.HashSafe T w v := by
  cases edit with
  | insert value => exact InsertionSafe.of_nothrow h _ v value.1
  | insertRange values => exact .of_nothrow h v values w
  | tryEmplace key _ => exact InsertionSafe.of_nothrow h w v key
  | subscript key => exact InsertionSafe.of_nothrow h w v key
  | insertOrAssign key _ => exact InsertionSafe.of_nothrow h _ v key
  | eraseKey key => exact fun _ => h _
  | erase i => exact fun _ => h _
  | eraseRange i j => exact fun k _ => h _
  | rehash requested => exact .of_nothrow h w v _ _
  | reserve count => exact .of_nothrow h w v _ _
  | maxLoadFactor value => exact .of_nothrow h w v _ _
  | clear => trivial
  | shrinkToFit => trivial

/-! Keys. -/

/-- No two elements have the same key. -/
def TableType.KeysDistinct (T : TableType K V F) (m : List (K × V)) : Prop := m.Pairwise fun x y => T.keyEqual x.1 y.1 = false

/-- One element has the key: the others have not. -/
theorem TableType.KeysDistinct.others (hT : T.KeysRespected) (hd : T.KeysDistinct (ms ++ e :: ns)) (hkey : T.keyEqual e.1 key = true) :
    (∀ y ∈ ms, T.keyEqual y.1 key = false) ∧ ∀ y ∈ ns, T.keyEqual y.1 key = false := by
  obtain ⟨-, hright, hcross⟩ := List.pairwise_append.mp hd
  obtain ⟨hnext, -⟩ := List.pairwise_cons.mp hright
  constructor
  · intro y hy
    by_contra hcon
    rw [Bool.not_eq_false] at hcon
    have hye := hT.equivalence.trans hcon (hT.equivalence.symm hkey)
    rw [hcross y hy e List.mem_cons_self] at hye
    cases hye
  · intro y hy
    by_contra hcon
    rw [Bool.not_eq_false] at hcon
    have hey := hT.equivalence.trans hkey (hT.equivalence.symm hcon)
    rw [hnext y hy] at hey
    cases hey

theorem TableType.KeysDistinct.added (hd : T.KeysDistinct m) (he : e.1 = key) : T.KeysDistinct (T.added m key e) := by
  unfold TableType.added
  by_cases hany : (m.any fun x => T.keyEqual x.1 key) = true
  · rwa [if_pos hany]
  · rw [if_neg hany]
    refine List.pairwise_append.mpr ⟨hd, List.pairwise_singleton _ _, fun y hy z hz => ?_⟩
    rw [List.mem_singleton.mp hz, he]
    by_contra hcon
    exact hany (List.any_eq_true.mpr ⟨y, hy, by rwa [Bool.not_eq_false] at hcon⟩)

theorem TableType.KeysDistinct.foldl_added (hd : T.KeysDistinct m) (values : List (K × V)) :
    T.KeysDistinct (values.foldl (fun m value => T.added m value.1 value) m) := by
  induction values generalizing m with
  | nil => exact hd
  | cons value values ih => exact ih (hd.added rfl)

theorem TableType.KeysDistinct.assigned (hd : T.KeysDistinct m) : T.KeysDistinct (T.assigned m key x) := by
  unfold TableType.assigned
  by_cases hany : (m.any fun x => T.keyEqual x.1 key) = true
  · rw [if_pos hany]
    refine List.pairwise_map.mpr (hd.imp fun {a b} hab => ?_)
    have hfst : ∀ y : K × V, (if T.keyEqual y.1 key = true then (y.1, x) else y).1 = y.1 := by
      intro y
      split <;> rfl
    rw [hfst, hfst]
    exact hab
  · rw [if_neg hany]
    have hadded := hd.added (e := (key, x)) rfl
    unfold TableType.added at hadded
    rwa [if_neg hany] at hadded

/-- The association list keeps its keys apart. -/
theorem TableEdit.keysDistinct_onMap (hd : T.KeysDistinct m) (edit : TableEdit K V F)
    (hadm : edit.Admissible T w v) : T.KeysDistinct (edit.onMap T m) := by
  cases edit with
  | insert value => exact hd.added rfl
  | insertRange values => exact hd.foldl_added values
  | tryEmplace key mapped => exact hd.added rfl
  | subscript key => exact hd.added rfl
  | insertOrAssign key mapped => exact hd.assigned
  | eraseKey key => exact hd.filter _
  | erase i => exact hd.sublist (List.eraseIdx_sublist ..)
  | eraseRange i j =>
    obtain ⟨hij, -⟩ := hadm
    have hsub : (m.take i ++ m.drop j).Sublist (m.take i ++ m.drop i) := by
      refine List.Sublist.append_left ?_ _
      rw [show j = i+(j-i) from by omega, ← List.drop_drop]
      exact List.drop_sublist _ _
    rw [List.take_append_drop] at hsub
    exact hd.sublist hsub
  | clear => exact List.Pairwise.nil
  | shrinkToFit => exact hd
  | rehash requested => exact hd
  | reserve count => exact hd
  | maxLoadFactor value => exact hd

theorem TableEdit.keysDistinct_onFailure (hd : T.KeysDistinct m) (edit : TableEdit K V F)
    (h : edit.OnFailure T m ms) : T.KeysDistinct ms := by
  cases edit with
  | insertRange values =>
    obtain ⟨done, more, -, rfl⟩ := h
    exact hd.foldl_added done
  | eraseKey key =>
    obtain ⟨-, rfl⟩ := h
    exact hd
  | erase i => exact h.elim
  | eraseRange i j => exact h.elim
  | clear => exact h.elim
  | shrinkToFit => exact h.elim
  | _ =>
    obtain rfl := h
    exact hd

/-! Iterators. -/

theorem ends_advance {ps qs : List ℕ} {node : ℕ} (h : ForwardLinked (w.link iterNext) 0 (ps ++ qs)) (hnode : node = (ps ++ qs).headD 0)
    (hnodes : ∀ q ∈ ps, w.IsNode q) : (advance ps.length node : TableOp K V F ℕ).Ends w (fun r w' => r = qs.headD 0 ∧ w' = w) E := by
  induction ps generalizing node with
  | nil => exact ends_pure ⟨hnode, rfl⟩
  | cons p ps ih =>
    obtain rfl : node = p := hnode
    unfold advance
    refine ends_readLink_bind (hnodes node List.mem_cons_self) ?_
    exact ih h.2 h.1 fun q hq => hnodes q (List.mem_cons_of_mem _ hq)

theorem ends_iteratorAt (h : NodesHold w v (xs ++ ys) cached) :
    (iteratorAt v xs.length : TableOp K V F ℕ).Ends w (fun r w' => r = ys.nodes.headD 0 ∧ w' = w) E := by
  unfold iteratorAt
  refine ends_get_bind ?_
  have hlinked := h.iterates.linked.forward
  have hhead := h.iterates.head_eq
  rw [Items.nodes_append] at hlinked hhead
  have hwalk := ends_advance (E := E) hlinked hhead fun q hq => h.isNode (by rw [Items.nodes_append]; exact List.mem_append_left _ hq)
  rwa [Items.nodes, List.length_map] at hwalk

/-! Erasing. -/

/-- The bound on the load factor and the bucket count are what they were. -/
def SharedMemoryHashTable.SameCapacity (t t' : SharedMemoryHashTable F) : Prop :=
  t'.maxLoadFactor = t.maxLoadFactor ∧ t'.bucketCount = t.bucketCount

theorem SharedMemoryHashTable.ends_erase (h : OwnsTable T vs w₀ kept rest v (xs ++ (p, e) :: ys) cached w) (hv : v ∈ vs) (hthrow : T.hashThrows w.hashes = false) :
    (SharedMemoryHashTable.erase T v p).Ends w
      (fun r w' => r = ys.nodes.headD 0 ∧ OwnsTable T vs w₀ kept rest v (xs ++ ys) (p :: cached) w' ∧ w'.hashes = w.hashes+1 ∧
        SameCapacity (w.obj v) (w'.obj v)) E := by
  have hmem : p ∈ (xs ++ (p, e) :: ys).nodes := by simp
  have hp0 : p ≠ 0 := fun hz => h.holds.iterates.not_null (hz ▸ hmem)
  unfold SharedMemoryHashTable.erase
  rw [if_neg hp0]
  refine ends_readLink_bind (h.holds.toNodesHold.isNode hmem) ((ends_eraseNode h hv hthrow).bind fun _ t ht => ends_pure ⟨?_, ht.1, ht.2.2, ?_⟩)
  rotate_left
  · obtain ⟨-, ⟨head, tail, hobj⟩, -⟩ := ht
    rw [hobj]
    exact ⟨rfl, rfl⟩
  have hlinked := h.holds.iterates.linked.forward
  rw [Items.nodes_append, Items.nodes_cons] at hlinked
  exact hlinked.next_eq

theorem ends_eraseRange {fuel first last : ℕ} (h : OwnsTable T vs w₀ kept rest v (xs ++ ys ++ zs) cached w) (hv : v ∈ vs)
    (hthrow : ∀ k < ys.length, T.hashThrows (w.hashes+k) = false) (hfirst : first = (ys ++ zs).nodes.headD 0)
    (hlast : last = zs.nodes.headD 0) (hfuel : ys.length ≤ fuel) :
    (SharedMemoryHashTable.eraseRange T v last fuel first).Ends w
      (fun _ w' => ∃ cached', OwnsTable T vs w₀ kept rest v (xs ++ zs) cached' w' ∧ SameCapacity (w.obj v) (w'.obj v)) E := by
  induction ys generalizing w cached fuel first with
  | nil =>
    unfold SharedMemoryHashTable.eraseRange
    rw [if_pos (hfirst.trans hlast.symm)]
    rw [List.append_nil] at h
    exact ends_pure ⟨cached, h, rfl, rfl⟩
  | cons y ys ih =>
    obtain ⟨p, e⟩ := y
    obtain ⟨fuel, rfl⟩ : ∃ k, fuel = k+1 := ⟨fuel-1, by rw [List.length_cons] at hfuel; omega⟩
    obtain rfl : first = p := hfirst
    have hne : first ≠ last := by
      rw [hlast]
      have hnd := h.holds.iterates.nodup
      have h0 := h.holds.iterates.not_null
      simp only [Items.nodes_append, Items.nodes_cons] at hnd h0
      rcases headD_mem_or zs.nodes 0 with hm | ⟨-, hz⟩
      · exact fun heq => (List.nodup_append.mp hnd).2.2 first (by simp) _ hm heq
      · intro heq
        rw [hz] at heq
        exact h0 (by simp [heq])
    unfold SharedMemoryHashTable.eraseRange
    rw [if_neg hne]
    have hsplit : xs ++ (first, e) :: ys ++ zs = xs ++ (first, e) :: (ys ++ zs) := by simp
    rw [hsplit] at h
    refine (ends_erase h hv (hthrow 0 (by simp))).bind fun r t ht => ?_
    obtain ⟨rfl, hown, hhash, hcap⟩ := ht
    rw [← List.append_assoc] at hown
    refine (ih hown (fun k hk => ?_) rfl (by rw [List.length_cons] at hfuel; omega)).mono (fun _ w' hw' => ?_) fun _ _ he => he
    rotate_left
    · obtain ⟨cached', hown', hcap'⟩ := hw'
      exact ⟨cached', hown', hcap'.1.trans hcap.1, hcap'.2.trans hcap.2⟩
    rw [hhash, show w.hashes+1+k = w.hashes+(k+1) from by omega]
    exact hthrow (k+1) (by rw [List.length_cons]; omega)

/-- A node of the table is where it is in the list. -/
theorem Items.split_of_mem (h : (p, e) ∈ items) : ∃ xs ys, items = xs ++ (p, e) :: ys := List.append_of_mem h

theorem ends_eraseKey (h : OwnsTable T vs w₀ kept rest v items cached w) (hv : v ∈ vs)
    (hthrow : ((findNode T v key).run w).1 ≠ .ok 0 → T.hashThrows (w.hashes+1) = false) :
    (SharedMemoryHashTable.eraseKey T v key).Ends w
      (fun r w' => SameCapacity (w.obj v) (w'.obj v) ∧
        ((r = 0 ∧ T.lookup (w.obj v).bucketCount items key = 0 ∧ OwnsTable T vs w₀ kept rest v items cached w') ∨
        r = 1 ∧ ∃ xs p e ys, items = xs ++ (p, e) :: ys ∧ T.keyEqual e.1 key = true ∧
          OwnsTable T vs w₀ kept rest v (xs ++ ys) (p :: cached) w'))
      fun _ w' => T.hashThrows w.hashes = true ∧ SameCapacity (w.obj v) (w'.obj v) ∧ OwnsTable T vs w₀ kept rest v items cached w' := by
  unfold SharedMemoryHashTable.eraseKey
  refine ((ends_findNode _ h.holds h.ownsNodes.length_le).with_run.mono (fun _ _ hq => hq) fun e' w' he' => ?_).bind fun r t ht => ?_
  · obtain ⟨-, rfl, hthrown⟩ := he'
    exact ⟨hthrown, ⟨rfl, rfl⟩, h.setHashes _⟩
  · obtain ⟨⟨rfl, rfl⟩, hrun⟩ := ht
    by_cases hfound : T.lookup (w.obj v).bucketCount items key = 0
    · rw [if_pos hfound]
      exact ends_pure ⟨⟨rfl, rfl⟩, Or.inl ⟨rfl, hfound, h.setHashes _⟩⟩
    · rw [if_neg hfound]
      obtain ⟨e, he, hkey⟩ := TableType.lookup_ne_zero hfound
      obtain ⟨xs, ys, hsplit⟩ := Items.split_of_mem he
      generalize T.lookup (w.obj v).bucketCount items key = p at *
      subst hsplit
      have hone : (w.obj v).lookups = 1 := by
        unfold lookups
        refine if_neg fun hc => ?_
        have hnil := (h.holds.bare (h.holds.toNodesHold.buckets_zero_iff.mpr hc)).2
        simp at hnil
      have hno : T.hashThrows (w.hashes+(w.obj v).lookups) = false := by
        rw [hone]
        refine hthrow ?_
        rw [hrun]
        exact fun heq => hfound (Outcome.ok.inj heq)
      refine (ends_eraseNode (h.setHashes _) hv hno).bind fun _ t ht => ends_pure ⟨?_, Or.inr ⟨rfl, xs, p, e, ys, rfl, hkey, ht.1⟩⟩
      obtain ⟨-, ⟨head, tail, hobj⟩, -⟩ := ht
      rw [hobj]
      exact ⟨rfl, rfl⟩

/-! Assigning. -/

/-- A mapped value is replaced; the key stays. -/
theorem OwnsTable.setElem (h : OwnsTable T vs w₀ kept rest v (xs ++ (p, e) :: ys) cached w) :
    OwnsTable T vs w₀ kept rest v (xs ++ (p, (e.1, x)) :: ys) cached (w.setElem p (e.1, x)) := by
  have hmem : p ∈ (xs ++ (p, e) :: ys).nodes := by simp
  have hnode := h.holds.toNodesHold.isNode hmem
  have hnodes : Items.nodes (xs ++ (p, (e.1, x)) :: ys) = Items.nodes (xs ++ (p, e) :: ys) := by simp
  -- the key stays, so that buckets and links do
  have hbucket : ∀ n i, T.bucket n (xs ++ (p, (e.1, x)) :: ys) i = T.bucket n (xs ++ (p, e) :: ys) i := by
    intro n i
    rw [TableType.bucket_remove, TableType.bucket_remove]
    rfl
  have hcell : ∀ q, q ∉ (xs ++ (p, e) :: ys).nodes → (w.setElem p (e.1, x)).cell q = w.cell q := by
    intro q hq
    exact NodeWorld.setElem_cell_of_ne fun heq => hq (heq ▸ hmem)
  have happart := fun hb => h.own.array_apart hb
  obtain ⟨hown, hnodesHold, hchains⟩ := h
  have hit := hnodesHold.iterates
  have hiterates : Iterates (w.setElem p (e.1, x)) (w.obj v) (xs ++ (p, (e.1, x)) :: ys) := by
    refine ⟨fun y hy => ?_, hnodes ▸ hit.nodup, hnodes ▸ hit.not_null, ?_, hnodes ▸ hit.head_eq, hnodes ▸ hit.tail_eq⟩
    · rw [NodeWorld.elem_setElem hnode]
      by_cases hyp : y.1 = p
      · have hnd : (Items.nodes (xs ++ (p, (e.1, x)) :: ys)).Nodup := hnodes ▸ hit.nodup
        obtain ⟨q, y⟩ := y
        obtain rfl : q = p := hyp
        rw [if_pos rfl, Items.eq_of_nodup hnd hy (by simp : (q, (e.1, x)) ∈ xs ++ (q, (e.1, x)) :: ys)]
      · rw [if_neg hyp]
        refine hit.elems y ?_
        rcases List.mem_append.mp hy with hy | hy
        · exact List.mem_append_left _ hy
        · rcases List.mem_cons.mp hy with rfl | hy
          · exact absurd rfl hyp
          · exact List.mem_append_right _ (List.mem_cons_of_mem _ hy)
    · rw [hnodes]
      exact hit.linked.congr (fun q _ => NodeWorld.link_setElem _) fun q _ => NodeWorld.link_setElem _
  have howned : T.owned (w.obj v) (xs ++ (p, (e.1, x)) :: ys) cached = T.owned (w.obj v) (xs ++ (p, e) :: ys) cached := by
    unfold TableType.owned
    rw [hnodes]
  have hp : (p, T.sizeofNode) ∈ T.owned (w.obj v) (xs ++ (p, e) :: ys) cached ++ rest :=
    List.mem_append_left _ (List.mem_append_left _ (NodeType.mem_blocks.mpr (List.mem_append_left _ hmem)))
  refine ⟨?_, ⟨hiterates, ?_, ?_, fun hb => ?_, fun hb => ?_⟩, fun hb => ?_⟩
  · change Owning T.toNodeType vs w₀ kept (w.setElem p (e.1, x)) (T.owned (w.obj v) (xs ++ (p, (e.1, x)) :: ys) cached ++ rest)
    rw [howned]
    exact hown.setElem hp (Nat.le_refl _) hnode
  · have hsize := hnodesHold.size_eq
    rw [List.length_append, List.length_cons] at hsize ⊢
    exact hsize
  · exact hnodesHold.caches.congr rfl fun q hq => hcell q (hnodesHold.cached_apart hq)
  · obtain ⟨hpos, a, ha, hlen⟩ := hnodesHold.array hb
    exact ⟨hpos, a, (hcell _ fun hm => happart hb (List.mem_append_left _ hm)).trans ha, hlen⟩
  · have hnil := (hnodesHold.bare hb).2
    simp at hnil
  · obtain ⟨hheads, hlinks⟩ := hchains hb
    refine ⟨?_, fun i hi => ?_⟩
    · refine ((hcell _ fun hm => happart hb (List.mem_append_left _ hm)).trans hheads).trans ?_
      unfold TableType.heads
      simp only [hbucket]
      rfl
    · rw [hbucket]
      exact (hlinks i hi).congr (fun q _ => NodeWorld.link_setElem _) fun q _ => NodeWorld.link_setElem _

theorem TableType.assigned_of_split (hT : T.KeysRespected) (hd : T.KeysDistinct (ms ++ e :: ns)) (hkey : T.keyEqual e.1 key = true) :
    T.assigned (ms ++ e :: ns) key x = ms ++ (e.1, x) :: ns := by
  obtain ⟨hms, hns⟩ := hd.others hT hkey
  have hrest : ∀ l : List (K × V), (∀ y ∈ l, T.keyEqual y.1 key = false) →
      (l.map fun y => if T.keyEqual y.1 key then (y.1, x) else y) = l := by
    intro l hl
    refine (List.map_congr_left (g := id) fun y hy => ?_).trans (List.map_id l)
    rw [hl y hy]
    rfl
  unfold TableType.assigned
  rw [if_pos (List.any_eq_true.mpr ⟨e, by simp, hkey⟩), List.map_append, List.map_cons, hrest ms hms, hrest ns hns, if_pos hkey]

theorem ends_insertOrAssign (h : OwnsTable T vs w₀ kept rest v items cached w) (hv : v ∈ vs)
    (hroom : AddressRoom w₀.heap T.sizeofNode T.alignofNode)
    (hins : InsertionFits T { w with hashes := w.hashes+(w.obj v).lookups } v key)
    (hsafe : InsertionSafe T { w with hashes := w.hashes+(w.obj v).lookups } v key) :
    (SharedMemoryHashTable.insertOrAssign T v key x).Ends w
      (fun _ w' => ∃ items' cached', OwnsTable T vs w₀ kept rest v items' cached' w' ∧
        (T.KeysRespected → T.KeysDistinct (items.map Prod.snd) → items'.map Prod.snd = T.assigned (items.map Prod.snd) key x))
      fun e' w' => ∃ lost cached', OwnsTable T vs w₀ kept (lost ++ rest) v items cached' w' ∧ (e' ≠ .hash → lost = []) := by
  unfold SharedMemoryHashTable.insertOrAssign SharedMemoryHashTable.find
  refine ((ends_findNode _ h.holds h.ownsNodes.length_le).mono (fun _ _ hq => hq) fun e' w' he' => ?_).bind fun r t ht => ?_
  · obtain ⟨-, rfl, -⟩ := he'
    exact ⟨[], cached, h.setHashes _, fun _ => rfl⟩
  obtain ⟨rfl, rfl⟩ := ht
  have ht := h.setHashes (w.hashes+(w.obj v).lookups)
  -- an absent key is inserted, and cannot be found a second time; for a present one only the mapped value changes
  by_cases hfound : T.lookup (w.obj v).bucketCount items key = 0
  · rw [if_neg (not_not.mpr hfound)]
    have hadd := ends_insertNode (e := (key, x)) ht hv hroom hins
    refine hadd.mono (fun r w' hr => ?_) fun e' w' he' => he'.safe ht hsafe
    rcases hr with ⟨hne, -, -⟩ | ⟨-, -, -, hown, -⟩
    · exact absurd hfound hne
    · refine ⟨_, _, hown, fun hT _ => ?_⟩
      have habsent := (TableType.lookup_of_respected hT h.holds.iterates.not_null).mp hfound
      have hadded := TableType.added_of_absent (e := (key, x)) habsent
      have hany : ¬((items.map Prod.snd).any fun y => T.keyEqual y.1 key) = true := by
        intro hany
        obtain ⟨y, hy, hkey⟩ := List.any_eq_true.mp hany
        obtain ⟨z, hz, rfl⟩ := List.mem_map.mp hy
        rw [habsent z hz] at hkey
        cases hkey
      unfold TableType.assigned
      rw [if_neg hany, List.map_append]
      rfl
  · rw [if_pos hfound]
    obtain ⟨e, he, hkey⟩ := TableType.lookup_ne_zero hfound
    generalize T.lookup (w.obj v).bucketCount items key = p at *
    obtain ⟨xs, ys, rfl⟩ := Items.split_of_mem he
    have hnode := ht.holds.toNodesHold.isNode (Items.mem_nodes he)
    refine ends_readElem_bind (ht.holds.iterates.elems _ he) (ends_setElem_bind hnode (ends_pure ⟨_, _, ht.setElem, fun hT hd => ?_⟩))
    rw [List.map_append, List.map_cons] at hd
    rw [List.map_append, List.map_append, List.map_cons, List.map_cons, TableType.assigned_of_split hT hd hkey]

/-! Every call. -/

theorem filter_of_absent (h : ∀ y ∈ m, T.keyEqual y.1 key = false) : (m.filter fun y => !T.keyEqual y.1 key) = m := by
  refine List.filter_eq_self.mpr fun y hy => ?_
  rw [h y hy]
  rfl

theorem filter_of_split (hT : T.KeysRespected) (hd : T.KeysDistinct (ms ++ e :: ns)) (hkey : T.keyEqual e.1 key = true) :
    ((ms ++ e :: ns).filter fun y => !T.keyEqual y.1 key) = ms ++ ns := by
  obtain ⟨hms, hns⟩ := hd.others hT hkey
  have hskip := List.filter_cons_of_neg (p := fun y : K × V => !T.keyEqual y.1 key) (a := e) (l := ns) (by simp [hkey])
  rw [List.filter_append, filter_of_absent hms, hskip, filter_of_absent hns]

theorem TableType.absent_of_lookup (hT : T.KeysRespected) (h0 : 0 ∉ items.nodes) {n : ℕ} (h : T.lookup n items key = 0) :
    ∀ y ∈ items.map Prod.snd, T.keyEqual y.1 key = false := by
  intro y hy
  obtain ⟨z, hz, rfl⟩ := List.mem_map.mp hy
  exact (TableType.lookup_of_respected hT h0).mp h z hz

/-- What a call on one table leaves behind, whether it has returned or thrown. -/
def TableEdit.Leaves (T : TableType K V F) (vs : List ℕ) (w : TableWorld K V F) (kept : List LiveAlloc) (rest : List (ℕ × ℕ)) (v : ℕ)
    (items : Items K V) (R : List (K × V) → List (K × V) → Prop) (w' : TableWorld K V F) : Prop :=
  ∃ items' cached' lost, OwnsTable T vs w kept (lost ++ rest) v items' cached' w' ∧
    (T.KeysRespected → T.KeysDistinct (items.map Prod.snd) → R (items.map Prod.snd) (items'.map Prod.snd))

namespace TableEdit
variable {R : List (K × V) → List (K × V) → Prop}

theorem leaves_of (h : OwnsTable T vs w kept rest v xs cached w')
    (hR : T.KeysRespected → T.KeysDistinct (items.map Prod.snd) → R (items.map Prod.snd) (xs.map Prod.snd)) :
    Leaves T vs w kept rest v items R w' := ⟨xs, cached, [], h, hR⟩

theorem ends_insertion {q : TableOp K V F α} {lookupKey : K}
    (h : q.Ends w
      (fun _ w' => ∃ items' cached', OwnsTable T vs w kept rest v items' cached' w' ∧
        (T.KeysRespected → items'.map Prod.snd = T.added (items.map Prod.snd) lookupKey e))
      fun _ w' => ∃ lost cached', OwnsTable T vs w kept (lost ++ rest) v items cached' w') :
    q.Ends w (fun _ w' => Leaves T vs w kept rest v items (fun m m' => m' = T.added m lookupKey e) w')
      fun _ w' => Leaves T vs w kept rest v items (fun m m' => m' = m) w' := by
  refine h.mono (fun _ w' hr => ?_) fun _ w' he => ?_
  · obtain ⟨items', cached', hown, hadd⟩ := hr
    exact leaves_of hown fun hT _ => hadd hT
  · obtain ⟨lost, cached', hown⟩ := he
    exact ⟨items, cached', lost, hown, fun _ _ => rfl⟩

theorem ends_tryEmplace {mapped : V} (h : OwnsTable T vs w kept rest v items cached w) (hv : v ∈ vs)
    (hroom : AddressRoom w.heap T.sizeofNode T.alignofNode) (hins : InsertionFits T w v key) (hsafe : InsertionSafe T w v key) :
    (SharedMemoryHashTable.tryEmplace T v key mapped).Ends w
      (fun _ w' => Leaves T vs w kept rest v items (fun m m' => m' = T.added m key (key, mapped)) w')
      fun _ w' => Leaves T vs w kept rest v items (fun m m' => m' = m) w' := by
  refine ends_insertion ?_
  unfold SharedMemoryHashTable.tryEmplace
  refine (ends_insertNode h hv hroom hins).mono (fun r t ht => ?_) fun e' w' he' => ?_
  · have h0 := h.holds.iterates.not_null
    rcases ht with ⟨hfound, -, rfl⟩ | ⟨habsent, -, -, hown, -⟩
    · obtain ⟨y, hy, hkey⟩ := TableType.lookup_ne_zero hfound
      exact ⟨items, cached, h.setHashes _, fun _ => (TableType.added_of_present ⟨_, hy, hkey⟩).symm⟩
    · refine ⟨_, _, hown, fun hT => ?_⟩
      rw [TableType.added_of_absent ((TableType.lookup_of_respected hT h0).mp habsent), List.map_append]
      rfl
  · obtain ⟨lost, cached', hown, -⟩ := he'.safe h hsafe
    exact ⟨lost, cached', hown⟩

theorem RehashFailed.leaves {n : ℕ} {e' : NodeThrown} {base : TableWorld K V F} (hf : RehashFailed T vs w kept rest v items cached n base e' w')
    (h : OwnsTable T vs w kept rest v items cached base) (hn : 0 < n) (hsafe : RelinkSafe T base v base.hashes n) :
    Leaves T vs w kept rest v items (fun m m' => m' = m) w' := leaves_of (hf.safe h hn hsafe) fun _ _ => rfl

/-- The elements from one position to another are erased. -/
theorem ends_eraseRangeAt {i j : ℕ} (h : OwnsTable T vs w kept rest v items cached w) (hv : v ∈ vs)
    (hadm : (eraseRange i j : TableEdit K V F).Admissible T w v) (hsafe : (eraseRange i j : TableEdit K V F).HashSafe T w v) :
    ((eraseRange i j : TableEdit K V F).perform T v).Ends w
      (fun _ w' => ∃ cached', OwnsTable T vs w kept rest v (items.take i ++ items.drop j) cached' w' ∧ SameCapacity (w.obj v) (w'.obj v))
      E := by
  obtain ⟨hij, hj⟩ := hadm
  have hlen := h.ownsNodes.length_le
  rw [h.holds.size_eq] at hj
  obtain ⟨xs, ys, zs, rfl, rfl, rfl⟩ : ∃ xs ys zs : Items K V, items = xs ++ ys ++ zs ∧ i = xs.length ∧ j = (xs ++ ys).length := by
    refine ⟨items.take i, (items.take j).drop i, items.drop j, ?_, (List.length_take_of_le (by omega)).symm, ?_⟩
    · have htake : items.take i = (items.take j).take i := by rw [List.take_take, Nat.min_eq_left hij]
      rw [htake, List.take_append_drop, List.take_append_drop]
    · have htake : items.take i = (items.take j).take i := by rw [List.take_take, Nat.min_eq_left hij]
      rw [htake, List.take_append_drop, List.length_take_of_le hj]
  have hfirst : NodesHold w v (xs ++ (ys ++ zs)) cached := by
    rw [← List.append_assoc]
    exact h.holds.toNodesHold
  refine (ends_iteratorAt hfirst).bind fun r t ht => ?_
  obtain ⟨rfl, rfl⟩ := ht
  refine (ends_iteratorAt h.holds.toNodesHold).bind fun r t ht => ?_
  obtain ⟨rfl, rfl⟩ := ht
  refine (ends_eraseRange (E := E) h hv (fun k hk => hsafe k (by rw [List.length_append]; omega)) rfl rfl
    (by simp only [List.length_append] at hlen; omega)).bind fun _ u hu => ends_pure ?_
  rwa [List.drop_left, List.append_assoc, List.take_left]

/-- A call returns having done what it means, or throws. -/
theorem ends_perform (edit : TableEdit K V F) (h : OwnsTable T vs w kept rest v items cached w) (hv : v ∈ vs)
    (hadm : edit.Admissible T w v) (hsafe : edit.HashSafe T w v) :
    (edit.perform T v).Ends w (fun _ w' => Leaves T vs w kept rest v items (fun m m' => m' = edit.onMap T m) w')
      fun _ w' => Leaves T vs w kept rest v items (edit.OnFailure T) w' := by
  have hlen := h.ownsNodes.length_le
  have hsize := h.holds.size_eq
  -- the call's own specification, read as an operation on the association list
  cases edit with
  | insert value =>
    refine ends_insertion ?_
    refine ((ends_emplace h hv hadm.1 hadm.2).mono (fun _ _ hq => hq) fun e' w' he' => ?_).bind fun r t ht => ends_pure ?_
    · obtain ⟨lost, cached', hown, -⟩ := he'.safe (h.setCalls _) hsafe
      exact ⟨lost, cached', hown⟩
    · obtain ⟨items', cached', hown, hinserted, -⟩ := ht
      exact ⟨items', cached', hown, hinserted.added_eq⟩
  | insertRange values =>
    refine (ends_insertRange_safe h hv hadm.1 hadm.2 hsafe).mono (fun _ w' hr => ?_) fun _ w' he => ?_
    · obtain ⟨items', cached', hown, hfold⟩ := hr
      exact leaves_of hown fun hT _ => hfold hT
    · obtain ⟨done, more, items', cached', lost, rfl, hown, hfold⟩ := he
      exact ⟨items', cached', lost, hown, fun hT _ => ⟨done, more, rfl, hfold hT⟩⟩
  | tryEmplace key mapped => exact (ends_tryEmplace h hv hadm.1 hadm.2 hsafe).bind fun _ _ hr => ends_pure hr
  | subscript key =>
    have hsub : (SharedMemoryHashTable.subscript T v key).Ends w
        (fun _ w' => Leaves T vs w kept rest v items (fun m m' => m' = T.added m key (key, T.defaultMapped)) w')
        fun _ w' => Leaves T vs w kept rest v items (fun m m' => m' = m) w' :=
      (ends_tryEmplace h hv hadm.1 hadm.2 hsafe).bind fun _ _ hr => ends_pure hr
    exact hsub.bind fun _ _ hr => ends_pure hr
  | insertOrAssign key mapped =>
    refine ((ends_insertOrAssign h hv hadm.1 hadm.2 hsafe).mono (fun _ _ hq => hq) fun _ w' he => ?_).bind fun _ t ht => ends_pure ?_
    · obtain ⟨lost, cached', hown, -⟩ := he
      exact ⟨items, cached', lost, hown, fun _ _ => rfl⟩
    · obtain ⟨items', cached', hown, hassigned⟩ := ht
      exact leaves_of hown hassigned
  | eraseKey key =>
    refine ((ends_eraseKey h hv hsafe).mono (fun _ _ hq => hq.2) fun _ w' he => ?_).bind fun _ t ht => ends_pure ?_
    · obtain ⟨hthrown, -, hown⟩ := he
      exact leaves_of hown fun _ _ => ⟨⟨_, hthrown⟩, rfl⟩
    rcases ht with ⟨-, habsent, hown⟩ | ⟨-, xs, p, e, ys, rfl, hkey, hown⟩
    · exact leaves_of hown fun hT _ =>
        (filter_of_absent (TableType.absent_of_lookup hT h.holds.iterates.not_null habsent)).symm
    · refine leaves_of hown fun hT hd => ?_
      rw [List.map_append, List.map_cons] at hd
      change _ = List.filter _ _
      rw [List.map_append, List.map_append, List.map_cons, filter_of_split hT hd hkey]
  | erase i =>
    change i ≤ (w.obj v).size at hadm
    rw [hsize] at hadm
    obtain ⟨xs, ys, rfl, rfl⟩ : ∃ xs ys : Items K V, items = xs ++ ys ∧ i = xs.length :=
      ⟨items.take i, items.drop i, (List.take_append_drop i items).symm, (List.length_take_of_le hadm).symm⟩
    refine (ends_iteratorAt h.holds.toNodesHold).bind fun r t ht => ?_
    obtain ⟨rfl, rfl⟩ := ht
    -- an iterator at the end: nothing is erased
    cases ys with
    | nil =>
      refine ends_pure (leaves_of h fun _ _ => ?_)
      change _ = List.eraseIdx _ _
      rw [List.eraseIdx_of_length_le (by simp)]
    | cons y ys =>
      obtain ⟨p, e⟩ := y
      refine (ends_erase h hv (hsafe ?_)).bind fun _ u hu => ends_pure (leaves_of hu.2.1 fun _ _ => ?_)
      · rw [hsize, List.length_append, List.length_cons]
        omega
      · change _ = List.eraseIdx _ _
        rw [List.map_append, List.map_append, List.eraseIdx_append_of_length_le (by simp), List.length_map, Nat.sub_self]
        rfl
  | eraseRange i j =>
    refine (ends_eraseRangeAt h hv hadm hsafe).mono (fun _ w' hr => ?_) fun _ _ he => he
    obtain ⟨cached', hown, -⟩ := hr
    refine leaves_of hown fun _ _ => ?_
    rw [List.map_append, List.map_take, List.map_drop]
    rfl
  | clear => exact (ends_clear h.ownsNodes hv).mono (fun _ _ hr => leaves_of hr.1 fun _ _ => rfl) fun _ _ he => he
  | shrinkToFit => exact (ends_shrinkTable h hv).mono (fun _ _ hr => leaves_of hr.1 fun _ _ => rfl) fun _ _ he => he
  | rehash requested =>
    exact (ends_rehash h hv hadm).mono (fun _ _ hr => leaves_of hr.1 fun _ _ => rfl) fun _ _ he =>
      RehashFailed.leaves he.2 h (rehashTarget_pos _ _) hsafe
  | reserve count =>
    exact (ends_reserve h hv hadm).mono (fun _ _ hr => leaves_of hr.1 fun _ _ => rfl) fun _ _ he =>
      RehashFailed.leaves he.2 h (rehashTarget_pos _ _) hsafe
  | maxLoadFactor value =>
    refine (ends_setMaxLoadFactor h hv hadm).mono (fun _ _ hr => leaves_of hr.2.1 fun _ _ => rfl) fun e' w' he => ?_
    rcases he with ⟨-, -, rfl⟩ | ⟨-, -, -, hfailed⟩
    · exact leaves_of h fun _ _ => rfl
    · have hbase := h.setFactor hv value
      refine RehashFailed.leaves hfailed hbase (rehashTarget_pos _ _) fun k hk hthrow => ?_
      rw [hbase.holds.toNodesHold.elements_eq hlen]
      rw [hbase.holds.size_eq] at hk
      have hharmless := hsafe k (hsize ▸ hk) hthrow
      rw [h.holds.toNodesHold.elements_eq hlen] at hharmless
      dsimp only
      rw [Function.update_self]
      exact hharmless

end TableEdit

end ShmNext

