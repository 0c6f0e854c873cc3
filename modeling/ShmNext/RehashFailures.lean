import ShmNext.HashTableRefinement

/-! A rehash that a throwing hash cuts off while it relinks the nodes: what is given back, and exactly when the table is what it
was. -/
namespace ShmNext
open Prog NodeOp SharedMemoryHashTable HashLink

variable {K V F α : Type} {T : TableType K V F} {w w' w₁ u : TableWorld K V F} {vs cached : List ℕ} {kept : List LiveAlloc}
  {mine others rest : List (ℕ × ℕ)} {items : Items K V} {v k n h requested : ℕ} {e : NodeThrown} {key : K}
  {own : ℕ → Items K V × List ℕ} {P : TableWorld K V F → TableCall K V F → Prop}

/-- Where an insertion of the key relinks, the number of hash calls before and the new bucket count. -/
def SharedMemoryHashTable.insertionRelinks (T : TableType K V F) (w : TableWorld K V F) (v : ℕ) (key : K) : Option (ℕ × ℕ) :=
  if ((findNode T v key).run w).1 = .ok 0 ∧
      ((w.obj v).bucketCount = 0 ∨ T.factors.crowded ((w.obj v).size+1) (w.obj v).bucketCount (w.obj v).maxLoadFactor = true) ∧
      rehashTarget T (w.obj v) (grownBucketCount (w.obj v)) ≠ (w.obj v).bucketCount then
    some (w.hashes+(w.obj v).lookups, rehashTarget T (w.obj v) (grownBucketCount (w.obj v)))
  else none

/-- The same for a single call. -/
def TableEdit.relinks (T : TableType K V F) (w : TableWorld K V F) (v : ℕ) : TableEdit K V F → Option (ℕ × ℕ)
  | insert value => if T.throws w.calls then none else insertionRelinks T { w with calls := w.calls+1 } v value.1
  | tryEmplace key _ | subscript key => insertionRelinks T w v key
  | insertOrAssign key _ =>
    if ((findNode T v key).run w).1 = .ok 0 then insertionRelinks T { w with hashes := w.hashes+(w.obj v).lookups } v key else none
  | rehash requested =>
    if rehashTarget T (w.obj v) requested ≠ (w.obj v).bucketCount then some (w.hashes, rehashTarget T (w.obj v) requested) else none
  | reserve count =>
    let needed := minimumBucketCountForSize T count (w.obj v).maxLoadFactor
    if (w.obj v).bucketCount < needed ∧ rehashTarget T (w.obj v) needed ≠ (w.obj v).bucketCount then
      some (w.hashes, rehashTarget T (w.obj v) needed)
    else none
  | maxLoadFactor value =>
    if T.factors.nonpositive value = false ∧ T.factors.overfull (w.obj v).size (w.obj v).bucketCount value = true ∧
        (w.obj v).factorTarget T value ≠ (w.obj v).bucketCount then
      some (w.hashes, (w.obj v).factorTarget T value)
    else none
  | _ => none

/-- The state in which a call comes to its rehash: the members that count are those of before. -/
structure ComesTo (T : TableType K V F) (v : ℕ) (p : TableOp K V F Unit) (w w₁ : TableWorld K V F) (h n requested : ℕ) : Prop where
  state : ∃ c f, w₁ = { w with calls := c, hashes := h, obj := Function.update w.obj v ((w.obj v).withFactor f) }
  target : rehashTarget T (w₁.obj v) requested = n
  differs : n ≠ (w.obj v).bucketCount
  room : RehashRoom T w.heap (w₁.obj v) requested
  throws : ∀ e w', (rehash T v requested).run w₁ = (.error e, w') → p.run w = (.error e, w')

theorem update_withFactor_self (w : TableWorld K V F) (v : ℕ) :
    Function.update w.obj v ((w.obj v).withFactor (w.obj v).maxLoadFactor) = w.obj := Function.update_eq_self v w.obj

theorem run_error_of_bind_pure {p : TableOp K V F α} {e : NodeThrown} (h : (p >>= fun _ => pure ()).run w = (.error e, w')) :
    p.run w = (.error e, w') := by
  rw [run_bind] at h
  revert h
  rcases p.run w with ⟨_ | _ | _, t⟩ <;> intro h <;> cases h
  rfl

theorem eq_of_some_pair {a b c d : ℕ} (h : some (a, b) = some (c, d)) : c = a ∧ d = b := by
  cases h
  exact ⟨rfl, rfl⟩

/-- An insertion that relinks comes to its rehash after the lookup. -/
theorem insertNode_comesTo {x : K × V} (hold : TableHolds T w v items cached) (hlen : items.length ≤ walkFuel)
    (hins : InsertionFits T w v key) (hrel : insertionRelinks T w v key = some (h, n)) {k : ℕ × Bool → TableOp K V F Unit} :
    ∃ w₁ requested, ComesTo T v (insertNode T v key x >>= k) w w₁ h n requested := by
  unfold insertionRelinks at hrel
  split at hrel
  · rename_i hcond
    obtain ⟨hfind, hcrowded, hne⟩ := hcond
    obtain ⟨rfl, rfl⟩ := eq_of_some_pair hrel
    rcases (ends_findNode key hold hlen).cases with ⟨r, t, hr, -, rfl⟩ | ⟨e, t, hr, -⟩
    · rw [hr] at hfind
      obtain rfl := Outcome.ok.inj hfind
      refine ⟨{ w with hashes := w.hashes+(w.obj v).lookups }, grownBucketCount (w.obj v), ⟨w.calls, (w.obj v).maxLoadFactor, ?_⟩, rfl, hne, ?_, fun e w' hrun => ?_⟩
      · rw [update_withFactor_self]
      · refine hins ?_ hcrowded
        rw [hr]
      · have hmaybe : (maybeRehashForInsert T v).run { w with hashes := w.hashes+(w.obj v).lookups } = (.error e, w') := by
          have hget : (maybeRehashForInsert T v).run { w with hashes := w.hashes+(w.obj v).lookups } =
              (if (w.obj v).bucketCount = 0 ∨ T.factors.crowded ((w.obj v).size+1) (w.obj v).bucketCount (w.obj v).maxLoadFactor = true then
                rehash T v (grownBucketCount (w.obj v)) else pure ()).run { w with hashes := w.hashes+(w.obj v).lookups } := rfl
          rw [hget, if_pos hcrowded]
          exact hrun
        refine run_bind_error ?_ _
        unfold insertNode
        rw [run_bind_ok hr, if_neg (not_not.mpr rfl)]
        exact run_bind_error hmaybe _
    · rw [hr] at hfind
      cases hfind
  · cases hrel

theorem ComesTo.of_run {p q : TableOp K V F Unit} {t : TableWorld K V F} (h₁ : ComesTo T v p t w₁ h n requested)
    (hstate : ∃ c j, t = { w with calls := c, hashes := j }) (hrun : ∀ e w', p.run t = (.error e, w') → q.run w = (.error e, w')) :
    ComesTo T v q w w₁ h n requested := by
  obtain ⟨c, j, rfl⟩ := hstate
  obtain ⟨⟨c', f, rfl⟩, htarget, hne, hroom, hthrows⟩ := h₁
  exact ⟨⟨c', f, rfl⟩, htarget, hne, hroom, fun e w' he => hrun e w' (hthrows e w' he)⟩

theorem TableEdit.comesTo (c : TableEdit K V F) (hold : TableHolds T w v items cached) (hlen : items.length ≤ walkFuel)
    (hadm : c.Admissible T w v) (hrel : c.relinks T w v = some (h, n)) : ∃ w₁ requested, ComesTo T v (c.perform T v) w w₁ h n requested := by
  cases c with
  | insert value =>
    change (if T.throws w.calls then none else insertionRelinks T { w with calls := w.calls+1 } v value.1) = _ at hrel
    split at hrel
    · cases hrel
    · rename_i hcalm
      have hcalls : TableHolds T { w with calls := w.calls+1 } v items cached := hold.congr rfl rfl (fun _ _ => rfl) fun _ => rfl
      -- constructing the argument has not thrown, for that would relink nothing
      have hcall : (elementCall T.toNodeType : TableOp K V F Unit).run w = (.ok (), { w with calls := w.calls+1 }) := by
        rcases (ends_elementCall (T := T.toNodeType) (w := w)).cases with ⟨_, t, ht, rfl, -⟩ | ⟨_, _, -, -, -, hcon⟩
        · exact ht
        · exact absurd hcon hcalm
      obtain ⟨w₁, requested, h₁⟩ := insertNode_comesTo (x := value) (k := fun _ => pure ()) hcalls hlen hadm.2 hrel
      refine ⟨w₁, requested, h₁.of_run ⟨_, _, rfl⟩ fun e w' he => ?_⟩
      have hsplit : ((TableEdit.insert value).perform T v).run w =
          (((elementCall T.toNodeType >>= fun _ => insertNode T v value.1 value) >>= fun _ => pure ()) : TableOp K V F Unit).run w := rfl
      rw [hsplit, run_bind, run_bind_ok hcall, ← run_bind]
      exact he
  | tryEmplace key mapped => exact insertNode_comesTo hold hlen hadm.2 hrel
  | subscript key =>
    obtain ⟨w₁, requested, h₁⟩ := insertNode_comesTo (x := (key, T.defaultMapped)) (k := fun _ => pure ()) hold hlen hadm.2 hrel
    refine ⟨w₁, requested, h₁.of_run ⟨_, _, rfl⟩ fun e w' he => ?_⟩
    have hinner : (insertNode T v key (key, T.defaultMapped)).run w = (.error e, w') := run_error_of_bind_pure he
    have hsubscript : (SharedMemoryHashTable.subscript T v key).run w = (.error e, w') := run_bind_error hinner _
    exact run_bind_error hsubscript _
  | insertOrAssign key mapped =>
    change (if ((findNode T v key).run w).1 = .ok 0 then _ else none) = _ at hrel
    split at hrel
    · rename_i hfind
      -- `find` has found nothing, and what follows is an insertion
      have hhashes : TableHolds T { w with hashes := w.hashes+(w.obj v).lookups } v items cached := hold.setHashes _
      obtain ⟨w₁, requested, h₁⟩ := insertNode_comesTo (x := (key, mapped)) (k := fun _ => pure ()) hhashes hlen hadm.2 hrel
      refine ⟨w₁, requested, h₁.of_run ⟨_, _, rfl⟩ fun e w' he => ?_⟩
      rcases (ends_findNode key hold hlen).cases with ⟨r, t, hr, -, rfl⟩ | ⟨e, t, hr, -⟩
      · rw [hr] at hfind
        obtain rfl := Outcome.ok.inj hfind
        refine run_bind_error ?_ _
        unfold SharedMemoryHashTable.insertOrAssign SharedMemoryHashTable.find
        rw [run_bind_ok hr, if_neg (not_not.mpr rfl)]
        exact run_error_of_bind_pure he
      · rw [hr] at hfind
        cases hfind
    · cases hrel
  | rehash requested =>
    change (if _ ≠ _ then some (_, _) else none) = _ at hrel
    split at hrel
    · cases hrel
      rename_i hne
      refine ⟨w, requested, ⟨w.calls, (w.obj v).maxLoadFactor, ?_⟩, rfl, hne, hadm, fun _ _ he => he⟩
      rw [update_withFactor_self]
    · cases hrel
  | reserve count =>
    dsimp only [TableEdit.relinks] at hrel
    split at hrel
    · rename_i hcond
      obtain ⟨hlt, hne⟩ := hcond
      obtain ⟨rfl, rfl⟩ := eq_of_some_pair hrel
      refine ⟨w, _, ⟨w.calls, (w.obj v).maxLoadFactor, ?_⟩, rfl, hne, hadm hlt, fun e w' he => ?_⟩
      · rw [update_withFactor_self]
      · have hget : ((TableEdit.reserve count).perform T v).run w =
            (if (w.obj v).bucketCount < minimumBucketCountForSize T count (w.obj v).maxLoadFactor then
              SharedMemoryHashTable.rehash T v (minimumBucketCountForSize T count (w.obj v).maxLoadFactor) else pure ()).run w := rfl
        rw [hget, if_pos hlt]
        exact he
    · cases hrel
  | maxLoadFactor value =>
    dsimp only [TableEdit.relinks] at hrel
    split at hrel
    · rename_i hcond
      obtain ⟨hpos, hover, hne⟩ := hcond
      obtain ⟨rfl, rfl⟩ := eq_of_some_pair hrel
      refine ⟨_, minimumBucketCountForSize T (w.obj v).size value, ⟨w.calls, value, rfl⟩, ?_, hne, ?_, fun e w' he => ?_⟩
      · dsimp only
        rw [Function.update_self]
        rfl
      · dsimp only
        rw [Function.update_self]
        exact hadm hover
      · -- the factor is stored first, so that `rehash` sees the new one
        have hset : ((TableEdit.maxLoadFactor value).perform T v).run w =
            (if T.factors.nonpositive value then
              Prog.throw (.invalidArgument "SharedMemoryHashTable::max_load_factor must be positive")
            else do
              modifyObj v fun t => { t with maxLoadFactor := value }
              let w ← Prog.get
              if T.factors.overfull (w.obj v).size (w.obj v).bucketCount (w.obj v).maxLoadFactor then
                SharedMemoryHashTable.rehash T v (minimumBucketCountForSize T (w.obj v).size (w.obj v).maxLoadFactor)
              else pure () : TableOp K V F Unit).run w := rfl
        have hobj : ({ w with obj := Function.update w.obj v ((w.obj v).withFactor value) } : TableWorld K V F).obj v =
          (w.obj v).withFactor value := Function.update_self ..
        rw [hset, if_neg (by simp [hpos])]
        change Prog.run (if T.factors.overfull (({ w with obj := Function.update w.obj v ((w.obj v).withFactor value) } : TableWorld K V F).obj v).size
          (({ w with obj := Function.update w.obj v ((w.obj v).withFactor value) } : TableWorld K V F).obj v).bucketCount
          (({ w with obj := Function.update w.obj v ((w.obj v).withFactor value) } : TableWorld K V F).obj v).maxLoadFactor = true then
          SharedMemoryHashTable.rehash T v (minimumBucketCountForSize T
            (({ w with obj := Function.update w.obj v ((w.obj v).withFactor value) } : TableWorld K V F).obj v).size
            (({ w with obj := Function.update w.obj v ((w.obj v).withFactor value) } : TableWorld K V F).obj v).maxLoadFactor)
          else pure ()) { w with obj := Function.update w.obj v ((w.obj v).withFactor value) } = _
        rw [hobj]
        change Prog.run (if T.factors.overfull (w.obj v).size (w.obj v).bucketCount value = true then
          SharedMemoryHashTable.rehash T v (minimumBucketCountForSize T (w.obj v).size value) else pure ()) _ = _
        rw [if_pos hover]
        exact he
    · cases hrel
  | insertRange values => cases hrel
  | eraseKey key => cases hrel
  | erase i => cases hrel
  | eraseRange i j => cases hrel
  | clear => cases hrel
  | shrinkToFit => cases hrel

/-- The table is what it was: its members but for the bound on the load factor, its nodes in order, its chains, and the answers to
every key on calls of the hash that do not throw. -/
structure Unchanged (T : TableType K V F) (v : ℕ) (w w' : TableWorld K V F) : Prop where
  members : w'.obj v = (w.obj v).withFactor (w'.obj v).maxLoadFactor
  iteration : readItems w' v = readItems w v
  chains : (w.obj v).buckets ≠ 0 → Bucketed T w' (w.obj v).buckets (w.obj v).bucketCount (readItems w v)
  find_eq : ∀ key i j, T.hashThrows i = false → T.hashThrows j = false →
    ((findNode T v key).run { w' with hashes := i }).1 = ((findNode T v key).run { w with hashes := j }).1
  erase_eq : ∀ key i j, T.hashThrows i = false → T.hashThrows (i+1) = false → T.hashThrows j = false → T.hashThrows (j+1) = false →
    ((SharedMemoryHashTable.eraseKey T v key).run { w' with hashes := i }).1 =
      ((SharedMemoryHashTable.eraseKey T v key).run { w with hashes := j }).1

theorem TableHolds.find_answer (hold : TableHolds T w v items cached) (hlen : items.length ≤ walkFuel) (key : K) {i : ℕ}
    (hi : T.hashThrows i = false) : ∃ k, (findNode T v key).run { w with hashes := i } =
      (.ok (T.lookup (w.obj v).bucketCount items key), { w with hashes := k }) ∧ (k = i ∨ k = i+1) := by
  rcases (ends_findNode key (hold.setHashes i) hlen).cases with ⟨r, t, hr, rfl, rfl⟩ | ⟨e, t, -, -, -, hcon⟩
  · refine ⟨_, hr, ?_⟩
    dsimp only
    unfold lookups
    split
    · exact Or.inl rfl
    · exact Or.inr rfl
  · dsimp only at hcon
    rw [hi] at hcon
    cases hcon

theorem OwnsTable.erase_answer {w₀ : TableWorld K V F} (hown : OwnsTable T vs w₀ kept rest v items cached w) (hv : v ∈ vs) (key : K)
    {i : ℕ} (hi : T.hashThrows i = false) (hi' : T.hashThrows (i+1) = false) :
    ((SharedMemoryHashTable.eraseKey T v key).run { w with hashes := i }).1 =
      .ok (if T.lookup (w.obj v).bucketCount items key = 0 then 0 else 1) := by
  obtain ⟨k, hr, hk⟩ := hown.holds.find_answer hown.ownsNodes.length_le key hi
  unfold SharedMemoryHashTable.eraseKey
  rw [run_bind_ok hr]
  by_cases hz : T.lookup (w.obj v).bucketCount items key = 0
  · rw [if_pos hz, if_pos hz]
    rfl
  · obtain ⟨e, he, -⟩ := TableType.lookup_ne_zero hz
    obtain ⟨xs, ys, hsplit⟩ := Items.split_of_mem he
    have htable := hown.setHashes k
    rw [hsplit] at htable
    rw [if_neg hz, if_neg hz]
    have hthrow : T.hashThrows k = false := by
      rcases hk with rfl | rfl
      · exact hi
      · exact hi'
    rcases (ends_eraseNode (E := fun _ _ => False) htable hv hthrow).cases with ⟨_, t, ht, -⟩ | ⟨_, _, -, hcon⟩
    · rw [run_bind_ok ht]
      rfl
    · exact hcon.elim

/-- Two tables of the same nodes in the same buckets. -/
theorem Unchanged.of_holds {w₀ w₀' : TableWorld K V F} {kept' : List LiveAlloc} {rest' : List (ℕ × ℕ)} {cached' : List ℕ} (hv : v ∈ vs)
    (hown : OwnsTable T vs w₀ kept rest v items cached w) (hown' : OwnsTable T vs w₀' kept' rest' v items cached' w')
    (hobj : w'.obj v = (w.obj v).withFactor (w'.obj v).maxLoadFactor) : Unchanged T v w w' := by
  have hread := hown.holds.toNodesHold.readItems_eq hown.ownsNodes.length_le
  have hread' := hown'.holds.toNodesHold.readItems_eq hown'.ownsNodes.length_le
  have hcount : (w'.obj v).bucketCount = (w.obj v).bucketCount := by
    rw [hobj]
    rfl
  have hbuckets : (w'.obj v).buckets = (w.obj v).buckets := by
    rw [hobj]
    rfl
  refine ⟨hobj, hread'.trans hread.symm, fun hb => ?_, fun key i j hi hj => ?_, fun key i j hi hi' hj hj' => ?_⟩
  · rw [hread, ← hcount, ← hbuckets]
    exact hown'.holds.chains (hbuckets ▸ hb)
  · obtain ⟨_, hr, -⟩ := hown.holds.find_answer hown.ownsNodes.length_le key hj
    obtain ⟨_, hr', -⟩ := hown'.holds.find_answer hown'.ownsNodes.length_le key hi
    rw [hr, hr', hcount]
  · rw [hown.erase_answer hv key hj hj', hown'.erase_answer hv key hi hi', hcount]

/-- The hash has thrown while a call relinked the nodes, after `k` of them: the new array has been given back, and the table is what it
was exactly where that cut is harmless. -/
theorem cut_rehash_exact (hrun : TableRun T (TableCall.Careful T) w) (hv : v ∈ w.names) (c : TableEdit K V F)
    (hadm : c.Admissible T w v) (hrel : c.relinks T w v = some (h, n)) (hk : k < (w.obj v).size) (hthrow : T.FirstThrow h k)
    (herr : (c.perform T v).run w = (.error .hash, w')) :
    (∀ r, r ∈ w'.heap.allocations ↔ r ∈ w.heap.allocations) ∧
      (Unchanged T v w w' ↔ T.Harmless (w.obj v).bucketCount n (elements w v) k) := by
  obtain ⟨own, others, hw⟩ := hrun.hold fun _ _ hcall => hcall
  have htable := hw.table hv [v]
  have hheld := (hw.holds v hv).1
  have hlen := hw.length_le hv
  have hsize := hheld.size_eq
  obtain ⟨w₁, requested, ⟨c', f, rfl⟩, htarget, hne, hroom, hthrows⟩ := c.comesTo hheld hlen hadm hrel
  have htable₁ := ((htable.setFactor (List.mem_singleton_self v) f).setCalls c').setHashes h
  have hobj : ({ w with calls := c', hashes := h, obj := Function.update w.obj v ((w.obj v).withFactor f) } : TableWorld K V F).obj v =
    (w.obj v).withFactor f := Function.update_self ..
  have hn : 0 < n := htarget ▸ rehashTarget_pos _ _
  change OwnsTable T [v] w _ [] v _ _ { w with calls := c', hashes := h, obj := Function.update w.obj v ((w.obj v).withFactor f) } at htable₁
  have hhash : ({ w with calls := c', hashes := h, obj := Function.update w.obj v ((w.obj v).withFactor f) } : TableWorld K V F).hashes = h := rfl
  generalize ({ w with calls := c', hashes := h, obj := Function.update w.obj v ((w.obj v).withFactor f) } : TableWorld K V F) = w₁ at *
  -- the rehash has been cut off as well
  rcases (ends_rehash htable₁ (List.mem_singleton_self v) hroom).cases with ⟨_, t, -, -, -, hcalm⟩ | ⟨e, t, ht, -, hfailed⟩
  · have hno := hcalm (by rw [htarget, hobj]; exact hne) k (hsize ▸ hk)
    rw [hhash, hthrow.1] at hno
    cases hno
  have herr' := hthrows e t ht
  rw [herr] at herr'
  obtain ⟨rfl, rfl⟩ : NodeThrown.hash = e ∧ w' = t := by
    cases herr'
    exact ⟨rfl, rfl⟩
  rcases hfailed with ⟨⟨_, hcon⟩, -⟩ | ⟨-, hcut⟩
  · cases hcon
  rw [htarget] at hcut
  have hb : (w.obj v).buckets ≠ 0 := by
    intro hz
    rw [(hheld.bare hz).2] at hsize
    rw [hsize] at hk
    exact absurd hk (Nat.not_lt_zero k)
  have hobj' : w'.obj v = (w.obj v).withFactor f := by rw [hcut.obj_eq, hobj]
  obtain ⟨k', hk', hthrow', hbefore, -, hiff⟩ := hcut.bucketed_iff htable₁.holds hn
  have hfirst : T.FirstThrow h k' := by
    rw [← hhash]
    exact ⟨hthrow', hbefore⟩
  obtain rfl : k' = k := hfirst.unique hthrow
  rw [hobj] at hiff
  rw [hw.elements_eq hv]
  refine ⟨fun r => ?_, fun hsame => ?_, fun hharmless => ?_⟩
  · have hsplit := SideBySide.split hw (SideBySide.perm_erase hv)
    simp only [Discipline.blocksOf_cons, Discipline.blocksOf_nil, List.append_nil] at hsplit
    have hgather := hcut.nodes.own.gather hsplit w'.names
    rw [List.append_nil, hobj'] at hgather
    exact hgather.mem_allocations.trans hsplit.mem_allocations.symm
  · refine hiff.mp ?_
    rw [← hw.readItems_eq hv]
    exact hsame.chains hb
  · refine Unchanged.of_holds (List.mem_singleton_self v) htable (hcut.ownsTable fun _ => ?_) (by rw [hobj']; rfl)
    rw [hobj]
    exact hiff.mpr hharmless

/-- The sixth call of the hash throws. -/
abbrev throwingTable : TableType ℕ ℕ ℚ := wordTable (fun _ => false) fun k => k == 5

/-- A table of the key 5 and another. -/
def twoKeys (b : ℕ) : TableWorld ℕ ℕ ℚ :=
  afterTableCalls throwingTable [.construct 0 8, .edit 0 (.tryEmplace 5 1), .edit 0 (.tryEmplace b 2)] tableWorld

theorem twoKeys_run {b : ℕ} (hb : b = 6 ∨ b = 13) : TableRun throwingTable (TableCall.Careful throwingTable) (twoKeys b) := by
  have h₀ : TableRun throwingTable (TableCall.Careful throwingTable) tableWorld := .start smallHeap_reachable
  have h₁ := h₀.perform (.construct 0 8) ⟨⟨by decide, by decide +kernel⟩, trivial⟩ (by decide +kernel)
  have hroom : ∀ w : TableWorld ℕ ℕ ℚ, ¬((w.obj 0).bucketCount = 0 ∨
      exactFactors.crowded ((w.obj 0).size+1) (w.obj 0).bucketCount (w.obj 0).maxLoadFactor = true) →
      ∀ key, InsertionSafe throwingTable w 0 key := fun w hno key _ hc => absurd hc hno
  have h₂ := h₁.perform (.edit 0 (.tryEmplace 5 1)) ⟨⟨by decide +kernel, by decide +kernel, by decide +kernel⟩, hroom _ (by decide +kernel) _⟩
    (by decide +kernel)
  rcases hb with rfl | rfl
  · exact h₂.perform (.edit 0 (.tryEmplace 6 2)) ⟨⟨by decide +kernel, by decide +kernel, by decide +kernel⟩, hroom _ (by decide +kernel) _⟩
      (by decide +kernel)
  · exact h₂.perform (.edit 0 (.tryEmplace 13 2)) ⟨⟨by decide +kernel, by decide +kernel, by decide +kernel⟩, hroom _ (by decide +kernel) _⟩
      (by decide +kernel)

/-- Elements of different buckets: the cut does no harm. -/
theorem cut_rehash_exact_apart : Unchanged throwingTable 0 (twoKeys 6) ((rehash throwingTable 0 16).run (twoKeys 6)).2 := by
  have hrun := twoKeys_run (b := 6) (Or.inl rfl)
  have herr : ((TableEdit.rehash 16).perform throwingTable 0).run (twoKeys 6) =
    (.error .hash, ((rehash throwingTable 0 16).run (twoKeys 6)).2) := Prod.ext (by decide +kernel) rfl
  have hroom : RehashRoom throwingTable (twoKeys 6).heap ((twoKeys 6).obj 0) 16 := by decide +kernel
  exact (cut_rehash_exact (h := 4) (n := 16) (k := 1) hrun (by decide +kernel) (.rehash 16) hroom (by decide +kernel)
    (by decide +kernel) ⟨by decide +kernel, by decide +kernel⟩ herr).2.mpr (by decide +kernel)

/-- Two elements in one bucket: the first is not found any more. -/
theorem cut_rehash_loses_element : TableRun throwingTable (TableCall.Careful throwingTable) (twoKeys 13) ∧
    ((rehash throwingTable 0 16).run (twoKeys 13)).1 = .error .hash ∧
    ¬Unchanged throwingTable 0 (twoKeys 13) ((rehash throwingTable 0 16).run (twoKeys 13)).2 := by
  refine ⟨twoKeys_run (Or.inr rfl), by decide +kernel, fun hsame => ?_⟩
  have hfind := hsame.find_eq 5 10 10 (by decide) (by decide)
  exact absurd hfind (by decide +kernel)

end ShmNext
