import ShmNext.HashTableRefinement

/-! The bound on the load factor, with the arithmetic taken exactly. -/
namespace ShmNext
open Prog NodeOp SharedMemoryHashTable HashLink

variable {K V F α : Type} {T : TableType K V ℚ} {w w' w₀ u : TableWorld K V ℚ} {vs cached : List ℕ} {kept : List LiveAlloc}
  {mine others rest : List (ℕ × ℕ)} {items : Items K V} {v n i : ℕ} {f : ℚ} {e : K × V} {key : K} {t t' : SharedMemoryHashTable ℚ}
  {own : ℕ → Items K V × List ℕ}

namespace SharedMemoryHashTable

/-- The load factor does not exceed the bound, which is positive. -/
structure WithinBound (t : SharedMemoryHashTable ℚ) : Prop where
  factor_pos : 0 < t.maxLoadFactor
  size_le : (t.size : ℚ) ≤ t.maxLoadFactor*t.bucketCount

/-- What an insertion may have done to the members that the load factor depends on. -/
def Grown (T : TableType K V F) (t t' : SharedMemoryHashTable F) : Prop :=
  t'.maxLoadFactor = t.maxLoadFactor ∧
    (t'.size = t.size ∧ (t'.bucketCount = t.bucketCount ∨ t'.bucketCount = t.countAfterInsert T) ∨
      t'.size = t.size+1 ∧ t'.bucketCount = t.countAfterInsert T)

/-- If the table is empty, twice its bucket count, or the default count where that is more, is enough for one element. -/
def RoomForFirst (t : SharedMemoryHashTable ℚ) : Prop :=
  t.size = 0 → 1 ≤ t.maxLoadFactor*(max defaultBucketCount (t.bucketCount*2) : ℕ)

instance (t : SharedMemoryHashTable ℚ) : Decidable t.RoomForFirst := inferInstanceAs (Decidable (_ → _))

end SharedMemoryHashTable

/-! The arithmetic. -/

theorem le_normalizeBucketCount (n : ℕ) : n ≤ normalizeBucketCount n := by
  unfold normalizeBucketCount
  split
  · omega
  · exact Nat.le_refl n

/-- The minimum for a number of elements leaves them within the bound. -/
theorem size_le_minimum (hT : T.factors = exactFactors) (hf : 0 < f) (n : ℕ) : (n : ℚ) ≤ f*minimumBucketCountForSize T n f := by
  unfold minimumBucketCountForSize
  rw [hT]
  by_cases hn : n = 0
  · rw [hn, if_pos rfl, Nat.cast_zero]
    positivity
  · rw [if_neg hn]
    have hceil : (n : ℚ)/f ≤ ⌈(n : ℚ)/f⌉₊ := Nat.le_ceil _
    have hnormal : ((⌈(n : ℚ)/f⌉₊ : ℕ) : ℚ) ≤ normalizeBucketCount ⌈(n : ℚ)/f⌉₊ := Nat.cast_le.mpr (le_normalizeBucketCount _)
    calc (n : ℚ) = f*((n : ℚ)/f) := (mul_div_cancel₀ _ hf.ne').symm
      _ ≤ f*normalizeBucketCount ⌈(n : ℚ)/f⌉₊ := mul_le_mul_of_nonneg_left (hceil.trans hnormal) hf.le

/-- So does the count that `rehash` settles on. -/
theorem size_le_rehashTarget (hT : T.factors = exactFactors) (hf : 0 < t.maxLoadFactor) (requested : ℕ) :
    (t.size : ℚ) ≤ t.maxLoadFactor*rehashTarget T t requested := by
  refine (size_le_minimum hT hf t.size).trans ?_
  have hmax : minimumBucketCountForSize T t.size t.maxLoadFactor ≤ rehashTarget T t requested := le_max_right _ _
  exact mul_le_mul_of_nonneg_left (Nat.cast_le.mpr hmax) hf.le

/-- Growth of an empty table ends in the count of `RoomForFirst`. -/
theorem rehashTarget_empty (hzero : t.size = 0) (hlt : t.bucketCount*2 < 2^64) :
    rehashTarget T t (grownBucketCount t) = max defaultBucketCount (t.bucketCount*2) := by
  unfold rehashTarget minimumBucketCountForSize grownBucketCount normalizeBucketCount
  rw [hzero, if_pos rfl, Nat.mod_eq_of_lt hlt]
  have hdefault : 0 < defaultBucketCount := by decide
  split_ifs <;> omega

/-- The first element fits, whether the table grows for it or not. -/
theorem first_le_countAfterInsert (hT : T.factors = exactFactors) (hroom : t.RoomForFirst) (hzero : t.size = 0)
    (hlt : t.bucketCount*2 < 2^64) : (1 : ℚ) ≤ t.maxLoadFactor*t.countAfterInsert T := by
  unfold countAfterInsert
  split
  · rw [rehashTarget_empty hzero hlt]
    exact hroom hzero
  · rename_i hcond
    rw [not_or] at hcond
    have hcalm := hcond.2
    rw [hT, hzero] at hcalm
    change ¬decide _ = true at hcalm
    rw [decide_eq_true_iff, not_lt, mul_comm] at hcalm
    simpa using hcalm

/-- Growth for an insertion makes room for one element more. -/
theorem SharedMemoryHashTable.WithinBound.insert (hT : T.factors = exactFactors) (h : t.WithinBound) (hroom : t.RoomForFirst) (hlt : t.bucketCount*2 < 2^64) :
    ((t.size+1 : ℕ) : ℚ) ≤ t.maxLoadFactor*t.countAfterInsert T := by
  have hpos := h.factor_pos
  by_cases hzero : t.size = 0
  · rw [hzero, Nat.zero_add, Nat.cast_one]
    exact first_le_countAfterInsert hT hroom hzero hlt
  unfold countAfterInsert
  split
  · have hsize : 0 < (t.size : ℚ) := Nat.cast_pos.mpr (Nat.pos_of_ne_zero hzero)
    have hcount : t.bucketCount ≠ 0 := by
      intro hz
      have hle := h.size_le
      rw [hz, Nat.cast_zero, mul_zero] at hle
      exact absurd hsize (not_lt.mpr hle)
    -- the count is at least doubled, and there is an element
    have hgrown : t.bucketCount*2 ≤ rehashTarget T t (grownBucketCount t) := by
      unfold grownBucketCount rehashTarget
      rw [if_neg hcount, Nat.mod_eq_of_lt hlt]
      exact (le_normalizeBucketCount _).trans (le_max_left _ _)
    have hcast : (t.bucketCount : ℚ)*2 ≤ rehashTarget T t (grownBucketCount t) := by exact_mod_cast hgrown
    have hone : (1 : ℚ) ≤ t.size := by exact_mod_cast Nat.pos_of_ne_zero hzero
    calc ((t.size+1 : ℕ) : ℚ) = t.size+1 := by push_cast; rfl
      _ ≤ t.size+t.size := by linarith only [hone]
      _ ≤ t.maxLoadFactor*t.bucketCount+t.maxLoadFactor*t.bucketCount := add_le_add h.size_le h.size_le
      _ = t.maxLoadFactor*(t.bucketCount*2) := by ring
      _ ≤ t.maxLoadFactor*rehashTarget T t (grownBucketCount t) := mul_le_mul_of_nonneg_left hcast hpos.le
  · rename_i hcond
    rw [not_or] at hcond
    have hcalm := hcond.2
    rw [hT] at hcalm
    change ¬decide _ = true at hcalm
    rw [decide_eq_true_iff, not_lt, mul_comm] at hcalm
    exact hcalm

/-- Without an element more the bound holds as well. -/
theorem SharedMemoryHashTable.WithinBound.size_le_grown (hT : T.factors = exactFactors) (h : t.WithinBound) :
    (t.size : ℚ) ≤ t.maxLoadFactor*t.countAfterInsert T := by
  unfold countAfterInsert
  split
  · exact size_le_rehashTarget hT h.factor_pos _
  · exact h.size_le

theorem SharedMemoryHashTable.WithinBound.grown (hT : T.factors = exactFactors) (h : t.WithinBound) (hroom : t.RoomForFirst) (hlt : t.bucketCount*2 < 2^64)
    (hg : t.Grown T t') : t'.WithinBound := by
  obtain ⟨hfactor, hcase⟩ := hg
  refine ⟨hfactor ▸ h.factor_pos, ?_⟩
  rw [hfactor]
  rcases hcase with ⟨hsize, hcount | hcount⟩ | ⟨hsize, hcount⟩ <;> rw [hsize, hcount]
  · exact h.size_le
  · exact h.size_le_grown hT
  · exact h.insert hT hroom hlt

theorem SharedMemoryHashTable.WithinBound.mono (h : t.WithinBound) (hcap : SameCapacity t t') (hsize : t'.size ≤ t.size) : t'.WithinBound := by
  obtain ⟨hfactor, hcount⟩ := hcap
  refine ⟨hfactor ▸ h.factor_pos, ?_⟩
  rw [hfactor, hcount]
  exact (Nat.cast_le.mpr hsize).trans h.size_le

/-! What each call does to the members. -/

theorem OwnsTable.count_lt {F : Type} {T : TableType K V F} {w w₀ : TableWorld K V F} (h : OwnsTable T vs w₀ kept rest v items cached w) :
    (w.obj v).bucketCount*2 < 2^64 := by
  by_cases hb : (w.obj v).buckets = 0
  · rw [(h.holds.bare hb).1]
    decide
  · have hmem : ((w.obj v).buckets, (w.obj v).bucketCount*8) ∈ T.owned (w.obj v) items cached ++ rest := by
      refine List.mem_append_left _ (List.mem_append_right _ ?_)
      rw [array_of_ne hb]
      exact List.mem_cons_self
    obtain ⟨-, hend, hlt⟩ := h.own.holding.bounds hmem
    dsimp only at hend
    omega

section
variable {F : Type} {T : TableType K V F} {w w' w₀ : TableWorld K V F}

theorem ends_insertNode_grown (h : OwnsTable T vs w₀ kept rest v items cached w) (hv : v ∈ vs)
    (hroom : AddressRoom w₀.heap T.sizeofNode T.alignofNode) (hins : InsertionFits T w v key) :
    (insertNode T v key e).Ends w (fun _ w' => Grown T (w.obj v) (w'.obj v)) fun _ w' => Grown T (w.obj v) (w'.obj v) := by
  have hsize := h.holds.size_eq
  refine (ends_insertNode h hv hroom hins).mono (fun r w' hr => ?_) fun e' w' he => ?_
  · rcases hr with ⟨-, -, rfl⟩ | ⟨-, -, -, hown, hfactor, hcount⟩
    · exact ⟨rfl, Or.inl ⟨rfl, Or.inl rfl⟩⟩
    · refine ⟨hfactor, Or.inr ⟨?_, hcount⟩⟩
      rw [hown.holds.size_eq, hsize, List.length_append]
      rfl
  · rcases he with ⟨lost, cached', hown, -, hfactor, hcount⟩ | ⟨-, -, -, -, hcut⟩
    · exact ⟨hfactor, Or.inl ⟨hown.holds.size_eq.trans hsize.symm, hcount⟩⟩
    · rw [hcut.obj_eq]
      exact ⟨rfl, Or.inl ⟨rfl, Or.inl rfl⟩⟩

theorem ends_emplace_grown (h : OwnsTable T vs w₀ kept rest v items cached w) (hv : v ∈ vs)
    (hroom : AddressRoom w₀.heap T.sizeofNode T.alignofNode) (hins : EmplacementFits T w v e.1) :
    (emplace T v e).Ends w (fun _ w' => Grown T (w.obj v) (w'.obj v)) fun _ w' => Grown T (w.obj v) (w'.obj v) := by
  unfold emplace
  refine (ends_elementCall.mono (fun _ _ hq => hq) fun e' w' he => ?_).bind fun _ t ht => ?_
  · obtain ⟨-, rfl, -⟩ := he
    exact ⟨rfl, Or.inl ⟨rfl, Or.inl rfl⟩⟩
  · obtain ⟨rfl, -⟩ := ht
    exact ends_insertNode_grown (h.setCalls _) hv hroom hins

theorem ends_insertOrAssign_grown {x : V} (h : OwnsTable T vs w₀ kept rest v items cached w) (hv : v ∈ vs)
    (hroom : AddressRoom w₀.heap T.sizeofNode T.alignofNode)
    (hins : InsertionFits T { w with hashes := w.hashes+(w.obj v).lookups } v key) :
    (SharedMemoryHashTable.insertOrAssign T v key x).Ends w (fun _ w' => Grown T (w.obj v) (w'.obj v))
      fun _ w' => Grown T (w.obj v) (w'.obj v) := by
  unfold SharedMemoryHashTable.insertOrAssign SharedMemoryHashTable.find
  refine ((ends_findNode _ h.holds h.ownsNodes.length_le).mono (fun _ _ hq => hq) fun e' w' he => ?_).bind fun r t ht => ?_
  · obtain ⟨-, rfl, -⟩ := he
    exact ⟨rfl, Or.inl ⟨rfl, Or.inl rfl⟩⟩
  obtain ⟨rfl, rfl⟩ := ht
  have ht := h.setHashes (w.hashes+(w.obj v).lookups)
  by_cases hfound : T.lookup (w.obj v).bucketCount items key = 0
  · rw [if_neg (not_not.mpr hfound)]
    exact ends_insertNode_grown ht hv hroom hins
  · rw [if_pos hfound]
    obtain ⟨e, he, -⟩ := TableType.lookup_ne_zero hfound
    generalize T.lookup (w.obj v).bucketCount items key = p at *
    have hnode := ht.holds.toNodesHold.isNode (Items.mem_nodes he)
    exact ends_readElem_bind (ht.holds.iterates.elems _ he) (ends_setElem_bind hnode (ends_pure ⟨rfl, Or.inl ⟨rfl, Or.inl rfl⟩⟩))

end

/-- The scan of the free list finds a block for an array of `n` buckets. -/
def FindsArray (g : Heap) (n : ℕ) : Prop := n ≤ (2^64-1)/8 ∧ FindsBlock g.alloc (n*8) 8

namespace TableEdit

/-- An insertion into an empty table has room for its element there; and where `max_load_factor` has to rehash, a block is found for
the array, and the hash does not throw for the nodes to relink. -/
def KeepsBound (T : TableType K V ℚ) (w : TableWorld K V ℚ) (v : ℕ) : TableEdit K V ℚ → Prop
  | insert _ | tryEmplace _ _ | subscript _ | insertOrAssign _ _ => (w.obj v).RoomForFirst
  | insertRange values => values ≠ [] → (w.obj v).RoomForFirst
  | maxLoadFactor value => T.factors.overfull (w.obj v).size (w.obj v).bucketCount value = true →
      (w.obj v).factorTarget T value ≠ (w.obj v).bucketCount →
        FindsArray w.heap ((w.obj v).factorTarget T value) ∧ ∀ k < (w.obj v).size, T.hashThrows (w.hashes+k) = false
  | _ => True

end TableEdit

/-! Every call keeps the bound. -/

/-- The allocation of an array looks at the heap alone. -/
theorem run_allocateBuckets_congr {F : Type} {T : TableType K V F} {w w' : TableWorld K V F} (h : w'.heap = w.heap) (n : ℕ) :
    ((allocateBuckets T n).run w').1 = ((allocateBuckets T n).run w).1 := by
  unfold allocateBuckets NodeOp.allocate
  exact run_callAllocator_congr h

/-- An array that a block is found for is allocated. -/
theorem allocateBuckets_returns {F : Type} {T : TableType K V F} {w w₀ : TableWorld K V F}
    (h : OwnsTable T vs w₀ kept rest v items cached w) (hn : 0 < n) (hroom : BucketRoom w.heap n) (hfinds : FindsArray w.heap n) :
    ∃ p, ((allocateBuckets T n).run w).1 = .ok p := by
  obtain ⟨bs, l, hinv⟩ := h.own.holding.heap
  obtain ⟨p, c, hrun⟩ := (hinv.allocateElements_returns_iff (by decide) hn (by decide : normalizeAlignment 8 = some 16)
    fun hle => hinv.allocateFits_of_room (hroom hle)).mpr hfinds
  refine ⟨p, ?_⟩
  unfold allocateBuckets NodeOp.allocate NodeOp.callAllocator
  rw [run_read, hrun]
  rfl

/-- The first insertion of a range needs room, and the later ones find an element there. -/
theorem ends_insertRange_bound {values : List (K × V)} (hT : T.factors = exactFactors)
    (h : OwnsTable T vs w₀ kept rest v items cached w) (hv : v ∈ vs) (hroom : AddressRoom w₀.heap T.sizeofNode T.alignofNode)
    (hins : InsertionsFit T v values w) (hb : (w.obj v).WithinBound) (hfirst : values ≠ [] → (w.obj v).RoomForFirst) :
    (SharedMemoryHashTable.insertRange T v values).Ends w (fun _ w' => (w'.obj v).WithinBound) fun _ w' => (w'.obj v).WithinBound := by
  induction values generalizing w items cached with
  | nil => exact ends_pure hb
  | cons e values ih =>
    obtain ⟨hfit, hrest⟩ := hins
    have hstep := ((ends_emplace h hv hroom hfit).and (ends_emplace_grown h hv hroom hfit)).with_run
    have hgrown := fun t' (hg : Grown T (w.obj v) t') => hb.grown hT (hfirst (List.cons_ne_nil _ _)) h.count_lt hg
    refine (hstep.mono (fun _ _ hq => hq) fun e' w' he => hgrown _ he.2).bind fun r t ht => ?_
    obtain ⟨⟨⟨items', cached', hown, hinserted, -⟩, hg⟩, hrun⟩ := ht
    rw [hrun] at hrest
    refine ih hown hrest (hgrown _ hg) fun _ hzero => ?_
    rw [hown.holds.size_eq] at hzero
    exact absurd (List.length_eq_zero_iff.mp hzero) hinserted.ne_nil

theorem ends_setMaxLoadFactor_bound (hT : T.factors = exactFactors) (h : OwnsTable T vs w kept rest v items cached w) (hv : v ∈ vs)
    (hb : (w.obj v).WithinBound) (hadm : (TableEdit.maxLoadFactor f : TableEdit K V ℚ).Admissible T w v)
    (hkeep : (TableEdit.maxLoadFactor f : TableEdit K V ℚ).KeepsBound T w v) :
    (setMaxLoadFactor T v f).Ends w (fun _ w' => (w'.obj v).WithinBound) fun _ w' => (w'.obj v).WithinBound := by
  refine (ends_setMaxLoadFactor h hv hadm).mono (fun _ w' hr => ?_) fun e' w' he => ?_
  · obtain ⟨hpos, -, p, hobj⟩ := hr
    rw [hT] at hpos
    have hf : 0 < f := not_le.mp (of_decide_eq_false hpos)
    rw [hobj]
    refine ⟨hf, ?_⟩
    dsimp only
    split
    · exact size_le_rehashTarget (t := (w.obj v).withFactor f) hT hf _
    · rename_i hcalm
      rw [hT] at hcalm
      change ¬decide (f < if (w.obj v).bucketCount = 0 then 0 else ((w.obj v).size : ℚ)/(w.obj v).bucketCount) = true at hcalm
      rw [decide_eq_true_iff, not_lt] at hcalm
      by_cases hc : (w.obj v).bucketCount = 0
      · have hnil := (h.holds.bare (h.holds.toNodesHold.buckets_zero_iff.mpr hc)).2
        rw [h.holds.size_eq, hnil, List.length_nil, Nat.cast_zero]
        positivity
      · rw [if_neg hc] at hcalm
        have hcpos : (0 : ℚ) < (w.obj v).bucketCount := Nat.cast_pos.mpr (Nat.pos_of_ne_zero hc)
        exact (div_le_iff₀ hcpos).mp hcalm
  · -- it throws on a factor that is not positive, or after the factor has been stored; `hkeep` says that this one does not
    rcases he with ⟨-, -, rfl⟩ | ⟨-, hover, hneeded, hfailed⟩
    · exact hb
    obtain ⟨hfinds, hcalm⟩ := hkeep hover hneeded
    obtain ⟨p, hp⟩ : ∃ p, ((allocateBuckets T ((w.obj v).factorTarget T f)).run w).1 = .ok p :=
      allocateBuckets_returns h (rehashTarget_pos _ _) (hadm hover hneeded) hfinds
    rcases hfailed with ⟨-, -, -, -, -, hrun⟩ | ⟨-, hcut⟩
    · have hheap : ({ w with obj := Function.update w.obj v ((w.obj v).withFactor f) } : TableWorld K V ℚ).heap = w.heap := rfl
      have hsame := run_allocateBuckets_congr (T := T) hheap ((w.obj v).factorTarget T f)
      rw [hsame, hp] at hrun
      cases hrun
    · obtain ⟨xs, ys, hsplit, hys, -, -, -, hthrow, -⟩ := hcut.relinked
      have hlt : xs.length < (w.obj v).size := by
        rw [h.holds.size_eq, hsplit, List.length_append]
        have := List.length_pos_iff.mpr hys
        omega
      rw [hcalm _ hlt] at hthrow
      cases hthrow

theorem RehashFailed.bound {count : ℕ} {e' : NodeThrown} (h : RehashFailed T vs w₀ kept rest v items cached count w e' w')
    (hb : (w.obj v).WithinBound) : (w'.obj v).WithinBound := by
  rcases h with ⟨-, -, hobj, -⟩ | ⟨-, hcut⟩
  · rw [hobj]
    exact hb
  · rw [hcut.obj_eq]
    exact hb

theorem ends_rehash_bound (hT : T.factors = exactFactors) (h : OwnsTable T vs w₀ kept rest v items cached w) (hv : v ∈ vs)
    (hroom : RehashRoom T w₀.heap (w.obj v) n) (hb : (w.obj v).WithinBound) :
    (SharedMemoryHashTable.rehash T v n).Ends w (fun _ w' => (w'.obj v).WithinBound) fun _ w' => (w'.obj v).WithinBound := by
  refine (ends_rehash h hv hroom).mono (fun _ w' hr => ?_) fun _ w' he => he.2.bound hb
  obtain ⟨-, ⟨p, hobj⟩, -⟩ := hr
  rw [hobj]
  exact ⟨hb.factor_pos, size_le_rehashTarget hT hb.factor_pos n⟩

/-- Every call keeps the bound. -/
theorem TableEdit.ends_bound (hT : T.factors = exactFactors) (edit : TableEdit K V ℚ) (h : OwnsTable T vs w kept rest v items cached w)
    (hv : v ∈ vs) (hb : (w.obj v).WithinBound) (hadm : edit.Admissible T w v) (hsafe : edit.HashSafe T w v)
    (hkeep : edit.KeepsBound T w v) :
    (edit.perform T v).Ends w (fun _ w' => (w'.obj v).WithinBound) fun _ w' => (w'.obj v).WithinBound := by
  have hsize := h.holds.size_eq
  have hcount := h.count_lt
  cases edit with
  | insert value =>
    refine ((ends_emplace_grown h hv hadm.1 hadm.2).mono (fun _ _ hq => hq) fun _ _ he => ?_).bind fun _ _ hr => ends_pure ?_
    · exact hb.grown hT hkeep hcount he
    · exact hb.grown hT hkeep hcount hr
  | insertRange values => exact ends_insertRange_bound hT h hv hadm.1 hadm.2 hb hkeep
  | tryEmplace key mapped =>
    refine ((ends_insertNode_grown h hv hadm.1 hadm.2).mono (fun _ _ hq => hq) fun _ _ he => ?_).bind fun _ _ hr => ends_pure ?_
    · exact hb.grown hT hkeep hcount he
    · exact hb.grown hT hkeep hcount hr
  | subscript key =>
    have hsub : (SharedMemoryHashTable.subscript T v key).Ends w (fun _ w' => Grown T (w.obj v) (w'.obj v))
        fun _ w' => Grown T (w.obj v) (w'.obj v) := (ends_insertNode_grown h hv hadm.1 hadm.2).bind fun _ _ hr => ends_pure hr
    refine (hsub.mono (fun _ _ hq => hq) fun _ _ he => ?_).bind fun _ _ hr => ends_pure ?_
    · exact hb.grown hT hkeep hcount he
    · exact hb.grown hT hkeep hcount hr
  | insertOrAssign key mapped =>
    refine ((ends_insertOrAssign_grown h hv hadm.1 hadm.2).mono (fun _ _ hq => hq) fun _ _ he => ?_).bind fun _ _ hr => ends_pure ?_
    · exact hb.grown hT hkeep hcount he
    · exact hb.grown hT hkeep hcount hr
  | eraseKey key =>
    refine ((ends_eraseKey h hv hsafe).mono (fun _ _ hq => hq) fun _ w' he => ?_).bind fun _ t ht => ends_pure ?_
    · obtain ⟨-, hcap, hown⟩ := he
      exact hb.mono hcap (by rw [hown.holds.size_eq, hsize])
    · obtain ⟨hcap, hcase⟩ := ht
      refine hb.mono hcap ?_
      rcases hcase with ⟨-, -, hown⟩ | ⟨-, xs, p, e, ys, rfl, -, hown⟩ <;> rw [hown.holds.size_eq, hsize]
      simp
  | erase i =>
    change i ≤ (w.obj v).size at hadm
    rw [hsize] at hadm
    obtain ⟨xs, ys, rfl, rfl⟩ : ∃ xs ys : Items K V, items = xs ++ ys ∧ i = xs.length :=
      ⟨items.take i, items.drop i, (List.take_append_drop i items).symm, (List.length_take_of_le hadm).symm⟩
    refine (ends_iteratorAt h.holds.toNodesHold).bind fun r t ht => ?_
    obtain ⟨rfl, rfl⟩ := ht
    cases ys with
    | nil => exact ends_pure hb
    | cons y ys =>
      obtain ⟨p, e⟩ := y
      have hlt : xs.length < (t.obj v).size := by
        rw [hsize, List.length_append, List.length_cons]
        omega
      refine (ends_erase h hv (hsafe hlt)).bind fun _ u hu => ends_pure (hb.mono hu.2.2.2 ?_)
      rw [hu.2.1.holds.size_eq, hsize]
      simp
  | eraseRange i j =>
    refine (TableEdit.ends_eraseRangeAt h hv hadm hsafe).mono (fun _ w' hr => ?_) fun _ _ he => he
    obtain ⟨cached', hown, hcap⟩ := hr
    refine hb.mono hcap ?_
    obtain ⟨hij, -⟩ := hadm
    rw [hown.holds.size_eq, hsize, List.length_append, List.length_take, List.length_drop]
    omega
  | clear =>
    refine (ends_clear h.ownsNodes hv).mono (fun _ w' hr => ?_) fun _ _ he => he
    rw [hr.2.1]
    exact hb.mono ⟨rfl, rfl⟩ (Nat.zero_le _)
  | shrinkToFit =>
    refine (ends_shrinkTable h hv).mono (fun _ w' hr => ?_) fun _ _ he => he
    rw [hr.2.1]
    exact hb
  | rehash requested => exact ends_rehash_bound hT h hv hadm hb
  | reserve count =>
    refine (ends_reserve h hv hadm).mono (fun _ w' hr => ?_) fun _ w' he => he.2.bound hb
    obtain ⟨-, p, hobj⟩ := hr
    rw [hobj]
    refine ⟨hb.factor_pos, ?_⟩
    dsimp only
    split
    · exact size_le_rehashTarget hT hb.factor_pos _
    · exact hb.size_le
  | maxLoadFactor value => exact ends_setMaxLoadFactor_bound hT h hv hb hadm hkeep

/-- The calls that the bound is about. -/
def TableCall.Bounded (T : TableType K V ℚ) (w : TableWorld K V ℚ) (call : TableCall K V ℚ) : Prop :=
  call.Careful T w ∧ match call with
    | .construct _ _ | .destruct _ => True
    | .edit v c => c.KeepsBound T w v
    | _ => False

/-- The tables of a state keep the bound. -/
def AllWithinBound (w : TableWorld K V ℚ) : Prop := ∀ v ∈ w.names, (w.obj v).WithinBound

theorem TablesHold.ends_bound (hT : T.factors = exactFactors) (h : TablesHold T w own others) (hb : AllWithinBound w)
    (call : TableCall K V ℚ) (hcall : call.Bounded T w) :
    (call.perform T).Ends w (fun _ w' => AllWithinBound w') fun _ w' => AllWithinBound w' := by
  obtain ⟨⟨hadm, hsafe⟩, hkind⟩ := hcall
  have hfocus := SideBySide.focus_none h
  cases call with
  | construct v count =>
    have hother : ∀ x ∈ w.names, x ∉ [v] := fun x hx heq => hadm.1 (List.mem_singleton.mp heq ▸ hx)
    refine (ends_construct (hfocus [v]) (List.mem_singleton_self v) hadm.2).mono (fun _ w' hr => ?_) fun _ w' he => ?_
    · obtain ⟨u, hown, hfactor, rfl⟩ := hr
      intro x hx
      rcases List.mem_cons.mp hx with rfl | hx
      · refine ⟨?_, ?_⟩
        · change 0 < (u.obj x).maxLoadFactor
          rw [hfactor, hT]
          exact zero_lt_one
        · change ((u.obj x).size : ℚ) ≤ (u.obj x).maxLoadFactor*(u.obj x).bucketCount
          rw [hown.holds.size_eq, hfactor, hT, List.length_nil, Nat.cast_zero]
          exact mul_nonneg zero_le_one (Nat.cast_nonneg _)
      · change (u.obj x).WithinBound
        rw [hown.own.names_same] at hx
        rw [hown.own.objs_same x (hother x hx)]
        exact hb x hx
    · intro x hx
      rw [he.2.names_same] at hx
      rw [he.2.objs_same x (hother x hx)]
      exact hb x hx
  | destruct v =>
    refine (ends_destruct (h.table hadm [v]) (List.mem_singleton_self v)).mono (fun _ w' hr => ?_) fun _ _ he => he
    obtain ⟨u, hown, rfl⟩ := hr
    intro x hx
    change x ∈ u.names.erase v at hx
    rw [hown.names_same] at hx
    change (u.obj x).WithinBound
    obtain ⟨hne, hmem⟩ := (h.nodup.mem_erase_iff).mp hx
    rw [hown.objs_same x fun heq => hne (List.mem_singleton.mp heq)]
    exact hb x hmem
  | edit v c =>
    obtain ⟨hv, hadm⟩ := hadm
    have htable := h.table hv [v]
    have hvs := List.mem_singleton_self v
    have hboth := (c.ends_perform htable hvs hadm hsafe).and (c.ends_bound hT htable hvs (hb v hv) hadm hsafe hkind)
    -- the bound of one table depends on that table alone
    have hall : ∀ {R : List (K × V) → List (K × V) → Prop} {w'},
        TableEdit.Leaves T [v] w (w.heap.beside (T.owned (w.obj v) (own v).1 (own v).2)) [] v (own v).1 R w' →
        (w'.obj v).WithinBound → AllWithinBound w' := by
      intro R w' hleaves hbound x hx
      obtain ⟨_, _, _, hown, -⟩ := hleaves
      rw [hown.own.names_same] at hx
      by_cases heq : x = v
      · rw [heq]
        exact hbound
      · rw [hown.own.objs_same x fun hmem => heq (List.mem_singleton.mp hmem)]
        exact hb x hx
    exact hboth.mono (fun _ _ hr => hall hr.1 hr.2) fun _ _ he => hall he.1 he.2
  | rangeConstruct | copyConstruct | moveConstruct | swap | copyAssign | moveAssign => exact hkind.elim

/-- In every run whose insertions into empty tables fit the bound, and whose changes of the bound get their array, every table
keeps the bound. -/
theorem load_factor_bounded (hT : T.factors = exactFactors) (h : TableRun T (fun w call => call.Bounded T w) w) : AllWithinBound w := by
  have hhold : ∀ {w : TableWorld K V ℚ}, TableRun T (fun w call => call.Bounded T w) w → ∃ own others, TablesHold T w own others :=
    fun h => h.hold fun _ _ hcall => hcall.1
  induction h with
  | start hg =>
    intro v hv
    cases hv
  | returns call h hcall hrun ih =>
    obtain ⟨own, others, hw⟩ := hhold h
    have hends := hw.ends_bound hT ih call hcall
    unfold Ends at hends
    rw [hrun] at hends
    exact hends
  | throws call h hcall hrun ih =>
    obtain ⟨own, others, hw⟩ := hhold h
    have hends := hw.ends_bound hT ih call hcall
    unfold Ends at hends
    rw [hrun] at hends
    exact hends
  | looksUp v key h hv ih =>
    obtain ⟨own, others, hw⟩ := hhold h
    obtain ⟨k, hk⟩ := hw.run_lookup hv key
    rw [hk]
    exact ih
  | elsewhere call h hadm hforeign hexec ih => exact ih

theorem load_factor_bounded_collidingPair : AllWithinBound collidingPair := by
  have hsafe := TableCall.hashSafe_of_nothrow (T := calmTable) fun _ => rfl
  have h₀ : TableRun calmTable (fun w call => call.Bounded calmTable w) tableWorld := .start smallHeap_reachable
  have h₁ := h₀.perform (.construct 0 8) ⟨⟨⟨by decide, by decide +kernel⟩, hsafe _ _⟩, trivial⟩ (by decide +kernel)
  have h₂ := h₁.perform (.edit 0 (.tryEmplace 5 50))
    ⟨⟨⟨by decide +kernel, by decide +kernel, by decide +kernel⟩, hsafe _ _⟩, (by unfold TableEdit.KeepsBound; decide +kernel)⟩ (by decide +kernel)
  exact load_factor_bounded rfl (h₂.perform (.edit 0 (.tryEmplace 13 130))
    ⟨⟨⟨by decide +kernel, by decide +kernel, by decide +kernel⟩, hsafe _ _⟩, (by unfold TableEdit.KeepsBound; decide +kernel)⟩ (by decide +kernel))

/-- A table with a bound of a hundredth, and its first element. -/
def sparse : TableWorld ℕ ℕ ℚ :=
  afterTableCalls calmTable [.construct 0 8, .edit 0 (.maxLoadFactor (1/100)), .edit 0 (.tryEmplace 5 50)] tableWorld

/-- The growth for the first element takes its minimum from the size before, which is none. -/
theorem first_insertion_exceeds : TableRun calmTable (fun w call => call.Careful calmTable w) sparse ∧ 0 ∈ sparse.names ∧
    ((sparse.obj 0).size, (sparse.obj 0).bucketCount, (sparse.obj 0).maxLoadFactor) = (1, 16, 1/100) ∧
    ¬((sparse.obj 0).size : ℚ) ≤ (sparse.obj 0).maxLoadFactor*(sparse.obj 0).bucketCount := by
  have hsafe := TableCall.hashSafe_of_nothrow (T := calmTable) fun _ => rfl
  have h₀ : TableRun calmTable (fun w call => call.Careful calmTable w) tableWorld := .start smallHeap_reachable
  have h₁ := h₀.perform (.construct 0 8) ⟨⟨by decide, by decide +kernel⟩, hsafe _ _⟩ (by decide +kernel)
  have h₂ := h₁.perform (.edit 0 (.maxLoadFactor (1/100))) ⟨⟨by decide +kernel, fun hover => absurd hover (by decide +kernel)⟩, hsafe _ _⟩ (by decide +kernel)
  refine ⟨h₂.perform (.edit 0 (.tryEmplace 5 50)) ⟨⟨by decide +kernel, by decide +kernel, by decide +kernel⟩, hsafe _ _⟩
    (by decide +kernel), by decide +kernel, by decide +kernel, by decide +kernel⟩

end ShmNext
