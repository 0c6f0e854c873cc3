import ShmNext.HashTableEdits

/-! Constructors, destructor, copies, moves and `swap` of the hash table. -/
namespace ShmNext
open Prog NodeOp SharedMemoryHashTable HashLink

variable {K V F α : Type} {T : TableType K V F} {w w' w₀ u : TableWorld K V F} {vs cached src : List ℕ} {kept : List LiveAlloc}
  {mine rest : List (ℕ × ℕ)} {items xs ys : Items K V} {v other p n i : ℕ} {e x : K × V} {key : K} {values : List (K × V)} {f : F}
  {Q : α → TableWorld K V F → Prop} {E : NodeThrown → TableWorld K V F → Prop}

/-- `KeyEqual` is an equivalence, and the hash respects it. -/
structure TableType.KeysRespected (T : TableType K V F) : Prop where
  equivalence : Equivalence fun a b => T.keyEqual a b = true
  hash_eq : ∀ a b, T.keyEqual a b = true → T.hash a = T.hash b

/-- A value is added where no element has its key. -/
def TableType.added (T : TableType K V F) (A : List (K × V)) (key : K) (e : K × V) : List (K × V) :=
  if A.any fun x => T.keyEqual x.1 key then A else A ++ [e]

/-- Then a key is found wherever it is in the table. -/
theorem TableType.lookup_of_respected (hT : T.KeysRespected) (h0 : 0 ∉ items.nodes) : T.lookup n items key = 0 ↔
    ∀ x ∈ items, T.keyEqual x.2.1 key = false := by
  rw [TableType.lookup_eq_zero_iff h0]
  constructor
  · intro h x hx
    by_contra hkey
    rw [Bool.not_eq_false] at hkey
    have hidx : T.index n x.2 = T.hash key%n := by
      unfold TableType.index
      rw [hT.hash_eq _ _ hkey]
    rw [h x hx hidx] at hkey
    cases hkey
  · exact fun h x hx _ => h x hx

theorem TableType.added_of_absent (h : ∀ x ∈ items, T.keyEqual x.2.1 key = false) :
    T.added (items.map Prod.snd) key e = items.map Prod.snd ++ [e] := by
  unfold TableType.added
  refine if_neg ?_
  rw [Bool.not_eq_true, List.any_map, List.any_eq_false]
  intro x hx
  rw [Function.comp_apply, h x hx]
  exact Bool.false_ne_true

theorem TableType.added_of_present (h : ∃ x ∈ items, T.keyEqual x.2.1 key = true) :
    T.added (items.map Prod.snd) key e = items.map Prod.snd := by
  unfold TableType.added
  refine if_pos ?_
  obtain ⟨x, hx, hkey⟩ := h
  rw [List.any_map, List.any_eq_true]
  exact ⟨x, hx, hkey⟩

/-! A range of insertions. -/

theorem OwnsTable.setCalls (h : OwnsTable T vs w₀ kept rest v items cached w) (k : ℕ) :
    OwnsTable T vs w₀ kept rest v items cached { w with calls := k } :=
  ⟨h.own.setCalls k, h.holds.congr rfl rfl (fun _ _ => rfl) fun _ => rfl⟩

/-- What `emplace` of a value asks for fits; the value has been constructed before. -/
def EmplacementFits (T : TableType K V F) (w : TableWorld K V F) (v : ℕ) (key : K) : Prop :=
  InsertionFits T { w with calls := w.calls+1 } v key

instance (w : TableWorld K V F) (v : ℕ) (key : K) : Decidable (EmplacementFits T w v key) :=
  inferInstanceAs (Decidable (InsertionFits T _ v key))

/-- One element more, or the key was there already. -/
def Inserted (T : TableType K V F) (items items' : Items K V) (key : K) (e : K × V) : Prop :=
  (∃ p, items' = items ++ [(p, e)]) ∧ (T.KeysRespected → items'.map Prod.snd = T.added (items.map Prod.snd) key e) ∨
    items' = items ∧ items ≠ [] ∧ (T.KeysRespected → T.added (items.map Prod.snd) key e = items.map Prod.snd)

theorem ends_emplace (h : OwnsTable T vs w₀ kept rest v items cached w) (hv : v ∈ vs)
    (hroom : AddressRoom w₀.heap T.sizeofNode T.alignofNode) (hins : EmplacementFits T w v e.1) :
    (emplace T v e).Ends w
      (fun _ w' => ∃ items' cached', OwnsTable T vs w₀ kept rest v items' cached' w' ∧ Inserted T items items' e.1 e ∧
        (cached' = cached ∨ cached' = cached.tail))
      fun e' w' => InsertFailed T vs w₀ kept rest v items cached e.1 { w with calls := w.calls+1 } e' w' := by
  unfold emplace
  have hcalls := h.setCalls (w.calls+1)
  have hvalue := (ends_elementCall (T := T.toNodeType) (w := w)).mono (fun _ _ hq => hq)
    (F := fun e' w' => InsertFailed T vs w₀ kept rest v items cached e.1 { w with calls := w.calls+1 } e' w') fun e' w' he' => by
      obtain ⟨rfl, rfl, -⟩ := he'
      exact Or.inl ⟨[], cached, hcalls, fun _ => ⟨rfl, rfl⟩, rfl, Or.inl rfl⟩
  refine hvalue.bind fun _ t ht => ?_
  obtain ⟨rfl, -⟩ := ht
  refine (ends_insertNode hcalls hv hroom hins).mono (fun r w' hr => ?_) fun _ _ he => he
  have h0 := h.holds.iterates.not_null
  rcases hr with ⟨hfound, -, rfl⟩ | ⟨habsent, -, -, hown, -⟩
  · obtain ⟨y, hy, hkey⟩ := TableType.lookup_ne_zero hfound
    refine ⟨items, cached, hcalls.setHashes _, Or.inr ⟨rfl, List.ne_nil_of_mem hy, fun _ => ?_⟩, Or.inl rfl⟩
    exact TableType.added_of_present ⟨_, hy, hkey⟩
  · refine ⟨_, _, hown, Or.inl ⟨⟨_, rfl⟩, fun hT => ?_⟩, Or.inr rfl⟩
    rw [TableType.added_of_absent ((TableType.lookup_of_respected hT h0).mp habsent), List.map_append]
    rfl

/-- What the insertions of a range ask for fits, one after the other. -/
def InsertionsFit (T : TableType K V F) (v : ℕ) : List (K × V) → TableWorld K V F → Prop
  | [], _ => True
  | e :: values, w => EmplacementFits T w v e.1 ∧
    match (emplace T v e).run w with
    | (.ok _, w') => InsertionsFit T v values w'
    | _ => True

instance decidableInsertionsFit (T : TableType K V F) (v : ℕ) : (values : List (K × V)) → (w : TableWorld K V F) →
    Decidable (InsertionsFit T v values w)
  | [], _ => isTrue trivial
  | e :: values, w =>
    have : Decidable (match (emplace T v e).run w with
      | (.ok _, w') => InsertionsFit T v values w'
      | _ => True) :=
      match (emplace T v e).run w with
      | (.ok _, w') => decidableInsertionsFit T v values w'
      | (.error _, _) => isTrue trivial
      | (.hang, _) => isTrue trivial
    inferInstanceAs (Decidable (_ ∧ _))

/-- An insertion of the range has thrown after those of `done`. -/
structure RangeFailed (T : TableType K V F) (vs : List ℕ) (w₀ : TableWorld K V F) (kept : List LiveAlloc) (rest : List (ℕ × ℕ)) (v : ℕ)
    (items : Items K V) (cached : List ℕ) (done : List (K × V)) (e : NodeThrown) (w' : TableWorld K V F) : Prop where
  nodes : ∃ items' cached' lost, OwnsNodes T vs w₀ kept (lost ++ rest) v items' cached' w' ∧ (e ≠ .hash → lost = []) ∧
    (done = [] → items' = items ∧ (e ≠ .hash → cached' = cached)) ∧ (done ≠ [] → items' ≠ [])

theorem InsertFailed.ownsNodes {e' : NodeThrown} (h : InsertFailed T vs w₀ kept rest v items cached key w e' w') :
    ∃ cached' lost, OwnsNodes T vs w₀ kept (lost ++ rest) v items cached' w' ∧ (e' ≠ .hash → lost = [] ∧ cached' = cached) := by
  rcases h with ⟨lost, cached', hown, hlost, -⟩ | ⟨rfl, -, -, -, hfailed⟩
  · exact ⟨cached', lost, hown.ownsNodes, hlost⟩
  · exact ⟨cached, [], hfailed.nodes, fun hne => absurd rfl hne⟩

theorem Inserted.ne_nil {items' : Items K V} (h : Inserted T items items' key e) : items' ≠ [] := by
  rcases h with ⟨⟨p, rfl⟩, -⟩ | ⟨rfl, hne, -⟩
  · simp
  · exact hne

theorem Inserted.added_eq {items' : Items K V} (h : Inserted T items items' key e) (hT : T.KeysRespected) :
    items'.map Prod.snd = T.added (items.map Prod.snd) key e := by
  rcases h with ⟨-, h⟩ | ⟨rfl, -, h⟩
  · exact h hT
  · exact (h hT).symm

/-- A range of insertions: all of them, or those before one that has thrown. -/
theorem ends_insertRange (h : OwnsTable T vs w₀ kept rest v items cached w) (hv : v ∈ vs)
    (hroom : AddressRoom w₀.heap T.sizeofNode T.alignofNode) (hins : InsertionsFit T v values w) :
    (insertRange T v values).Ends w
      (fun _ w' => ∃ items' cached', OwnsTable T vs w₀ kept rest v items' cached' w' ∧ (values ≠ [] → items' ≠ []) ∧
        (items ≠ [] → items' ≠ []) ∧
        (T.KeysRespected → items'.map Prod.snd = values.foldl (fun A e => T.added A e.1 e) (items.map Prod.snd)))
      fun e' w' => ∃ done x more u, values = done ++ x :: more ∧ (insertRange T v done).run w = (.ok (), u) ∧
        (emplace T v x).run u = (.error e', w') ∧ RangeFailed T vs w₀ kept rest v items cached done e' w' := by
  induction values generalizing w items cached with
  | nil => exact ends_pure ⟨items, cached, h, fun hne => absurd rfl hne, id, fun _ => rfl⟩
  | cons e values ih =>
    obtain ⟨hfit, hlater⟩ := hins
    have hround := ends_emplace h hv hroom hfit
    rcases hround.cases with ⟨r, t, hr, items', cached', hown, hinserted, -⟩ | ⟨e', t, hr, hfailed⟩
    · rw [hr] at hlater
      have hrest := ih hown hlater
      have hstep : (insertRange T v (e :: values)).run w = (insertRange T v values).run t := run_bind_ok hr _
      have hne := hinserted.ne_nil
      have hmap := hinserted.added_eq
      rcases hrest.cases with ⟨_, s, hs, items'', cached'', hown', hsome, hkeep, hall⟩ | ⟨e', s, hs, done, x, more, u, rfl, hd, hx, hf⟩
      · refine ends_of_ok (hstep.trans hs) ⟨items'', cached'', hown', fun _ => hkeep hne, fun _ => hkeep hne, fun hT => ?_⟩
        rw [hall hT, hmap hT]
        rfl
      · refine ends_of_error (hstep.trans hs) ⟨e :: done, x, more, u, rfl, ?_, hx, ?_⟩
        · exact (run_bind_ok hr _).trans hd
        · obtain ⟨items'', cached'', lost, hnodes, hlost, hnone, hsome⟩ := hf.nodes
          refine ⟨items'', cached'', lost, hnodes, hlost, fun hnil => absurd hnil (List.cons_ne_nil _ _), fun _ => ?_⟩
          by_cases hdone : done = []
          · rw [(hnone hdone).1]
            exact hne
          · exact hsome hdone
    · refine ends_of_error (run_bind_error hr _) ⟨[], e, values, w, rfl, rfl, hr, ?_⟩
      obtain ⟨cached', lost, hnodes, hlost⟩ := hfailed.ownsNodes
      exact ⟨items, cached', lost, hnodes, fun hne => (hlost hne).1, fun _ => ⟨rfl, fun hne => (hlost hne).2⟩,
        fun hne => absurd rfl hne⟩

/-! The member initializers and the first bucket array. -/

theorem ends_initMembers (h : Owning T.toNodeType vs w₀ kept w rest) (hv : v ∈ vs) :
    (initMembers v f : TableOp K V F Unit).Ends w
      (fun _ w' => OwnsTable T vs w₀ kept rest v [] [] w' ∧ w'.obj v = ⟨0, 0, 0, f, 0, 0⟩ ∧ w'.hashes = w.hashes) E := by
  unfold initMembers
  refine ends_store_bind (ends_store ?_)
  have hown := (h.setPool hv .empty).setObj hv ⟨0, 0, 0, f, 0, 0⟩
  have hobj : ({ w with pool := Function.update w.pool v .empty, obj := Function.update w.obj v ⟨0, 0, 0, f, 0, 0⟩ } : TableWorld K V F).obj v =
    ⟨0, 0, 0, f, 0, 0⟩ := Function.update_self ..
  have hpool : ({ w with pool := Function.update w.pool v .empty, obj := Function.update w.obj v ⟨0, 0, 0, f, 0, 0⟩ } :
    TableWorld K V F).pool v = .empty := Function.update_self ..
  refine ⟨⟨?_, ⟨⟨?_, ?_, ⟨?_, ?_⟩, ?_, ?_⟩, ?_⟩⟩, hobj, rfl⟩
  · rw [hobj]
    exact hown
  · rw [hobj]
    exact ⟨by simp, List.nodup_nil, by simp, .nil, rfl, rfl⟩
  · rw [hobj]
    rfl
  · rw [hpool]
    rfl
  · rw [hpool]
    rfl
  · rw [hobj]
    exact fun hne => absurd rfl hne
  · rw [hobj]
    exact fun _ => ⟨rfl, rfl⟩
  · rw [hobj]
    exact fun hne => absurd rfl hne

theorem ends_initializeBuckets (h : OwnsTable T vs w₀ kept rest v [] [] w) (hv : v ∈ vs) (hb : (w.obj v).buckets = 0)
    (hroom : BucketRoom w₀.heap (normalizeBucketCount n)) :
    (initializeBuckets T v n).Ends w
      (fun _ w' => OwnsTable T vs w₀ kept rest v [] [] w' ∧ w'.hashes = w.hashes ∧
        ∃ p, w'.obj v = { w.obj v with buckets := p, bucketCount := normalizeBucketCount n })
      fun e' w' => (∃ e'', e' = .allocator e'') ∧ Owning T.toNodeType vs w₀ kept w' rest := by
  obtain ⟨hown, hholds⟩ := h
  rw [T.owned_of_null hb] at hown
  have hpos := normalizeBucketCount_pos n
  unfold initializeBuckets
  -- `bucket_count_` is stored before the array is there
  refine ends_store_bind ?_
  have hset : Owning T.toNodeType vs w₀ kept _ rest := hown.setObj hv { w.obj v with bucketCount := normalizeBucketCount n }
  refine ((ends_allocateBuckets hset hpos hroom).mono (fun _ _ hq => hq) fun e' w' he' => ⟨he'.1, he'.2.2⟩).bind fun p t ht => ?_
  obtain ⟨hp0, -, honly, hownt⟩ := ht
  obtain ⟨hobj, hpool, hcell, hhash⟩ := Owning.onlyHeap_obj honly
  refine ends_store_bind ?_
  have hmem : (p, normalizeBucketCount n*8) ∈ (p, normalizeBucketCount n*8) :: rest := List.mem_cons_self
  have hset' := hownt.setObj hv { t.obj v with buckets := p }
  refine ends_initializeBucketArray hset' hmem ?_
  -- every slot is null, so that every chain is empty
  have hfinal := hset'.setArray hmem (List.length_replicate (n := normalizeBucketCount n) (a := 0))
  have hobjv : (({ t with obj := Function.update t.obj v { t.obj v with buckets := p } } : TableWorld K V F).setArray p
      (List.replicate (normalizeBucketCount n) 0)).obj v = { w.obj v with buckets := p, bucketCount := normalizeBucketCount n } := by
    refine (Function.update_self ..).trans ?_
    rw [hobj]
    dsimp only
    rw [Function.update_self]
  have harray : (({ t with obj := Function.update t.obj v { t.obj v with buckets := p } } : TableWorld K V F).setArray p
      (List.replicate (normalizeBucketCount n) 0)).cell p = some (.links (List.replicate (normalizeBucketCount n) 0)) :=
    Function.update_self ..
  refine ⟨⟨?_, ⟨⟨?_, ?_, ?_, ?_, ?_⟩, ?_⟩⟩, hhash, p, hobjv⟩ <;> try rw [hobjv]
  · unfold TableType.owned
    rw [array_of_ne (show ({ w.obj v with buckets := p, bucketCount := normalizeBucketCount n } : SharedMemoryHashTable F).buckets ≠ 0
      from hp0)]
    exact hfinal
  · exact ⟨by simp, List.nodup_nil, by simp, .nil, hholds.iterates.head_eq, hholds.iterates.tail_eq⟩
  · exact hholds.size_eq
  · refine hholds.caches.congr ?_ (by simp)
    change t.pool v = w.pool v
    rw [hpool]
  · exact fun _ => ⟨hpos, _, harray, List.length_replicate ..⟩
  · exact fun h0 => absurd h0 hp0
  · exact fun _ => .nil harray

/-! Giving everything back. -/

theorem ends_shrinkTable (h : OwnsTable T vs w₀ kept rest v items cached w) (hv : v ∈ vs) :
    (NodePool.shrinkToFit T.toNodeType v : TableOp K V F Unit).Ends w
      (fun _ w' => OwnsTable T vs w₀ kept rest v items [] w' ∧ w'.obj = w.obj ∧ w'.hashes = w.hashes) E := by
  obtain ⟨hown, hholds⟩ := h
  have hpool := hown.perm (T.owned_perm (w.obj v) items cached rest)
  refine (NodePool.ends_shrinkToFit hpool hv hholds.caches).mono (fun _ w' hw' => ?_) fun _ _ he => he
  obtain ⟨hown', hcache, hstep, hcells, -⟩ := hw'
  refine ⟨⟨?_, ?_⟩, hstep.obj_eq, hstep.hashes_eq⟩
  · rw [hstep.obj_eq]
    unfold TableType.owned
    rwa [List.append_nil]
  · refine hholds.transfer (by rw [hstep.obj_eq]) hcache (fun q hq => hcells q fun hm => ?_) fun hb => hcells _ fun hm => ?_
    · exact hholds.toNodesHold.cached_apart hm hq
    · exact hown.array_apart hb (List.mem_append_right _ hm)

/-- `clear`, `shrink_to_fit` and `release_buckets`: the table owns nothing any more. -/
theorem ends_dismantle_bind {k : Unit → TableOp K V F α} (h : OwnsNodes T vs w₀ kept rest v items cached w) (hv : v ∈ vs)
    (hk : ∀ w', OwnsTable T vs w₀ kept rest v [] [] w' → (w'.obj v).buckets = 0 → w'.hashes = w.hashes → (k ()).Ends w' Q E) :
    (clear v >>= fun _ => NodePool.shrinkToFit T.toNodeType v >>= fun _ => releaseBuckets T v >>= k).Ends w Q E := by
  refine (ends_clear h hv).bind fun _ t ht => ?_
  obtain ⟨hown, hobj, hhash⟩ := ht
  refine (ends_shrinkTable hown hv).bind fun _ u hu => ?_
  obtain ⟨hownu, hobju, hhashu⟩ := hu
  have harray : Owning T.toNodeType vs w₀ kept u ((u.obj v).arrayBlock ++ rest) := hownu.own
  refine (ends_releaseBuckets harray hv).bind fun _ s hs => ?_
  obtain ⟨howns, hobjs, hpools, hhashs, -⟩ := hs
  have hobjsv : s.obj v = { u.obj v with
      buckets := 0, bucketCount := if (u.obj v).buckets = 0 then (u.obj v).bucketCount else 0 } := by
    rw [hobjs, Function.update_self]
  have hcount : (if (u.obj v).buckets = 0 then (u.obj v).bucketCount else 0) = 0 := by
    by_cases hb : (u.obj v).buckets = 0
    · rw [if_pos hb]
      exact (hownu.holds.bare hb).1
    · rw [if_neg hb]
  rw [hcount] at hobjsv
  have hiter := hownu.holds.iterates
  refine hk s ⟨?_, ⟨⟨?_, ?_, ?_, ?_, ?_⟩, ?_⟩⟩ (by rw [hobjsv]) (hhashs.trans (hhashu.trans hhash))
  · rw [T.owned_of_null (by rw [hobjsv])]
    exact howns
  · rw [hobjsv]
    exact ⟨by simp, List.nodup_nil, by simp, .nil, hiter.head_eq, hiter.tail_eq⟩
  · rw [hobjsv]
    exact hownu.holds.size_eq
  · exact hownu.holds.caches.congr (by rw [hpools]) (by simp)
  · rw [hobjsv]
    exact fun hne => absurd rfl hne
  · rw [hobjsv]
    exact fun _ => ⟨rfl, rfl⟩
  · rw [hobjsv]
    exact fun hne => absurd rfl hne

theorem OwnsTable.none_left (h : OwnsTable T vs w₀ kept rest v [] [] w) (hb : (w.obj v).buckets = 0) :
    Owning T.toNodeType vs w₀ kept w rest := by
  have hown := h.own
  rwa [T.owned_of_null hb] at hown

theorem SharedMemoryHashTable.ends_destruct (h : OwnsTable T vs w₀ kept rest v items cached w) (hv : v ∈ vs) :
    (destruct T v).Ends w
      (fun _ w' => ∃ u, Owning T.toNodeType vs w₀ kept u rest ∧ w' = { u with names := u.names.erase v }) E := by
  unfold destruct
  refine ends_dismantle_bind h.ownsNodes hv fun u hu hb _ => ends_store ⟨u, hu.none_left hb, rfl⟩

/-! Constructors. -/

theorem ends_construct (h : Owning T.toNodeType vs w₀ kept w rest) (hv : v ∈ vs) (hroom : BucketRoom w₀.heap (normalizeBucketCount n)) :
    (construct T v n).Ends w
      (fun _ w' => ∃ u, OwnsTable T vs w₀ kept rest v [] [] u ∧ (u.obj v).maxLoadFactor = T.factors.initial ∧
        w' = { u with names := v :: u.names })
      fun e' w' => (∃ e'', e' = .allocator e'') ∧ Owning T.toNodeType vs w₀ kept w' rest := by
  unfold construct
  refine (ends_initMembers h hv).bind fun _ t ht => ?_
  obtain ⟨hown, hobj, -⟩ := ht
  refine (ends_initializeBuckets hown hv (by rw [hobj]) hroom).bind fun _ u hu => ends_store ⟨u, hu.1, ?_, rfl⟩
  obtain ⟨-, -, p, hobju⟩ := hu
  rw [hobju, hobj]

/-- The start of the constructors that insert elements. -/
def SharedMemoryHashTable.beginConstruction (T : TableType K V F) (v n : ℕ) (f : F) : TableOp K V F Unit := do
  initMembers v f
  initializeBuckets T v n

theorem ends_beginConstruction (h : Owning T.toNodeType vs w₀ kept w rest) (hv : v ∈ vs)
    (hroom : BucketRoom w₀.heap (normalizeBucketCount n)) :
    (beginConstruction T v n f).Ends w
      (fun _ w' => OwnsTable T vs w₀ kept rest v [] [] w' ∧ w'.hashes = w.hashes ∧ (w'.obj v).maxLoadFactor = f)
      fun e' w' => (∃ e'', e' = .allocator e'') ∧ Owning T.toNodeType vs w₀ kept w' rest := by
  unfold beginConstruction
  refine (ends_initMembers h hv).bind fun _ t ht => ?_
  obtain ⟨hown, hobj, hhash⟩ := ht
  refine (ends_initializeBuckets hown hv (by rw [hobj]) hroom).mono (fun _ u hu => ?_) fun _ _ he => he
  obtain ⟨hownu, hhashu, p, hobju⟩ := hu
  exact ⟨hownu, hhashu.trans hhash, by rw [hobju, hobj]⟩

theorem rangeConstruct_eq (v n : ℕ) (values : List (K × V)) : rangeConstruct T v n values = (do
    beginConstruction T v n T.factors.initial
    match ← (insertRange T v values).attempt with
    | .ok () => born v
    | .error e =>
      clear v
      NodePool.shrinkToFit T.toNodeType v
      releaseBuckets T v
      Prog.throw e) := rfl

/-- The insertions of a constructor fit, once the buckets have been set up. -/
def ConstructionFits (T : TableType K V F) (v n : ℕ) (f : F) (values : List (K × V)) (w : TableWorld K V F) : Prop :=
  BucketRoom w.heap (normalizeBucketCount n) ∧
    match (beginConstruction T v n f).run w with
    | (.ok _, w') => InsertionsFit T v values w'
    | _ => True

/-- How many insertions of a range return before one throws. -/
def SharedMemoryHashTable.insertedBefore (T : TableType K V F) (v : ℕ) : List (K × V) → TableWorld K V F → ℕ
  | [], _ => 0
  | x :: values, w =>
    match (emplace T v x).run w with
    | (.ok _, w') => insertedBefore T v values w'+1
    | _ => 0

theorem insertedBefore_eq {done more : List (K × V)} {e : NodeThrown} {t s : TableWorld K V F}
    (hdone : (insertRange T v done).run t = (.ok (), u)) (hx : (emplace T v x).run u = (.error e, s)) :
    insertedBefore T v (done ++ x :: more) t = done.length := by
  induction done generalizing t with
  | nil =>
    cases hdone
    change (match (emplace T v x).run u with
      | (.ok _, w') => insertedBefore T v more w'+1
      | _ => 0) = 0
    rw [hx]
  | cons y done ih =>
    have hstep : (insertRange T v (y :: done)).run t = (emplace T v y >>= fun _ => insertRange T v done).run t := rfl
    rw [hstep, run_bind] at hdone
    change (match (emplace T v y).run t with
      | (.ok _, w') => insertedBefore T v (done ++ x :: more) w'+1
      | _ => 0) = done.length+1
    rcases hr : (emplace T v y).run t with ⟨a | _ | _, t'⟩ <;> rw [hr] at hdone
    · dsimp only
      rw [ih hdone]
    · cases hdone
    · cases hdone

/-- What the start of a construction or one of its insertions throws, and the index of that insertion. -/
def SharedMemoryHashTable.constructionFailure (T : TableType K V F) (v n : ℕ) (f : F) (values : List (K × V)) (w : TableWorld K V F) :
    Option (NodeThrown × Option ℕ) :=
  match (beginConstruction T v n f).run w with
  | (.error e, _) => some (e, none)
  | (.ok _, t) =>
    match (insertRange T v values).run t with
    | (.error e, _) => some (e, some (insertedBefore T v values t))
    | _ => none
  | _ => none

theorem constructionFailure_of_begin {e : NodeThrown} {t : TableWorld K V F} (h : (beginConstruction T v n f).run w = (.error e, t)) :
    constructionFailure T v n f values w = some (e, none) := by
  unfold constructionFailure
  rw [h]

theorem constructionFailure_of_ok {t s : TableWorld K V F} (h : (beginConstruction T v n f).run w = (.ok (), t))
    (hs : (insertRange T v values).run t = (.ok (), s)) : constructionFailure T v n f values w = none := by
  unfold constructionFailure
  rw [h]
  dsimp only
  rw [hs]

theorem constructionFailure_of_insert {e : NodeThrown} {t s : TableWorld K V F} (h : (beginConstruction T v n f).run w = (.ok (), t))
    (hs : (insertRange T v values).run t = (.error e, s)) :
    constructionFailure T v n f values w = some (e, some (insertedBefore T v values t)) := by
  unfold constructionFailure
  rw [h]
  dsimp only
  rw [hs]

instance (v n : ℕ) (f : F) (values : List (K × V)) (w : TableWorld K V F) : Decidable (ConstructionFits T v n f values w) :=
  have : Decidable (match (beginConstruction T v n f).run w with
    | (.ok _, w') => InsertionsFit T v values w'
    | _ => True) :=
    match (beginConstruction T v n f).run w with
    | (.ok _, w') => decidableInsertionsFit T v values w'
    | (.error _, _) => isTrue trivial
    | (.hang, _) => isTrue trivial
  inferInstanceAs (Decidable (_ ∧ _))

/-- Where a range constructor has thrown everything has been given back, but for what a throwing hash has lost. -/
theorem ends_rangeConstruct (h : Owning T.toNodeType vs w₀ kept w rest) (hv : v ∈ vs)
    (hroom : AddressRoom w₀.heap T.sizeofNode T.alignofNode) (hfit : ConstructionFits T v n T.factors.initial values w) :
    (rangeConstruct T v n values).Ends w
      (fun _ w' => ∃ u items cached, OwnsTable T vs w₀ kept rest v items cached u ∧ w' = { u with names := v :: u.names } ∧
        (T.KeysRespected → items.map Prod.snd = values.foldl (fun A e => T.added A e.1 e) []) ∧
        constructionFailure T v n T.factors.initial values w = none)
      fun e' w' => ∃ lost, Owning T.toNodeType vs w₀ kept w' (lost ++ rest) ∧ (e' ≠ .hash → lost = []) ∧
        ∃ point, constructionFailure T v n T.factors.initial values w = some (e', point) := by
  obtain ⟨hbuckets, hfit⟩ := hfit
  rw [rangeConstruct_eq]
  have hbegin := ends_beginConstruction (f := T.factors.initial) h hv (h.bucketRoom_iff.mp hbuckets)
  rcases hbegin.cases with ⟨_, t, hrun, hown, -, -⟩ | ⟨e', t, hrun, -, hown⟩
  swap
  · exact ends_of_error (run_bind_error hrun _) ⟨[], hown, fun _ => rfl, _, constructionFailure_of_begin hrun⟩
  rw [hrun] at hfit
  unfold Ends
  rw [run_bind_ok hrun]
  rcases (ends_insertRange hown hv hroom hfit).cases with ⟨_, s, hs, items', cached', hown', -, -, hmap⟩ | ⟨e', s, hs, _, _, _, _, -, -, -, hf⟩
  · have hattempt : (insertRange T v values).attempt.run t = (.ok (.ok ()), s) := by rw [run_attempt, hs]
    rw [run_bind_ok hattempt]
    exact ⟨s, items', cached', hown', rfl, hmap, constructionFailure_of_ok hrun hs⟩
  · have hattempt : (insertRange T v values).attempt.run t = (.ok (.error e'), s) := by rw [run_attempt, hs]
    rw [run_bind_ok hattempt]
    obtain ⟨items', cached', lost, hnodes, hlost, -⟩ := hf.nodes
    exact ends_dismantle_bind hnodes hv fun u hu hb _ =>
      ends_throw ⟨lost, hu.none_left hb, hlost, _, constructionFailure_of_insert hrun hs⟩

/-! The copy constructor. -/

/-- The nodes of the other table are left alone while the copy is made. -/
structure Source (w₀ : TableWorld K V F) (kept : List LiveAlloc) (xs : Items K V) : Prop where
  elems : ∀ x ∈ xs, w₀.elem? x.1 = some x.2
  not_null : 0 ∉ xs.nodes
  linked : ForwardLinked (w₀.link iterNext) 0 xs.nodes
  held : ∀ q ∈ xs.nodes, ∃ a ∈ kept, a.payload = q

/-- The loop over the nodes of the other table inserts its elements as a range. -/
theorem run_insertNodes {fuel it : ℕ} (h : OwnsTable T vs w₀ kept rest v items cached w) (hv : v ∈ vs)
    (hroom : AddressRoom w₀.heap T.sizeofNode T.alignofNode) (hfit : InsertionsFit T v (xs.map Prod.snd) w) (hsrc : Source w₀ kept xs)
    (hit : it = xs.nodes.headD 0) (hfuel : xs.length ≤ fuel) :
    (insertNodes T v fuel it).run w = (insertRange T v (xs.map Prod.snd)).run w := by
  induction xs generalizing w items cached fuel it with
  | nil =>
    obtain rfl : it = 0 := hit
    unfold insertNodes
    rw [if_pos rfl]
    rfl
  | cons x xs ih =>
    obtain ⟨p, e⟩ := x
    obtain ⟨fuel, rfl⟩ : ∃ k, fuel = k+1 := ⟨fuel-1, by rw [List.length_cons] at hfuel; omega⟩
    obtain rfl : it = p := hit
    obtain ⟨helems, h0, hlinked, hheld⟩ := hsrc
    rw [Items.nodes_cons, List.mem_cons, not_or] at h0
    obtain ⟨a, ha, hpay⟩ := hheld it List.mem_cons_self
    -- the cell of the node in every world that the insertions go through
    have hcell : ∀ {r : TableWorld K V F} {mine : List (ℕ × ℕ)}, Owning T.toNodeType vs w₀ kept r mine → r.cell it = w₀.cell it := by
      intro r mine hr
      rw [← hpay]
      exact hr.cells_kept a ha
    have helem₀ : w₀.elem? it = some e := helems (it, e) List.mem_cons_self
    have helem : w.elem? it = some e := (NodeWorld.elem_congr (hcell h.own)).trans helem₀
    obtain ⟨hround, hlater⟩ := hfit
    have hread : (insertNodes T v (fuel+1) it).run w = (do
        let _ ← emplace T v e
        let next ← readLink it iterNext
        insertNodes T v fuel next : TableOp K V F Unit).run w := by
      conv_lhs => unfold insertNodes
      rw [if_neg (Ne.symm h0.1)]
      exact run_bind_ok (run_readElem helem) _
    rw [hread]
    have hemplace := ends_emplace h hv hroom hround
    rcases hemplace.cases with ⟨r, t, hr, items', cached', hown, -⟩ | ⟨e', t, hr, -⟩
    · rw [run_bind_ok hr, List.map_cons]
      have hright : (insertRange T v (e :: xs.map Prod.snd)).run w = (insertRange T v (xs.map Prod.snd)).run t := run_bind_ok hr _
      rw [hright]
      have hnode : t.IsNode it := NodeWorld.isNode_iff_elem.mpr ⟨e, (NodeWorld.elem_congr (hcell hown.own)).trans helem₀⟩
      rw [run_bind_ok (run_readLink hnode)]
      rw [hr] at hlater
      have hnext : t.link iterNext it = (Items.nodes xs).headD 0 := (NodeWorld.link_congr (hcell hown.own)).trans hlinked.1
      exact ih hown hlater ⟨fun x hx => helems x (List.mem_cons_of_mem _ hx), h0.2, hlinked.2,
        fun q hq => hheld q (List.mem_cons_of_mem _ hq)⟩ hnext (by rw [List.length_cons] at hfuel; omega)
    · rw [run_bind_error hr, List.map_cons]
      exact (run_bind_error hr _).symm

theorem copyConstruct_eq (v other : ℕ) : copyConstruct T v other = (do
    let w ← Prog.get
    beginConstruction T v (w.obj other).bucketCount (w.obj other).maxLoadFactor
    match ← (insertNodes T v walkFuel (w.obj other).head).attempt with
    | .ok () => born v
    | .error e =>
      clear v
      releaseBuckets T v
      Prog.throw e) := rfl

/-- A copy construction has failed: what is then still held are the nodes that the copy has cached, and there are some from the first
insertion on. -/
def CopyFailed (T : TableType K V F) (vs : List ℕ) (w₀ : TableWorld K V F) (kept : List LiveAlloc) (rest : List (ℕ × ℕ)) (v n : ℕ)
    (f : F) (values : List (K × V)) (w : TableWorld K V F) (e : NodeThrown) (w' : TableWorld K V F) : Prop :=
  ∃ leaked point, Owning T.toNodeType vs w₀ kept w' (leaked ++ rest) ∧ constructionFailure T v n f values w = some (e, point) ∧
    (e ≠ .hash → (leaked = [] ↔ point = none ∨ point = some 0))

theorem SharedMemoryHashTable.ends_copyConstruct (h : Owning T.toNodeType vs w₀ kept w rest) (hv : v ∈ vs)
    (hroom : AddressRoom w₀.heap T.sizeofNode T.alignofNode) (hsrc : Source w₀ kept xs) (hhead : (w.obj other).head = xs.nodes.headD 0)
    (hlen : xs.length ≤ walkFuel)
    (hfit : ConstructionFits T v (w.obj other).bucketCount (w.obj other).maxLoadFactor (xs.map Prod.snd) w) :
    (copyConstruct T v other).Ends w
      (fun _ w' => ∃ u items cached, OwnsTable T vs w₀ kept rest v items cached u ∧ w' = { u with names := v :: u.names } ∧
        (T.KeysRespected → items.map Prod.snd = (xs.map Prod.snd).foldl (fun A e => T.added A e.1 e) []) ∧
        constructionFailure T v (w.obj other).bucketCount (w.obj other).maxLoadFactor (xs.map Prod.snd) w = none)
      fun e' w' => CopyFailed T vs w₀ kept rest v (w.obj other).bucketCount (w.obj other).maxLoadFactor (xs.map Prod.snd) w e' w' := by
  obtain ⟨hbuckets, hfit⟩ := hfit
  rw [copyConstruct_eq]
  refine ends_get_bind ?_
  have hbegin := ends_beginConstruction (f := (w.obj other).maxLoadFactor) h hv (h.bucketRoom_iff.mp hbuckets)
  -- the array of buckets may be refused, before anything is held
  rcases hbegin.cases with ⟨_, t, hrun, hown, -, -⟩ | ⟨e', t, hrun, -, hown⟩
  swap
  · exact ends_of_error (run_bind_error hrun _) ⟨[], none, hown, constructionFailure_of_begin hrun, fun _ => iff_of_true rfl (Or.inl rfl)⟩
  rw [hrun] at hfit
  unfold Ends
  rw [run_bind_ok hrun]
  -- copying the nodes is inserting their elements one by one
  have hnodes := run_insertNodes hown hv hroom hfit hsrc hhead hlen
  have hinsert := ends_insertRange hown hv hroom hfit
  rcases hinsert.cases with ⟨_, s, hs, items', cached', hown', -, -, hmap⟩ | ⟨e', s, hs, done, x, more, u, hvalues, hd, hx, hf⟩
  · rw [hs] at hnodes
    have hattempt : (insertNodes T v walkFuel (w.obj other).head).attempt.run t = (.ok (.ok ()), s) := by rw [run_attempt, hnodes]
    rw [run_bind_ok hattempt]
    exact ⟨s, items', cached', hown', rfl, hmap, constructionFailure_of_ok hrun hs⟩
  · rw [hs] at hnodes
    have hattempt : (insertNodes T v walkFuel (w.obj other).head).attempt.run t = (.ok (.error e'), s) := by rw [run_attempt, hnodes]
    rw [run_bind_ok hattempt]
    obtain ⟨items', cached', lost, hnodes', hlost, hnone, hsome⟩ := hf.nodes
    -- `catch (...)`: the nodes go to the cache of the pool, and nobody returns the cache
    have hcatch : (do
        clear v
        releaseBuckets T v
        Prog.throw e' : TableOp K V F Unit).Ends s (fun _ _ => False) fun e'' w' => e'' = e' ∧
          Owning T.toNodeType vs w₀ kept w' (T.blocks (items'.nodes.reverse ++ cached') ++ (lost ++ rest)) := by
      refine (ends_clear hnodes' hv).bind fun _ r hr => ?_
      obtain ⟨hownr, -, -⟩ := hr
      have hperm : (T.owned (r.obj v) [] (items'.nodes.reverse ++ cached') ++ (lost ++ rest)).Perm
          ((r.obj v).arrayBlock ++ (T.blocks (items'.nodes.reverse ++ cached') ++ (lost ++ rest))) := by
        unfold TableType.owned
        rw [← List.append_assoc (r.obj v).arrayBlock]
        exact List.perm_append_comm.append_right _
      refine (ends_releaseBuckets (hownr.own.perm hperm) hv).bind fun _ q hq => ends_throw ⟨rfl, hq.1⟩
    rcases hcatch.cases with ⟨_, _, _, hfalse⟩ | ⟨e'', q, hq, rfl, hownq⟩
    · exact hfalse.elim
    · -- what is lost is nothing exactly where no node had been made
      have hdone : ∃ leaked, Owning T.toNodeType vs w₀ kept q (leaked ++ rest) ∧ (e'' ≠ .hash → (leaked = [] ↔ done = [])) := by
        refine ⟨T.blocks (items'.nodes.reverse ++ cached') ++ lost, by rwa [List.append_assoc], fun hne => ?_⟩
        rw [hlost hne, List.append_nil]
        have hblocks : T.blocks (items'.nodes.reverse ++ cached') = [] ↔ items' = [] ∧ cached' = [] := by
          unfold NodeType.blocks Items.nodes
          rw [List.map_eq_nil_iff, List.append_eq_nil_iff, List.reverse_eq_nil_iff, List.map_eq_nil_iff]
        rw [hblocks]
        constructor
        · intro hnil
          by_contra hdone
          exact hsome hdone hnil.1
        · intro hdone
          exact ⟨(hnone hdone).1, (hnone hdone).2 hne⟩
      obtain ⟨leaked, hownl, hiff⟩ := hdone
      dsimp only
      rw [hq]
      refine ⟨leaked, _, hownl, constructionFailure_of_insert hrun hs, fun hne => (hiff hne).trans ?_⟩
      rw [hvalues, insertedBefore_eq hd hx]
      simp

/-! Moves and `swap`. -/

/-- The table under another name. -/
theorem TableHolds.rename {v' : ℕ} (h : TableHolds T w v items cached) (hobj : w'.obj v' = w.obj v) (hpool : w'.pool v' = w.pool v)
    (hcell : w'.cell = w.cell) : TableHolds T w' v' items cached := by
  obtain ⟨⟨h1, h2, h3, h4, h5⟩, h6⟩ := h
  refine ⟨⟨?_, by rw [hobj, h2], ⟨?_, by rw [hpool, h3.count]⟩, ?_, by rwa [hobj]⟩, ?_⟩
  · rw [hobj]
    exact h1.congr (fun q _ => by rw [hcell]) rfl rfl
  · rw [hpool, hcell]
    exact h3.chain
  · rw [hobj, hcell]
    exact h4
  · rw [hobj]
    exact fun hb => (h6 hb).congr (by rw [hcell]) fun q _ => by rw [hcell]

/-- A table without array, nodes and cached nodes, as a move leaves it. -/
theorem TableHolds.bare_of {m : F} (hobj : w.obj v = ⟨0, 0, 0, m, 0, 0⟩) (hpool : w.pool v = .empty) : TableHolds T w v [] [] := by
  refine ⟨⟨?_, ?_, ⟨?_, ?_⟩, ?_, ?_⟩, ?_⟩
  · rw [hobj]
    exact ⟨by simp, List.nodup_nil, by simp, .nil, rfl, rfl⟩
  · rw [hobj]
    rfl
  · rw [hpool]
    rfl
  · rw [hpool]
    rfl
  · rw [hobj]
    exact fun hne => absurd rfl hne
  · rw [hobj]
    exact fun _ => ⟨rfl, rfl⟩
  · rw [hobj]
    exact fun hne => absurd rfl hne

/-- The members of a table that a move has left. -/
def SharedMemoryHashTable.movedFrom (t : SharedMemoryHashTable F) : SharedMemoryHashTable F := ⟨0, 0, 0, t.maxLoadFactor, 0, 0⟩

theorem ends_copyMembers (other : ℕ) (h : Owning T.toNodeType vs w₀ kept w mine) (hv : v ∈ vs) :
    (copyMembers v other : TableOp K V F Unit).Ends w
      (fun _ w' => w' = { w with obj := Function.update w.obj v (w.obj other) } ∧ Owning T.toNodeType vs w₀ kept w' mine) E := by
  unfold copyMembers
  exact ends_get_bind (ends_store ⟨rfl, h.setObj hv _⟩)

theorem ends_resetMembers (h : Owning T.toNodeType vs w₀ kept w mine) (hother : other ∈ vs) :
    (resetMembers other : TableOp K V F Unit).Ends w
      (fun _ w' => w' = { w with obj := Function.update w.obj other (w.obj other).movedFrom } ∧
        Owning T.toNodeType vs w₀ kept w' mine) E := by
  unfold resetMembers
  refine ends_store_bind (ends_store_bind (ends_store_bind (ends_store_bind (ends_store ?_))))
  simp only [Function.update_self, Function.update_idem]
  exact ⟨rfl, h.setObj hother (w.obj other).movedFrom⟩

/-- The members of `other` are now those of `v`, and `other` has none. -/
structure Moved (v other : ℕ) (w w' : TableWorld K V F) : Prop where
  obj_eq : w'.obj v = w.obj other
  pool_eq : w'.pool v = w.pool other
  left : w'.obj other = (w.obj other).movedFrom
  left_pool : w'.pool other = .empty

theorem ends_moveConstruct (h : Owning T.toNodeType vs w₀ kept w mine) (hv : v ∈ vs) (hother : other ∈ vs) (hne : other ≠ v) :
    (moveConstruct v other : TableOp K V F Unit).Ends w
      (fun _ w' => ∃ u, Owning T.toNodeType vs w₀ kept u mine ∧ Moved v other w u ∧ u.cell = w.cell ∧
        w' = { u with names := v :: u.names }) E := by
  unfold moveConstruct
  refine (NodePool.ends_takeFrom h hv hother).bind fun _ t ht => ?_
  obtain ⟨rfl, hown⟩ := ht
  refine (ends_copyMembers other hown hv).bind fun _ t ht => ?_
  obtain ⟨rfl, hown⟩ := ht
  refine (ends_resetMembers hown hother).bind fun _ t ht => ?_
  obtain ⟨rfl, hown⟩ := ht
  refine ends_store ⟨_, hown, ⟨?_, ?_, ?_, ?_⟩, rfl, rfl⟩ <;> dsimp only
  · rw [Function.update_of_ne (Ne.symm hne), Function.update_self]
  · rw [Function.update_of_ne (Ne.symm hne), Function.update_self]
  · rw [Function.update_self, Function.update_of_ne hne]
  · rw [Function.update_self]

theorem ends_swap (h : Owning T.toNodeType vs w₀ kept w mine) (hv : v ∈ vs) (hother : other ∈ vs) (hne : other ≠ v) :
    (swap v other : TableOp K V F Unit).Ends w
      (fun _ w' => Owning T.toNodeType vs w₀ kept w' mine ∧ w'.obj v = w.obj other ∧ w'.pool v = w.pool other ∧
        w'.obj other = w.obj v ∧ w'.pool other = w.pool v ∧ w'.cell = w.cell) E := by
  unfold swap
  refine (NodePool.ends_swap h hv hother).bind fun _ t ht => ?_
  obtain ⟨rfl, hown⟩ := ht
  refine ends_get_bind (ends_store_bind (ends_store ⟨(hown.setObj hv _).setObj hother _, ?_, ?_, ?_, ?_, rfl⟩)) <;> dsimp only
  · rw [Function.update_of_ne (Ne.symm hne), Function.update_self]
  · rw [Function.update_of_ne (Ne.symm hne), Function.update_self]
  · rw [Function.update_self]
  · rw [Function.update_self]

/-- A table swapped with itself. -/
theorem run_swap_self (w : TableWorld K V F) : (swap v v : TableOp K V F Unit).run w = (.ok (), w) := by
  have hrun : (swap v v : TableOp K V F Unit).run w = (.ok (), { w with
      pool := Function.update (Function.update w.pool v (w.pool v)) v (w.pool v)
      obj := Function.update (Function.update w.obj v (w.obj v)) v (w.obj v) }) := rfl
  rw [hrun, Function.update_idem, Function.update_eq_self, Function.update_idem, Function.update_eq_self]

/-- Move assignment: what `v` had is given back, and it takes over what `other` has. -/
theorem SharedMemoryHashTable.ends_moveAssign (h : OwnsTable T [v] w₀ kept rest v items cached w) (hne : other ≠ v) :
    (moveAssign T v other).Ends w
      (fun _ w' => Owning T.toNodeType [v, other] w₀ kept w' rest ∧ Moved v other w₀ w') E := by
  unfold moveAssign
  rw [if_neg (Ne.symm hne)]
  refine ends_dismantle_bind h.ownsNodes List.mem_cons_self fun u hu hb _ => ?_
  have hnot : other ∉ [v] := fun hm => hne (List.mem_singleton.mp hm)
  have hobju : u.obj other = w₀.obj other := hu.own.objs_same other hnot
  have hv : v ∈ [v, other] := List.mem_cons_self
  have hother : other ∈ [v, other] := List.mem_cons_of_mem _ List.mem_cons_self
  refine (ends_copyMembers other (hu.none_left hb) List.mem_cons_self).bind fun _ t ht => ?_
  obtain ⟨rfl, hownt⟩ := ht
  unfold NodePool.moveAssign
  rw [if_neg (Ne.symm hne)]
  have hcaches : Caches { u with obj := Function.update u.obj v (u.obj other) } v [] := hu.holds.caches.congr rfl (by simp)
  -- the cache is empty already
  have hshrink := NodePool.ends_shrinkToFit (E := E) hownt List.mem_cons_self hcaches
  have htake : (do
      NodePool.shrinkToFit T.toNodeType v
      NodePool.takeFrom v other : TableOp K V F Unit).Ends { u with obj := Function.update u.obj v (u.obj other) }
      (fun _ w' => Owning T.toNodeType [v, other] w₀ kept w' rest ∧ w'.obj = Function.update u.obj v (u.obj other) ∧
        w'.pool v = w₀.pool other ∧ w'.pool other = .empty) E := by
    refine hshrink.bind fun _ t ht => ?_
    obtain ⟨hownt, -, hstep, -⟩ := ht
    have hpool : t.pool other = w₀.pool other := hownt.pools_same other hnot
    refine (NodePool.ends_takeFrom (hownt.mono_names (by simp)) hv hother).mono (fun _ w' hw' => ?_) fun _ _ he => he
    obtain ⟨rfl, hown'⟩ := hw'
    refine ⟨hown', hstep.obj_eq, ?_, Function.update_self ..⟩
    dsimp only
    rw [Function.update_of_ne (Ne.symm hne), Function.update_self, hpool]
  refine htake.bind fun _ t ht => ?_
  obtain ⟨hownt', hobjt, hpoolv, hpoolo⟩ := ht
  refine (ends_resetMembers hownt' hother).mono (fun _ w' hw' => ?_) fun _ _ he => he
  obtain ⟨rfl, hown'⟩ := hw'
  refine ⟨hown', ?_, hpoolv, ?_, hpoolo⟩ <;> dsimp only
  · rw [Function.update_of_ne (Ne.symm hne), hobjt, Function.update_self, hobju]
  · rw [Function.update_self, hobjt, Function.update_of_ne hne, hobju]

end ShmNext
