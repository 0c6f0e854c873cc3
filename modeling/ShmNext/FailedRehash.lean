import ShmNext.HashTableWhole

/-! A rehash in which the hash throws. The links of the nodes are those of the chains that the new array would have
had, and the old array still heads its chains: these are in order exactly where the two agree. -/
namespace ShmNext
open Prog NodeOp SharedMemoryHashTable HashLink

variable {K V F α : Type} {T : TableType K V F} {w w' w₀ u : TableWorld K V F} {vs cached : List ℕ} {kept : List LiveAlloc}
  {mine rest : List (ℕ × ℕ)} {items xs ys : Items K V} {v p r m n k i : ℕ} {e : K × V} {es : List (K × V)} {key : K}

/-- How far back the closest earlier element of the same bucket lies, where there is one. -/
def TableType.back (T : TableType K V F) (bucketCount : ℕ) (before : List (K × V)) (e : K × V) : Option ℕ :=
  before.reverse.findIdx? fun x => T.index bucketCount x = T.index bucketCount e

/-- The first `k` elements are linked for `n` buckets as they were for `m`, and the others were linked to none. -/
def TableType.Harmless (T : TableType K V F) (m n : ℕ) (es : List (K × V)) (k : ℕ) : Prop :=
  ∀ j, (h : j < es.length) → T.back m (es.take j) es[j] = if j < k then T.back n (es.take j) es[j] else none

instance : Decidable (T.Harmless m n es k) := inferInstanceAs (Decidable (∀ j, (_ : j < es.length) → _ = _))

theorem TableType.harmless_iff : T.Harmless m n es k ↔ ∀ xs e ys, es = xs ++ e :: ys →
    T.back m xs e = if xs.length < k then T.back n xs e else none := by
  constructor
  · rintro h xs e ys rfl
    have hlt : xs.length < (xs ++ e :: ys).length := by simp
    have hj := h xs.length hlt
    have helem : (xs ++ e :: ys)[xs.length] = e := by simp
    rwa [List.take_left' rfl, helem] at hj
  · intro h j hj
    have hsplit := h (es.take j) es[j] (es.drop (j+1)) (by rw [List.getElem_cons_drop, List.take_append_drop])
    rwa [List.length_take_of_le (Nat.le_of_lt hj)] at hsplit

/-! Nodes found by two tests. -/

theorem find_node_eq_iff {l : Items K V} {P P' : ℕ × (K × V) → Bool} (hnd : l.nodes.Nodup) (h0 : 0 ∉ l.nodes) :
    ((l.find? P).map Prod.fst).getD 0 = ((l.find? P').map Prod.fst).getD 0 ↔ l.findIdx? P = l.findIdx? P' := by
  induction l with
  | nil => exact ⟨fun _ => rfl, fun _ => rfl⟩
  | cons x l ih =>
    rw [Items.nodes_cons] at hnd h0
    obtain ⟨hx, hnd⟩ := List.nodup_cons.mp hnd
    rw [List.mem_cons, not_or] at h0
    -- the first node is found by neither search among the others
    have hother : ∀ R : ℕ × (K × V) → Bool, ((List.find? R l).map Prod.fst).getD 0 ≠ x.1 := by
      intro R heq
      cases hR : List.find? R l with
      | none =>
        rw [hR] at heq
        exact h0.1 heq
      | some y =>
        rw [hR] at heq
        exact hx (heq ▸ Items.mem_nodes (List.mem_of_find?_eq_some hR))
    have hzero : ∀ o : Option ℕ, some 0 ≠ o.map fun i => i+1 := by
      intro o
      cases o <;> simp
    rw [List.find?_cons, List.find?_cons, List.findIdx?_cons, List.findIdx?_cons]
    cases hP : P x <;> cases hP' : P' x
    · simp only [Bool.false_eq_true, if_false]
      rw [ih hnd h0.2]
      exact (Option.map_injective (fun _ _ h => Nat.succ.inj h)).eq_iff.symm
    · simp only [Bool.false_eq_true, if_false, if_true]
      exact ⟨fun h => absurd h (hother P), fun h => absurd h.symm (hzero _)⟩
    · simp only [Bool.false_eq_true, if_false, if_true]
      exact ⟨fun h => absurd h.symm (hother P'), fun h => absurd h (hzero _)⟩
    · simp

theorem find_node_eq_zero_iff {l : Items K V} {P : ℕ × (K × V) → Bool} (h0 : 0 ∉ l.nodes) :
    ((l.find? P).map Prod.fst).getD 0 = 0 ↔ l.findIdx? P = none := by
  rw [List.findIdx?_eq_none_iff]
  cases hP : List.find? P l with
  | none =>
    have hall := List.find?_eq_none.mp hP
    exact ⟨fun _ x hx => by simpa using hall x hx, fun _ => rfl⟩
  | some y =>
    have hy := Items.mem_nodes (List.mem_of_find?_eq_some hP)
    constructor
    · intro h
      exact absurd (show y.1 = 0 from h) fun hz => h0 (hz ▸ hy)
    · intro h
      have hno := h y (List.mem_of_find?_eq_some hP)
      rw [List.find?_some hP] at hno
      cases hno

/-- The last node of a bucket. -/
theorem bucket_last (xs : Items K V) : (T.bucket m xs i).reverse.headD 0 =
    ((xs.reverse.find? fun x => T.index m x.2 = i).map Prod.fst).getD 0 := by
  unfold TableType.bucket Items.nodes
  rw [← List.map_reverse, ← List.filter_reverse, ← List.head?_filter]
  cases List.filter (fun x : ℕ × (K × V) => decide (T.index m x.2 = i)) xs.reverse <;> rfl

theorem back_map (xs : Items K V) (e : K × V) : T.back m (xs.map Prod.snd) e =
    xs.reverse.findIdx? fun x => T.index m x.2 = T.index m e := by
  unfold TableType.back
  rw [← List.map_reverse, List.findIdx?_map]
  rfl

/-! Links and chains. -/

section
variable {next prev : ℕ → ℕ} {b e' : ℕ} {l : List ℕ}

/-- A node that is linked to is linked back. -/
theorem DoublyLinked.next_mem (h : DoublyLinked next prev b e' l) (hp : p ∈ l) (hne : next p ≠ e') : next p ∈ l ∧ prev (next p) = p := by
  obtain ⟨as, bs, rfl⟩ := List.append_of_mem hp
  have hnext := (DoublyLinked.middle_iff.mp h).2.1
  cases bs with
  | nil => exact absurd hnext hne
  | cons c bs =>
    rw [hnext]
    have hsplit : as ++ p :: c :: bs = (as ++ [p]) ++ c :: bs := by simp
    rw [hsplit] at h
    refine ⟨by simp, (DoublyLinked.middle_iff.mp h).2.2.1.trans ?_⟩
    rw [List.reverse_append]
    rfl

theorem DoublyLinked.prev_mem (h : DoublyLinked next prev b e' l) (hp : p ∈ l) (hne : prev p ≠ b) : prev p ∈ l ∧ next (prev p) = p := by
  have hback := h.flip.next_mem (List.mem_reverse.mpr hp) hne
  rwa [List.mem_reverse] at hback

end

/-- The next node of a chain is the closest earlier one of its bucket. -/
theorem chains_next {nx pv : ℕ → ℕ} (h : ∀ i < m, DoublyLinked pv nx 0 0 (T.bucket m (xs ++ (p, e) :: ys) i)) (hm : 0 < m) :
    nx p = (T.bucket m xs (T.index m e)).reverse.headD 0 := by
  have hchain := h _ (Nat.mod_lt (T.hash e.1) hm)
  rw [show T.hash e.1%m = T.index m e from rfl, TableType.bucket_remove, if_pos rfl, List.append_assoc, List.singleton_append] at hchain
  exact (DoublyLinked.middle_iff.mp hchain).2.2.1

/-- With the links to the next nodes those back are given too. -/
theorem chains_prev_eq {nx nx' pv pv' : ℕ → ℕ} (h : ∀ i < m, DoublyLinked pv nx 0 0 (T.bucket m (xs ++ ys) i))
    (h' : ∀ i < n, DoublyLinked pv' nx' 0 0 (T.bucket n xs i)) (hys : ∀ q ∈ ys.nodes, pv' q = 0 ∧ nx' q = 0) (hm : 0 < m) (hn : 0 < n)
    (h0 : 0 ∉ (xs ++ ys).nodes) (heq : ∀ q ∈ (xs ++ ys).nodes, nx' q = nx q) (hp : p ∈ (xs ++ ys).nodes) : pv' p = pv p := by
  have hbucket : ∀ {s : ℕ}, s ∈ (xs ++ ys).nodes → ∃ i < m, s ∈ T.bucket m (xs ++ ys) i := by
    intro s hs
    obtain ⟨e, he⟩ := Items.exists_of_mem_nodes hs
    exact ⟨T.index m e, Nat.mod_lt _ hm, TableType.mem_bucket.mpr ⟨e, he, rfl⟩⟩
  have hbucket' : ∀ {s : ℕ}, s ∈ xs.nodes → ∃ i < n, s ∈ T.bucket n xs i := by
    intro s hs
    obtain ⟨e, he⟩ := Items.exists_of_mem_nodes hs
    exact ⟨T.index n e, Nat.mod_lt _ hn, TableType.mem_bucket.mpr ⟨e, he, rfl⟩⟩
  have hp0 : p ≠ 0 := fun hz => h0 (hz ▸ hp)
  have hsplit : ∀ {s : ℕ}, s ∈ (xs ++ ys).nodes → s ∈ xs.nodes ∨ s ∈ ys.nodes := by
    intro s hs
    rwa [Items.nodes_append, List.mem_append] at hs
  obtain ⟨i, hi, hpi⟩ := hbucket hp
  -- `pv p` is the node before `p` in its bucket; where there is none, none may point to `p` in the new chains
  by_cases hz : pv p = 0
  · rw [hz]
    by_contra hne
    rcases hsplit hp with hx | hy
    · obtain ⟨j, hj, hpj⟩ := hbucket' hx
      obtain ⟨hmem, hback⟩ := (h' j hj).next_mem hpj hne
      have hr : pv' p ∈ (xs ++ ys).nodes := by
        rw [Items.nodes_append]
        exact List.mem_append_left _ (T.bucket_sublist.mem hmem)
      rw [heq _ hr] at hback
      obtain ⟨i', hi', hri⟩ := hbucket hr
      have hlink := (h i' hi').prev_mem hri (by rwa [hback])
      rw [hback] at hlink
      rw [hz] at hlink
      exact hne hlink.2.symm
    · exact hne (hys p hy).1
  · obtain ⟨hmem, hback⟩ := (h i hi).next_mem hpi hz
    have hr : pv p ∈ (xs ++ ys).nodes := T.bucket_sublist.mem hmem
    rw [← heq _ hr] at hback
    rcases hsplit hr with hx | hy
    · obtain ⟨j, hj, hrj⟩ := hbucket' hx
      have hlink := (h' j hj).prev_mem hrj (by rwa [hback])
      rw [hback] at hlink
      exact hlink.2
    · rw [(hys _ hy).2] at hback
      exact absurd hback.symm hp0

/-- After a failed rehash the chains of the old array are in order exactly where the links agree. -/
theorem RelinkFailed.bucketed_iff (hf : RelinkFailed T vs w₀ kept rest v items cached n w w') (h : TableHolds T w v items cached) (hn : 0 < n) :
    ∃ k < items.length, T.hashThrows (w.hashes+k) = true ∧ (∀ j < k, T.hashThrows (w.hashes+j) = false) ∧
      w'.hashes = w.hashes+k+1 ∧
      (Bucketed T w' (w.obj v).buckets (w.obj v).bucketCount items ↔ T.Harmless (w.obj v).bucketCount n (items.map Prod.snd) k) := by
  obtain ⟨xs, ys, rfl, hys, hchains', hzero, hhash, hthrow, hbefore⟩ := hf.relinked
  have hne : xs ++ ys ≠ [] := fun hnil => hys (List.append_eq_nil_iff.mp hnil).2
  have hb : (w.obj v).buckets ≠ 0 := fun hb => hne (h.bare hb).2
  obtain ⟨hm, -⟩ := h.array hb
  have hchains := (h.chains hb).chains
  have hnd := h.iterates.nodup
  have h0 := h.iterates.not_null
  have hlt : xs.length < (xs ++ ys).length := by
    rw [List.length_append]
    have := List.length_pos_of_ne_nil hys
    omega
  -- the links after the failure, node by node
  have hlink : ∀ as p e bs, xs ++ ys = as ++ (p, e) :: bs → (w'.link bucketNext p =
      (T.bucket (w.obj v).bucketCount as (T.index (w.obj v).bucketCount e)).reverse.headD 0 ↔
        T.back (w.obj v).bucketCount (as.map Prod.snd) e = if as.length < xs.length then T.back n (as.map Prod.snd) e else none) := by
    intro as p e bs hsplit
    rw [hsplit] at hnd h0
    rw [Items.nodes_append] at hnd h0
    have hndas : (Items.nodes as.reverse).Nodup := by
      unfold Items.nodes
      rw [List.map_reverse, List.nodup_reverse]
      exact (List.nodup_append.mp hnd).1
    have h0as : 0 ∉ Items.nodes as.reverse := by
      unfold Items.nodes
      rw [List.map_reverse, List.mem_reverse]
      exact fun hz => h0 (List.mem_append_left _ hz)
    rw [bucket_last, back_map]
    rcases List.append_eq_append_iff.mp hsplit with ⟨cs, hcs, hds⟩ | ⟨cs, hcs, hds⟩
    · -- the node comes after the throw
      have hle : ¬as.length < xs.length := by
        rw [hcs, List.length_append]
        omega
      have hmem : p ∈ ys.nodes := by
        rw [hds, Items.nodes_append, Items.nodes_cons]
        simp
      rw [if_neg hle, (hzero p hmem).2, eq_comm]
      exact find_node_eq_zero_iff h0as
    · cases cs with
      | nil =>
        have hle : ¬as.length < xs.length := by
          rw [hcs, List.append_nil]
          exact Nat.lt_irrefl _
        have hmem : p ∈ ys.nodes := by
          rw [List.nil_append] at hds
          rw [← hds, Items.nodes_cons]
          exact List.mem_cons_self
        rw [if_neg hle, (hzero p hmem).2, eq_comm]
        exact find_node_eq_zero_iff h0as
      | cons c cs =>
        have hc : c = (p, e) := by
          rw [List.cons_append] at hds
          exact (List.cons.inj hds).1.symm
        subst hc
        have hle : as.length < xs.length := by
          rw [hcs, List.length_append, List.length_cons]
          omega
        rw [hcs] at hchains'
        rw [if_pos hle, chains_next hchains' hn, back_map, bucket_last, eq_comm]
        exact find_node_eq_iff hndas h0as
  refine ⟨xs.length, hlt, hthrow, hbefore, hhash, fun hbuck => ?_, fun hharm => ⟨?_, fun i hi => ?_⟩⟩
  · rw [TableType.harmless_iff]
    intro es₁ e es₂ hes
    obtain ⟨as, rest', hsplit, rfl, hrest⟩ := List.map_eq_append_iff.mp hes
    obtain ⟨x, bs, rfl, hx, -⟩ := List.map_eq_cons_iff.mp hrest
    obtain ⟨p, e'⟩ := x
    obtain rfl : e' = e := hx
    have hold := hbuck.chains
    rw [hsplit] at hold
    rw [List.length_map]
    exact (hlink as p e' bs hsplit).mp (chains_next hold hm)
  · rw [hf.array_eq hb]
    exact (h.chains hb).heads
  · have hnext : ∀ q ∈ (xs ++ ys).nodes, w'.link bucketNext q = w.link bucketNext q := by
      intro q hq
      obtain ⟨e, he⟩ := Items.exists_of_mem_nodes hq
      obtain ⟨as, bs, hsplit⟩ := List.append_of_mem he
      have hold := hchains
      rw [hsplit] at hold
      rw [chains_next hold hm]
      refine (hlink as q e bs hsplit).mpr ?_
      have hpos := TableType.harmless_iff.mp hharm (as.map Prod.snd) e (bs.map Prod.snd) (by rw [hsplit, List.map_append, List.map_cons])
      rwa [List.length_map] at hpos
    refine (hchains i hi).congr (fun q hq => ?_) fun q hq => hnext q (T.bucket_sublist.mem hq)
    exact chains_prev_eq hchains hchains' hzero hm hn h0 hnext (T.bucket_sublist.mem hq)

/-- And then the table is in order. -/
theorem RelinkFailed.ownsTable (hf : RelinkFailed T vs w₀ kept rest v items cached n w w')
    (hb : (w.obj v).buckets ≠ 0 → Bucketed T w' (w.obj v).buckets (w.obj v).bucketCount items) :
    OwnsTable T vs w₀ kept rest v items cached w' := by
  refine ⟨hf.nodes.own, hf.nodes.nodes, ?_⟩
  rw [hf.obj_eq]
  exact hb

/-! Reading a table off. -/

namespace SharedMemoryHashTable

/-- The nodes from `node` on along the links `f`. -/
def nodesFrom (w : TableWorld K V F) (f : HashLink) : ℕ → ℕ → List ℕ
  | fuel, node =>
    if node = 0 then []
    else match fuel with
      | 0 => []
      | fuel+1 => node :: nodesFrom w f fuel (w.link f node)

/-- The nodes in the order of iteration, with their elements. -/
def readItems (w : TableWorld K V F) (v : ℕ) : Items K V :=
  (nodesFrom w iterNext walkFuel (w.obj v).head).filterMap fun p => (w.elem? p).map fun e => (p, e)

def elements (w : TableWorld K V F) (v : ℕ) : List (K × V) := (readItems w v).map Prod.snd

end SharedMemoryHashTable

theorem nodesFrom_eq {f : HashLink} {ps : List ℕ} {fuel node : ℕ} (h : ForwardLinked (w.link f) 0 ps) (hhead : node = ps.headD 0)
    (h0 : 0 ∉ ps) (hfuel : ps.length ≤ fuel) : nodesFrom w f fuel node = ps := by
  induction ps generalizing fuel node with
  | nil =>
    obtain rfl : node = 0 := hhead
    unfold nodesFrom
    rw [if_pos rfl]
  | cons p ps ih =>
    obtain ⟨fuel, rfl⟩ : ∃ k, fuel = k+1 := ⟨fuel-1, by rw [List.length_cons] at hfuel; omega⟩
    obtain rfl : node = p := hhead
    rw [List.mem_cons, not_or] at h0
    unfold nodesFrom
    rw [if_neg (Ne.symm h0.1)]
    dsimp only
    rw [ih h.2 h.1 h0.2 (by rw [List.length_cons] at hfuel; omega)]

theorem nodesFrom_congr {f : HashLink} (h : w'.link f = w.link f) (fuel node : ℕ) : nodesFrom w' f fuel node = nodesFrom w f fuel node := by
  induction fuel generalizing node with
  | zero => rfl
  | succ fuel ih =>
    unfold nodesFrom
    dsimp only
    rw [ih, h]

/-- Only the cells and the members of the table are read. -/
theorem elements_congr (hcell : w'.cell = w.cell) (hobj : w'.obj v = w.obj v) : elements w' v = elements w v := by
  have hlink : w'.link iterNext = w.link iterNext := funext fun q => NodeWorld.link_congr (by rw [hcell])
  have helem : w'.elem? = w.elem? := funext fun q => NodeWorld.elem_congr (by rw [hcell])
  unfold elements readItems
  rw [nodesFrom_congr hlink, helem, hobj]

theorem NodesHold.readItems_eq (h : NodesHold w v items cached) (hlen : items.length ≤ walkFuel) : readItems w v = items := by
  have hfuel : items.nodes.length ≤ walkFuel := by rwa [Items.nodes, List.length_map]
  unfold readItems
  rw [nodesFrom_eq h.iterates.linked.forward h.iterates.head_eq h.iterates.not_null hfuel]
  have helems := h.iterates.elems
  clear h hlen hfuel
  induction items with
  | nil => rfl
  | cons x items ih =>
    rw [Items.nodes_cons, List.filterMap_cons, helems x List.mem_cons_self]
    exact congrArg (x :: ·) (ih fun y hy => helems y (List.mem_cons_of_mem _ hy))

theorem NodesHold.elements_eq (h : NodesHold w v items cached) (hlen : items.length ≤ walkFuel) : elements w v = items.map Prod.snd := by
  unfold elements
  rw [h.readItems_eq hlen]

/-! What a throwing hash must not do. -/

/-- Of the calls of the hash from `hashes` on, the one after `k` others is the first that throws. -/
def TableType.FirstThrow (T : TableType K V F) (hashes k : ℕ) : Prop :=
  T.hashThrows (hashes+k) = true ∧ ∀ j < k, T.hashThrows (hashes+j) = false

theorem TableType.FirstThrow.unique {hashes j k : ℕ} (hj : T.FirstThrow hashes j) (hk : T.FirstThrow hashes k) : j = k := by
  rcases Nat.lt_trichotomy j k with hlt | heq | hlt
  · have := hk.2 j hlt
    rw [hj.1] at this
    cases this
  · exact heq
  · have := hj.2 k hlt
    rw [hk.1] at this
    cases this

/-- Relinking the table for `n` buckets is harmless, wherever the hash cuts it off. -/
def RelinkSafe (T : TableType K V F) (w : TableWorld K V F) (v hashes n : ℕ) : Prop :=
  ∀ k < (w.obj v).size, T.FirstThrow hashes k → T.Harmless (w.obj v).bucketCount n (elements w v) k

/-- A hash that never throws harms nothing. -/
theorem RelinkSafe.of_nothrow (h : ∀ k, T.hashThrows k = false) (w : TableWorld K V F) (v hashes n : ℕ) : RelinkSafe T w v hashes n := by
  intro k _ hthrow
  have := hthrow.1
  rw [h] at this
  cases this

theorem RelinkFailed.safe (hf : RelinkFailed T vs w₀ kept rest v items cached n w w') (h : OwnsTable T vs w₀ kept rest v items cached w)
    (hn : 0 < n) (hsafe : RelinkSafe T w v w.hashes n) : OwnsTable T vs w₀ kept rest v items cached w' := by
  obtain ⟨k, hk, hthrow, hbefore, -, hiff⟩ := hf.bucketed_iff h.holds hn
  refine hf.ownsTable fun _ => hiff.mpr ?_
  rw [← h.holds.toNodesHold.elements_eq h.ownsNodes.length_le]
  exact hsafe k (by rwa [h.holds.size_eq]) ⟨hthrow, hbefore⟩

theorem RehashFailed.safe {e' : NodeThrown} (hf : RehashFailed T vs w₀ kept rest v items cached n w e' w')
    (h : OwnsTable T vs w₀ kept rest v items cached w) (hn : 0 < n) (hsafe : RelinkSafe T w v w.hashes n) :
    OwnsTable T vs w₀ kept rest v items cached w' := by
  rcases hf with ⟨-, hown, -⟩ | ⟨-, hfailed⟩
  · exact hown
  · exact hfailed.safe h hn hsafe

/-- The rehash that an insertion of the key may begin is harmless wherever it is cut off. -/
def InsertionSafe (T : TableType K V F) (w : TableWorld K V F) (v : ℕ) (key : K) : Prop :=
  ((findNode T v key).run w).1 = .ok 0 →
    (w.obj v).bucketCount = 0 ∨ T.factors.crowded ((w.obj v).size+1) (w.obj v).bucketCount (w.obj v).maxLoadFactor = true →
      rehashTarget T (w.obj v) (grownBucketCount (w.obj v)) ≠ (w.obj v).bucketCount →
        RelinkSafe T w v (w.hashes+(w.obj v).lookups) (rehashTarget T (w.obj v) (grownBucketCount (w.obj v)))

/-- Then a failed insertion leaves the table in order. A node is lost where the hash throws before it is linked. -/
theorem InsertFailed.safe {e' : NodeThrown} (hf : InsertFailed T vs w₀ kept rest v items cached key w e' w')
    (h : OwnsTable T vs w₀ kept rest v items cached w) (hsafe : InsertionSafe T w v key) :
    ∃ lost cached', OwnsTable T vs w₀ kept (lost ++ rest) v items cached' w' ∧ (e' ≠ .hash → lost = []) := by
  rcases hf with ⟨lost, cached', hown, hlost, -⟩ | ⟨rfl, hfind, hcond, hne, hfailed⟩
  · exact ⟨lost, cached', hown, fun hne => (hlost hne).1⟩
  · refine ⟨[], cached, hfailed.safe (h.setHashes _) (rehashTarget_pos _ _) fun k hk hthrow => ?_, fun _ => rfl⟩
    have hsame : elements { w with hashes := w.hashes+(w.obj v).lookups } v = elements w v := elements_congr rfl rfl
    rw [hsame]
    exact hsafe hfind hcond hne k hk hthrow

/-- The same for the value of `emplace`, which has been constructed before. -/
def EmplacementSafe (T : TableType K V F) (w : TableWorld K V F) (v : ℕ) (key : K) : Prop :=
  InsertionSafe T { w with calls := w.calls+1 } v key

/-- The same for a range of insertions, one after the other. -/
def InsertionsSafe (T : TableType K V F) (v : ℕ) : List (K × V) → TableWorld K V F → Prop
  | [], _ => True
  | e :: values, w => EmplacementSafe T w v e.1 ∧
    match (emplace T v e).run w with
    | (.ok _, w') => InsertionsSafe T v values w'
    | _ => True

theorem InsertionSafe.of_nothrow (h : ∀ k, T.hashThrows k = false) (w : TableWorld K V F) (v : ℕ) (key : K) : InsertionSafe T w v key :=
  fun _ _ _ => .of_nothrow h w v _ _

theorem InsertionsSafe.of_nothrow (h : ∀ k, T.hashThrows k = false) (v : ℕ) (values : List (K × V)) (w : TableWorld K V F) :
    InsertionsSafe T v values w := by
  induction values generalizing w with
  | nil => trivial
  | cons e values ih =>
    refine ⟨.of_nothrow h _ v e.1, ?_⟩
    rcases (emplace T v e).run w with ⟨_ | _ | _, w'⟩
    · exact ih w'
    · trivial
    · trivial

/-- A range of insertions of which one has thrown: those before it are done. -/
theorem ends_insertRange_safe {values : List (K × V)} (h : OwnsTable T vs w₀ kept rest v items cached w) (hv : v ∈ vs)
    (hroom : AddressRoom w₀.heap T.sizeofNode T.alignofNode) (hins : InsertionsFit T v values w) (hsafe : InsertionsSafe T v values w) :
    (insertRange T v values).Ends w
      (fun _ w' => ∃ items' cached', OwnsTable T vs w₀ kept rest v items' cached' w' ∧
        (T.KeysRespected → items'.map Prod.snd = values.foldl (fun A e => T.added A e.1 e) (items.map Prod.snd)))
      fun _ w' => ∃ done more items' cached' lost, values = done ++ more ∧ OwnsTable T vs w₀ kept (lost ++ rest) v items' cached' w' ∧
        (T.KeysRespected → items'.map Prod.snd = done.foldl (fun A e => T.added A e.1 e) (items.map Prod.snd)) := by
  induction values generalizing w items cached with
  | nil => exact ends_pure ⟨items, cached, h, fun _ => rfl⟩
  | cons e values ih =>
    obtain ⟨hfit, hlater⟩ := hins
    obtain ⟨hround, hsafe⟩ := hsafe
    rcases (ends_emplace h hv hroom hfit).cases with ⟨r, t, hr, items', cached', hown, hinserted, -⟩ | ⟨e', t, hr, hfailed⟩
    · rw [hr] at hlater hsafe
      have hstep : (insertRange T v (e :: values)).run w = (insertRange T v values).run t := run_bind_ok hr _
      have hmap := hinserted.added_eq
      rcases (ih hown hlater hsafe).cases with ⟨_, s, hs, items'', cached'', hown', hall⟩ | ⟨e', s, hs, done, more, items'', cached'', lost, rfl, hown', hall⟩
      · refine ends_of_ok (hstep.trans hs) ⟨items'', cached'', hown', fun hT => ?_⟩
        rw [hall hT, hmap hT]
        rfl
      · refine ends_of_error (hstep.trans hs) ⟨e :: done, more, items'', cached'', lost, rfl, hown', fun hT => ?_⟩
        rw [hall hT, hmap hT]
        rfl
    · obtain ⟨lost, cached', hown, -⟩ := hfailed.safe (h.setCalls _) hround
      exact ends_of_error (run_bind_error hr _) ⟨[], e :: values, items, cached', lost, rfl, hown, fun _ => rfl⟩

end ShmNext
