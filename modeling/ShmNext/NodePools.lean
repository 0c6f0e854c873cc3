import ShmNext.OwnedBlocks
import ShmNext.HeapSafety

/-! Any number of node pools over one allocator. A node that one pool has made may be destroyed by another. -/
namespace ShmNext
open Prog NodeOp

variable {N M : Type} {T : NodeType} {w w' : NodeWorld N M} {own : ℕ → List ℕ} {live : List ℕ} {others : List (ℕ × ℕ)} {v other p : ℕ}

namespace NodePool

/-- The pool object `v` exists from here on. -/
def born (v : ℕ) : NodeOp N M Unit := Prog.store fun w => { w with names := v :: w.names }

/-- Construction of a pool, from an allocator or as a copy: no nodes come along. -/
def construct (v : ℕ) : NodeOp N M Unit := do
  modify v fun _ => .empty
  born v

def moveConstruct (v other : ℕ) : NodeOp N M Unit := do
  takeFrom v other
  born v

def copyAssign (T : NodeType) (v other : ℕ) : NodeOp N M Unit :=
  if v = other then pure ()
  else do
    shrinkToFit T v
    modify v fun _ => .empty

end NodePool

inductive PoolCall (N : Type) where
  | construct (v : ℕ)
  | copyConstruct (v other : ℕ)
  | moveConstruct (v other : ℕ)
  | create (v : ℕ) (n : ℕ → N)
  | destroy (v node : ℕ)
  | shrinkToFit (v : ℕ)
  | copyAssign (v other : ℕ)
  | moveAssign (v other : ℕ)
  | swap (v other : ℕ)

/-- There is a node at `p`: made, and not destroyed. -/
def NodeWorld.LiveNode (w : NodeWorld N M) (p : ℕ) : Prop := ∃ n, w.cell p = some (.node n)

namespace PoolCall

def perform (T : NodeType) : PoolCall N → NodeOp N M Unit
  | construct v => NodePool.construct v
  | copyConstruct v _ => NodePool.construct v
  | moveConstruct v other => NodePool.moveConstruct v other
  | create v n => do
    let _ ← NodePool.create T v n
  | destroy v node => NodePool.destroy v node
  | shrinkToFit v => NodePool.shrinkToFit T v
  | copyAssign v other => NodePool.copyAssign T v other
  | moveAssign v other => NodePool.moveAssign T v other
  | swap v other => NodePool.swap v other

/-- What callers keep to: they name pools that exist, or a new one that does not, and destroy live nodes; a node more would not
reach the end of the address space. -/
def Admissible (T : NodeType) (w : NodeWorld N M) : PoolCall N → Prop
  | construct v => v ∉ w.names
  | copyConstruct v other | moveConstruct v other => v ∉ w.names ∧ other ∈ w.names
  | create v _ => v ∈ w.names ∧ AddressRoom w.heap T.sizeofNode T.alignofNode
  | destroy v node => v ∈ w.names ∧ (node = 0 ∨ w.LiveNode node)
  | shrinkToFit v => v ∈ w.names
  | copyAssign v other | moveAssign v other | swap v other => v ∈ w.names ∧ other ∈ w.names

end PoolCall

/-- Two of many exchange what they have. -/
theorem exchange_perm {β : Type} {ns : List ℕ} {f g : ℕ → List β} (hnd : ns.Nodup) (hv : v ∈ ns) (hother : other ∈ ns) (hne : other ≠ v)
    (hsame : ∀ x, x ≠ v → x ≠ other → g x = f x) (hpair : (g v ++ g other).Perm (f v ++ f other)) : (ns.flatMap g).Perm (ns.flatMap f) := by
  have hmem : other ∈ ns.erase v := (hnd.mem_erase_iff).mpr ⟨hne, hother⟩
  have hperm : ns.Perm (v :: other :: (ns.erase v).erase other) := (List.perm_cons_erase hv).trans ((List.perm_cons_erase hmem).cons v)
  have hrest : ((ns.erase v).erase other).flatMap g = ((ns.erase v).erase other).flatMap f := by
    refine List.flatMap_congr fun x hx => ?_
    obtain ⟨hxo, hx⟩ := ((hnd.erase v).mem_erase_iff).mp hx
    exact hsame x ((hnd.mem_erase_iff).mp hx).1 hxo
  refine (hperm.flatMap_right g).trans (List.Perm.trans ?_ (hperm.flatMap_right f).symm)
  rw [List.flatMap_cons, List.flatMap_cons, List.flatMap_cons, List.flatMap_cons, hrest, ← List.append_assoc, ← List.append_assoc]
  exact hpair.append_right _

/-- The runs: pool calls in any order, each returning or throwing, and calls of others of the allocator between them. -/
inductive PoolRun (T : NodeType) : NodeWorld N M → Prop
  | start {g : Heap} {pool : ℕ → NodePool} {obj : ℕ → M} (hg : Reachable g) : PoolRun T ⟨g, fun _ => none, pool, obj, [], 0, 0⟩
  | returns {w w' : NodeWorld N M} (call : PoolCall N) (h : PoolRun T w) (hadm : call.Admissible T w)
      (hrun : (call.perform T).run w = (.ok (), w')) : PoolRun T w'
  | throws {w w' : NodeWorld N M} {e : NodeThrown} (call : PoolCall N) (h : PoolRun T w) (hadm : call.Admissible T w)
      (hrun : (call.perform T).run w = (.error e, w')) : PoolRun T w'
  | elsewhere {w : NodeWorld N M} {g : Heap} (call : Call) (h : PoolRun T w) (hadm : w.heap.Admissible call) (hforeign : w.Foreign call)
      (hexec : w.heap.exec call = some g) : PoolRun T (w.withHeap T g)

/-- What the blocks of a pool are: its cached nodes. -/
def poolDiscipline (T : NodeType) : Discipline N M (List ℕ) where
  blocks _ cached := T.blocks cached
  holds w v cached := Caches w v cached
  congr h _ hpool hcell := h.congr hpool fun p hp => hcell (p, T.sizeofNode) (NodeType.mem_blocks.mpr hp)

/-- Each pool caches its nodes, the live nodes are none of them, and no other block is held but `others`. -/
structure PoolsHold (T : NodeType) (w : NodeWorld N M) (own : ℕ → List ℕ) (live : List ℕ) (others : List (ℕ × ℕ)) : Prop where
  sides : SideBySide T (poolDiscipline T) w own (T.blocks live ++ others)
  live_iff : ∀ p, p ∈ live ↔ w.LiveNode p

theorem blocksOf_pools {fs : List ℕ} : (poolDiscipline T : Discipline N M (List ℕ)).blocksOf w own fs = T.blocks (fs.flatMap own) := by
  unfold Discipline.blocksOf NodeType.blocks poolDiscipline
  rw [List.map_flatMap]
  rfl

/-- Pools have changed hands; their nodes and the heap have not been touched. -/
theorem SideBySide.rearranged {pool : ℕ → NodePool} {ns : List ℕ} {own' : ℕ → List ℕ}
    (h : SideBySide T (poolDiscipline T) w own others) (hns : ns.Nodup) (hperm : (ns.flatMap own').Perm (w.names.flatMap own))
    (hcaches : ∀ v ∈ ns, FreeNodes w.cell (pool v).freeNodes (own' v) ∧ (pool v).cachedNodeCount = (own' v).length) :
    SideBySide T (poolDiscipline T) { w with pool := pool, names := ns } own' others := by
  have howns := h.owns
  rw [blocksOf_pools] at howns
  have hsame := howns.perm ((hperm.symm.map _).append_right others)
  refine ⟨hns, ?_, fun v hv => ⟨(hcaches v hv).1, (hcaches v hv).2⟩⟩
  rw [blocksOf_pools]
  exact ⟨hsame.holding, fun a ha => (by cases ha), hsame.placed, fun _ _ => rfl, fun _ _ => rfl, rfl⟩

/-- The pool of `v` has been at work, and nothing besides it has changed but cells and the heap. -/
structure PoolFrame (v : ℕ) (w w' : NodeWorld N M) : Prop where
  step : PoolStep w w'
  names_eq : w'.names = w.names
  pools_eq : ∀ u, u ≠ v → w'.pool u = w.pool u
  room : ∀ n al, AddressRoom w.heap n al → AddressRoom w'.heap n al

theorem PoolFrame.refl (v : ℕ) (w : NodeWorld N M) : PoolFrame v w w := ⟨.refl w, rfl, fun _ _ => rfl, fun _ _ hroom => hroom⟩

theorem PoolFrame.trans {t : NodeWorld N M} (h : PoolFrame v w w') (h' : PoolFrame v w' t) : PoolFrame v w t := by
  refine ⟨h.step.trans h'.step, h'.names_eq.trans h.names_eq, fun u hu => ?_, fun n al hroom => h'.room n al (h.room n al hroom)⟩
  exact (h'.pools_eq u hu).trans (h.pools_eq u hu)

theorem Owning.poolFrame {kept : List LiveAlloc} {mine : List (ℕ × ℕ)} (h : Owning T [v] w kept w' mine) (hs : PoolStep w w') :
    PoolFrame v w w' := by
  refine ⟨hs, h.names_same, fun u hu => h.pools_same u fun hm => hu (List.mem_singleton.mp hm), fun n al hroom A hA => ?_⟩
  rw [(place_eq h.holding.place.1).2, h.holding.place.2]
  exact hroom A hA

namespace PoolsHold

theorem rearranged {pool : ℕ → NodePool} {ns : List ℕ} {own' : ℕ → List ℕ} (h : PoolsHold T w own live others) (hns : ns.Nodup)
    (hperm : (ns.flatMap own').Perm (w.names.flatMap own))
    (hcaches : ∀ v ∈ ns, FreeNodes w.cell (pool v).freeNodes (own' v) ∧ (pool v).cachedNodeCount = (own' v).length) :
    PoolsHold T { w with pool := pool, names := ns } own' live others := ⟨h.sides.rearranged hns hperm hcaches, h.live_iff⟩

/-- The node blocks are all apart from each other. -/
theorem nodes_nodup (h : PoolsHold T w own live others) : (w.names.flatMap own ++ live).Nodup := by
  have howns := h.sides.owns
  rw [blocksOf_pools, ← List.append_assoc, ← NodeType.blocks_append] at howns
  exact howns.blocks_nodup

theorem caches (h : PoolsHold T w own live others) (hv : v ∈ w.names) : Caches w v (own v) := h.sides.holds v hv

/-- Nodes are fewer than there are addresses, as none is at the null address. -/
theorem row_lt {row : List ℕ} (h : PoolsHold T w own live others) (hsub : row ⊆ w.names.flatMap own ++ live) (hnd : row.Nodup) :
    row.length < walkFuel := by
  have howns := h.sides.owns
  rw [blocksOf_pools, ← List.append_assoc, ← NodeType.blocks_append] at howns
  have hrow : ∀ p ∈ row, p ≠ 0 ∧ p < 2^64 := fun p hp =>
    howns.address_bounds (n := T.sizeofNode) (List.mem_append_left _ (T.mem_blocks.mpr (hsub hp)))
  have hnull : (0 :: row).Nodup := List.nodup_cons.mpr ⟨fun hmem => (hrow 0 hmem).1 rfl, hnd⟩
  have hrange : 0 :: row ⊆ List.range (2^64) := by
    intro p hp
    rcases List.mem_cons.mp hp with rfl | hp
    · exact List.mem_range.mpr (by decide)
    · exact List.mem_range.mpr (hrow p hp).2
  have hlen := (hnull.subperm hrange).length_le
  rwa [List.length_range] at hlen

/-- The blocks that are held. -/
theorem mem_allocations (h : PoolsHold T w own live others) {r : ℕ × ℕ} :
    r ∈ w.heap.allocations ↔ r ∈ T.blocks (w.names.flatMap own) ∨ r ∈ T.blocks live ++ others := by
  rw [h.sides.owns.mem_allocations, blocksOf_pools, List.mem_append]

theorem not_live (h : PoolsHold T w own live others) (hv : v ∈ w.names) (hp : p ∈ own v) : ¬w.LiveNode p := by
  rintro ⟨n, hn⟩
  obtain ⟨-, next, hfree⟩ := (h.caches hv).chain.mem_free hp
  rw [hfree] at hn
  cases hn

/-- The nodes of the pool `v`, in focus. -/
theorem focus (h : PoolsHold T w own live others) (hv : v ∈ w.names) :
    Owning T [v] w (w.heap.beside (T.blocks (own v))) w (T.blocks (own v) ++ []) := by
  rw [List.append_nil]
  exact SideBySide.focus_one h.sides hv [v]

theorem ends_shrinkToFit {E : NodeThrown → NodeWorld N M → Prop} (h : PoolsHold T w own live others) (hv : v ∈ w.names) :
    (NodePool.shrinkToFit T v).Ends w
      (fun _ w' => PoolsHold T w' (Function.update own v []) live others ∧ PoolFrame v w w' ∧ (∀ q, q ∉ own v → w'.cell q = w.cell q) ∧
        (w'.pool v).nodePoolAllocations = (w.pool v).nodePoolAllocations-(own v).length ∧ w'.heap.freed = own v ++ w.heap.freed) E := by
  refine (NodePool.ends_shrinkToFit (h.focus hv) (List.mem_singleton_self v) (h.caches hv)).mono (fun _ w' hr => ?_) fun _ _ he => he
  obtain ⟨hown, hcaches, hstep, hcell, halloc, hfreed⟩ := hr
  have hput := SideBySide.put_one (s := []) h.sides hv hown hcaches
  refine ⟨⟨hput, fun p => ?_⟩, hown.poolFrame hstep, hcell, halloc, hfreed⟩
  rw [h.live_iff]
  by_cases hp : p ∈ own v
  · -- a cached node is gone, and was none that lives
    have hgone : ¬w'.LiveNode p := by
      rintro ⟨n, hn⟩
      obtain ⟨a, ha, rfl, -⟩ := hown.placed p _ hn
      rcases hown.holding.covered a ha with hk | ⟨r, hr, -⟩
      · apply (Heap.mem_beside.mp hk).2
        rwa [NodeType.blocks_addresses]
      · cases hr
    exact iff_of_false (h.not_live hv hp) hgone
  · unfold NodeWorld.LiveNode
    rw [hcell p hp]

/-- A node that did not live, out of the cache of the pool or new; or the pool has what it had. -/
theorem ends_create {n : ℕ → N} (h : PoolsHold T w own live others) (hv : v ∈ w.names)
    (hroom : AddressRoom w.heap T.sizeofNode T.alignofNode) :
    (NodePool.create T v n).Ends w
      (fun p w' => ¬w.LiveNode p ∧ w'.cell = Function.update w.cell p (some (.node (n p))) ∧ PoolFrame v w w' ∧
        ∃ cached, PoolsHold T w' (Function.update own v cached) (p :: live) others ∧
          (w'.pool v).nodePoolAllocations+(own v).length = (w.pool v).nodePoolAllocations+1+cached.length ∧
          w'.heap.freed = w.heap.freed)
      fun _ w' => PoolsHold T w' own live others ∧ w'.cell = w.cell ∧ PoolFrame v w w' ∧
        (w'.pool v).nodePoolAllocations = (w.pool v).nodePoolAllocations ∧ NodePool.SparesHeld w w' := by
  refine (NodePool.ends_create (h.focus hv) (List.mem_singleton_self v) (h.caches hv) hroom n).mono (fun p w' hr => ?_) fun e w' he => ?_
  · obtain ⟨ps, hcreated, hnew, hcount, hfreed⟩ := hr
    have hown := hcreated.own
    rw [List.append_nil] at hown
    have hperm : (T.blocks (p :: ps)).Perm (T.blocks ps ++ T.blocks [p]) := by
      rw [← NodeType.blocks_append]
      exact T.blocks_perm (List.perm_append_singleton p ps).symm
    -- the node leaves the cache, or is new, and is a live one from now on
    have hput := SideBySide.put_one (s := ps) h.sides hv (hown.perm hperm) hcreated.caches
    rw [← List.append_assoc, ← NodeType.blocks_append] at hput
    refine ⟨fun ⟨y, hy⟩ => hnew y hy, hcreated.cell_eq, hown.poolFrame hcreated.step, ps, ⟨hput, fun q => ?_⟩, ?_, hfreed⟩
    · unfold NodeWorld.LiveNode
      rw [List.mem_cons, h.live_iff, hcreated.cell_eq]
      by_cases hq : q = p
      · subst hq
        rw [Function.update_self]
        exact iff_of_true (Or.inl rfl) ⟨_, rfl⟩
      · rw [Function.update_of_ne hq]
        exact or_iff_right hq
    · rcases hcount with ⟨hcached, halloc⟩ | ⟨hcached, rfl, halloc⟩
      · rw [hcached, halloc, List.length_cons]
        omega
      · rw [hcached, halloc]
  · obtain ⟨he, hspares⟩ := he
    have hown := he.own
    have hput := SideBySide.put_one (s := own v) h.sides hv hown he.caches
    rw [Function.update_eq_self] at hput
    refine ⟨⟨hput, fun q => ?_⟩, he.cell_eq, hown.poolFrame he.step, he.allocations, hspares⟩
    unfold NodeWorld.LiveNode
    rw [he.cell_eq]
    exact h.live_iff q

/-- The heap is not touched where a node is destroyed. -/
theorem ends_destroy_heap {E : NodeThrown → NodeWorld N M → Prop} (hp : w.LiveNode p) :
    (NodePool.destroy v p).Ends w (fun _ w' => w'.heap = w.heap) E := by
  obtain ⟨y, hy⟩ := hp
  unfold NodePool.destroy
  by_cases hzero : p = 0
  · rw [if_pos hzero]
    exact ends_pure rfl
  · rw [if_neg hzero]
    refine ends_destroyNode_bind hy ?_
    unfold NodePool.pushCachedNode
    exact ends_get_bind (ends_store_bind (ends_store_bind (ends_store rfl)))

/-- A live node goes into the cache of the pool that destroys it. -/
theorem ends_destroy {E : NodeThrown → NodeWorld N M → Prop} (h : PoolsHold T w own live others) (hv : v ∈ w.names) (hp : w.LiveNode p) :
    (NodePool.destroy v p).Ends w
      (fun _ w' => PoolsHold T w' (Function.update own v (p :: own v)) (live.erase p) others ∧
        (∃ next, w'.cell = Function.update w.cell p (some (.free next))) ∧ PoolFrame v w w' ∧
        (w'.pool v).nodePoolAllocations = (w.pool v).nodePoolAllocations ∧ w'.heap = w.heap) E := by
  have hheap := ends_destroy_heap (v := v) (E := E) hp
  obtain ⟨y, hy⟩ := hp
  have hmem : p ∈ live := (h.live_iff p).mpr ⟨y, hy⟩
  have hnd : live.Nodup := (List.nodup_append.mp h.nodes_nodup).2.1
  have hsides : SideBySide T (poolDiscipline T) w own (T.blocks [p] ++ (T.blocks (live.erase p) ++ others)) := by
    refine ⟨h.sides.nodup, h.sides.owns.perm (List.Perm.append_left _ ?_), h.sides.holds⟩
    rw [← List.append_assoc, ← NodeType.blocks_append]
    exact ((List.perm_cons_erase hmem).map _).append_right others
  have hfocus := (SideBySide.focus_taking hsides (SideBySide.perm_erase hv)).focus [v]
  rw [Discipline.blocksOf_cons, Discipline.blocksOf_nil, List.append_nil] at hfocus
  have hperm : (T.blocks (own v) ++ T.blocks [p]).Perm (T.blocks (p :: own v) ++ []) := by
    rw [List.append_nil, ← NodeType.blocks_append]
    exact T.blocks_perm (List.perm_append_singleton p (own v))
  refine ((NodePool.ends_destroy (hfocus.perm hperm) (List.mem_singleton_self v) (h.caches hv) hy).and hheap).mono (fun _ w' hr => ?_)
    fun _ _ he => he.1
  obtain ⟨⟨⟨next, hcell⟩, hstep, hown, hcaches, halloc⟩, hsame⟩ := hr
  have hput := SideBySide.put_one_taking (s := p :: own v) hsides hv hown hcaches
  refine ⟨⟨hput, fun q => ?_⟩, ⟨next, hcell⟩, hown.poolFrame hstep, halloc, hsame⟩
  unfold NodeWorld.LiveNode
  rw [hnd.mem_erase_iff, h.live_iff, hcell]
  by_cases hq : q = p
  · subst hq
    rw [Function.update_self]
    exact iff_of_false (fun hcon => hcon.1 rfl) fun ⟨n, hn⟩ => (by cases hn)
  · rw [Function.update_of_ne hq]
    exact and_iff_right hq

theorem names_nodup (h : PoolsHold T w own live others) : w.names.Nodup := h.sides.nodup

/-- A pool without nodes has come to be. -/
theorem ends_construct {E : NodeThrown → NodeWorld N M → Prop} (h : PoolsHold T w own live others) (hv : v ∉ w.names) :
    (NodePool.construct v).Ends w (fun _ w' => PoolsHold T w' (Function.update own v []) live others) E := by
  have hne : ∀ x ∈ w.names, x ≠ v := fun x hx heq => hv (heq ▸ hx)
  unfold NodePool.construct
  refine ends_store_bind (ends_store (h.rearranged (List.nodup_cons.mpr ⟨hv, h.names_nodup⟩) ?_ fun x hx => ?_))
  · rw [List.flatMap_cons, Function.update_self, List.nil_append, List.flatMap_congr fun x hx => Function.update_of_ne (hne x hx) _ _]
  · dsimp only at hx ⊢
    rcases List.mem_cons.mp hx with rfl | hx
    · rw [Function.update_self, Function.update_self]
      exact ⟨rfl, rfl⟩
    · rw [Function.update_of_ne (hne x hx), Function.update_of_ne (hne x hx)]
      exact ⟨(h.caches hx).chain, (h.caches hx).count⟩

theorem flatMap_emptied (h : PoolsHold T w own live others) (hv : v ∈ w.names) :
    (w.names.flatMap own).Perm (w.names.flatMap (Function.update own v []) ++ own v) := by
  have hperm := List.perm_cons_erase hv
  have hrest : (w.names.erase v).flatMap (Function.update own v []) = (w.names.erase v).flatMap own :=
    List.flatMap_congr fun x hx => Function.update_of_ne ((h.names_nodup.mem_erase_iff).mp hx).1 _ _
  refine (hperm.flatMap_right own).trans (List.Perm.trans ?_ ((hperm.flatMap_right _).symm.append_right _))
  rw [List.flatMap_cons, List.flatMap_cons, Function.update_self, List.nil_append, hrest]
  exact List.perm_append_comm

/-- Two pools exchange their nodes. -/
theorem flatMap_exchange {own' : ℕ → List ℕ} (h : PoolsHold T w own live others) (hv : v ∈ w.names) (hother : other ∈ w.names)
    (hne : other ≠ v) (hsame : ∀ x, x ≠ v → x ≠ other → own' x = own x) (hpair : (own' v ++ own' other).Perm (own v ++ own other)) :
    (w.names.flatMap own').Perm (w.names.flatMap own) := exchange_perm h.names_nodup hv hother hne hsame hpair

/-- The pools of `v` and `other` have been exchanged. -/
theorem swapped (h : PoolsHold T w own live others) (hv : v ∈ w.names) (hother : other ∈ w.names) (hne : other ≠ v) :
    PoolsHold T { w with pool := Function.update (Function.update w.pool v (w.pool other)) other (w.pool v) }
      (Function.update (Function.update own v (own other)) other (own v)) live others := by
  refine h.rearranged h.names_nodup ?_ fun x hx => ?_
  · refine h.flatMap_exchange hv hother hne (fun x hxv hxo => ?_) ?_
    · rw [Function.update_of_ne hxo, Function.update_of_ne hxv]
    · rw [Function.update_of_ne (Ne.symm hne), Function.update_self, Function.update_self]
      exact List.perm_append_comm
  · by_cases hxo : x = other
    · subst hxo
      rw [Function.update_self, Function.update_self]
      exact ⟨(h.caches hv).chain, (h.caches hv).count⟩
    · rw [Function.update_of_ne hxo, Function.update_of_ne hxo]
      by_cases hxv : x = v
      · subst hxv
        rw [Function.update_self, Function.update_self]
        exact ⟨(h.caches hother).chain, (h.caches hother).count⟩
      · rw [Function.update_of_ne hxv, Function.update_of_ne hxv]
        exact ⟨(h.caches hx).chain, (h.caches hx).count⟩

theorem ends_swap {E : NodeThrown → NodeWorld N M → Prop} (h : PoolsHold T w own live others) (hv : v ∈ w.names) (hother : other ∈ w.names) :
    (NodePool.swap v other).Ends w
      (fun _ w' => PoolsHold T w' (Function.update (Function.update own v (own other)) other (own v)) live others) E := by
  unfold NodePool.swap
  by_cases hne : other = v
  · subst hne
    refine ends_get_bind (ends_store_bind (ends_store ?_))
    dsimp only
    rw [Function.update_idem, Function.update_idem, Function.update_eq_self, Function.update_eq_self]
    exact h
  · exact ends_get_bind (ends_store_bind (ends_store (h.swapped hv hother hne)))

/-- The nodes of `other` go over to `v`, which has none. -/
theorem takeFrom {names : List ℕ} (h : PoolsHold T w own live others) (hnames : names.Nodup) (hother : other ∈ names) (hne : other ≠ v)
    (hmem : ∀ x ∈ names, x ≠ v → x ∈ w.names)
    (hperm : (names.flatMap (Function.update (Function.update own v (own other)) other [])).Perm (w.names.flatMap own)) :
    PoolsHold T { w with pool := Function.update (Function.update w.pool v (w.pool other)) other .empty, names := names }
      (Function.update (Function.update own v (own other)) other []) live others := by
  refine h.rearranged hnames hperm fun x hx => ?_
  by_cases hxo : x = other
  · subst hxo
    rw [Function.update_self, Function.update_self]
    exact ⟨rfl, rfl⟩
  · rw [Function.update_of_ne hxo, Function.update_of_ne hxo]
    by_cases hxv : x = v
    · subst hxv
      rw [Function.update_self, Function.update_self]
      have hcaches := h.caches (hmem other hother hne)
      exact ⟨hcaches.chain, hcaches.count⟩
    · rw [Function.update_of_ne hxv, Function.update_of_ne hxv]
      have hcaches := h.caches (hmem x hx hxv)
      exact ⟨hcaches.chain, hcaches.count⟩

theorem ends_moveConstruct {E : NodeThrown → NodeWorld N M → Prop} (h : PoolsHold T w own live others) (hv : v ∉ w.names)
    (hother : other ∈ w.names) :
    (NodePool.moveConstruct v other).Ends w
      (fun _ w' => PoolsHold T w' (Function.update (Function.update own v (own other)) other []) live others) E := by
  have hne : ∀ x ∈ w.names, x ≠ v := fun x hx heq => hv (heq ▸ hx)
  have htake : (NodePool.takeFrom v other).Ends w
      (fun _ w' => w' = { w with pool := Function.update (Function.update w.pool v (w.pool other)) other .empty }) E := by
    unfold NodePool.takeFrom
    exact ends_get_bind (ends_store_bind (ends_store rfl))
  unfold NodePool.moveConstruct
  refine htake.bind fun _ t ht => ends_store ?_
  subst ht
  refine h.takeFrom (List.nodup_cons.mpr ⟨hv, h.names_nodup⟩) (List.mem_cons_of_mem _ hother) (hne other hother)
    (fun x hx hxv => (List.mem_cons.mp hx).resolve_left hxv) ?_
  have hperm := List.perm_cons_erase hother
  have hrest : (w.names.erase other).flatMap (Function.update (Function.update own v (own other)) other []) =
      (w.names.erase other).flatMap own := by
    refine List.flatMap_congr fun x hx => ?_
    obtain ⟨hxo, hx⟩ := (h.names_nodup.mem_erase_iff).mp hx
    rw [Function.update_of_ne hxo, Function.update_of_ne (hne x hx)]
  rw [List.flatMap_cons, Function.update_of_ne (Ne.symm (hne other hother)), Function.update_self]
  refine List.Perm.trans (List.Perm.append_left _ (hperm.flatMap_right _)) (List.Perm.trans ?_ (hperm.flatMap_right own).symm)
  rw [List.flatMap_cons, List.flatMap_cons, Function.update_self, List.nil_append, hrest]

theorem ends_moveAssign {E : NodeThrown → NodeWorld N M → Prop} (h : PoolsHold T w own live others) (hv : v ∈ w.names)
    (hother : other ∈ w.names) : (NodePool.moveAssign T v other).Ends w (fun _ w' => ∃ own', PoolsHold T w' own' live others) E := by
  unfold NodePool.moveAssign
  by_cases heq : v = other
  · rw [if_pos heq]
    exact ends_pure ⟨own, h⟩
  · rw [if_neg heq]
    refine (h.ends_shrinkToFit hv).bind fun _ t ht => ?_
    obtain ⟨hsh, hframe, -⟩ := ht
    rw [← hframe.names_eq] at hv hother
    unfold NodePool.takeFrom
    refine ends_get_bind (ends_store_bind (ends_store ⟨_, hsh.takeFrom hsh.names_nodup hother (Ne.symm heq) (fun x hx _ => hx) ?_⟩))
    refine hsh.flatMap_exchange hv hother (Ne.symm heq) (fun x hxv hxo => ?_) ?_
    · rw [Function.update_of_ne hxo, Function.update_of_ne hxv]
    · rw [Function.update_of_ne heq, Function.update_self, Function.update_self, Function.update_self,
        Function.update_of_ne (Ne.symm heq), List.append_nil, List.nil_append]

theorem ends_copyAssign {E : NodeThrown → NodeWorld N M → Prop} (h : PoolsHold T w own live others) (hv : v ∈ w.names) :
    (NodePool.copyAssign T v other).Ends w (fun _ w' => ∃ own', PoolsHold T w' own' live others) E := by
  unfold NodePool.copyAssign
  by_cases heq : v = other
  · rw [if_pos heq]
    exact ends_pure ⟨own, h⟩
  · rw [if_neg heq]
    refine (h.ends_shrinkToFit hv).bind fun _ t ht => ends_store ⟨_, ht.1.rearranged ht.1.names_nodup (List.Perm.refl _) fun x hx => ?_⟩
    dsimp only
    by_cases hxv : x = v
    · subst hxv
      rw [Function.update_self, Function.update_self]
      exact ⟨rfl, rfl⟩
    · rw [Function.update_of_ne hxv]
      exact ⟨(ht.1.caches hx).chain, (ht.1.caches hx).count⟩

/-- A call of somebody else keeps the nodes, live and cached, and all that is held besides them is somebody else's. -/
theorem elsewhere_foreign {call : Call} {g : Heap} (h : PoolsHold T w own live others) (hadm : w.heap.Admissible call)
    (hforeign : w.Foreign call) (hexec : w.heap.exec call = some g) :
    w.withHeap T g = { w with heap := g } ∧
      PoolsHold T { w with heap := g } own live (g.foreign (T.blocks (w.names.flatMap own ++ live))) := by
  have howns := h.sides.owns
  rw [← List.append_assoc] at howns
  have hcells : ∀ r ∈ (poolDiscipline T).blocksOf w own w.names ++ T.blocks live, w.cell r.1 ≠ none := by
    intro r hr
    rcases List.mem_append.mp hr with hr | hr
    · obtain ⟨v, hv, hr⟩ := List.mem_flatMap.mp hr
      obtain ⟨p, hp, rfl⟩ := List.mem_map.mp hr
      obtain ⟨-, next, hnext⟩ := (h.caches hv).chain.mem_free hp
      rw [hnext]
      exact Option.some_ne_none _
    · obtain ⟨p, hp, rfl⟩ := List.mem_map.mp hr
      obtain ⟨n, hn⟩ := (h.live_iff p).mp hp
      rw [hn]
      exact Option.some_ne_none _
  obtain ⟨hsame, howns'⟩ := howns.elsewhere_foreign hcells hadm hforeign hexec
  have hblocks : (poolDiscipline T).blocksOf w own w.names ++ T.blocks live = T.blocks (w.names.flatMap own ++ live) := by
    rw [blocksOf_pools]
    exact List.map_append.symm
  rw [hsame, List.append_assoc, hblocks] at howns'
  exact ⟨hsame, ⟨h.names_nodup, howns', fun v hv => ⟨(h.caches hv).chain, (h.caches hv).count⟩⟩, h.live_iff⟩

theorem elsewhere {call : Call} {g : Heap} (h : PoolsHold T w own live others) (hadm : w.heap.Admissible call) (hforeign : w.Foreign call)
    (hexec : w.heap.exec call = some g) : ∃ own' live' others', PoolsHold T (w.withHeap T g) own' live' others' := by
  obtain ⟨hsame, hhold⟩ := h.elsewhere_foreign hadm hforeign hexec
  rw [hsame]
  exact ⟨own, live, _, hhold⟩

/-- Every call keeps the pools in order. -/
theorem ends_perform (h : PoolsHold T w own live others) (call : PoolCall N) (hadm : call.Admissible T w) :
    (call.perform T).Ends w (fun _ w' => ∃ own' live' others', PoolsHold T w' own' live' others')
      fun _ w' => ∃ own' live' others', PoolsHold T w' own' live' others' := by
  cases call with
  | construct v => exact (h.ends_construct hadm).mono (fun _ _ hr => ⟨_, _, _, hr⟩) fun _ _ he => he
  | copyConstruct v other => exact (h.ends_construct hadm.1).mono (fun _ _ hr => ⟨_, _, _, hr⟩) fun _ _ he => he
  | moveConstruct v other => exact (h.ends_moveConstruct hadm.1 hadm.2).mono (fun _ _ hr => ⟨_, _, _, hr⟩) fun _ _ he => he
  | create v n =>
    refine ((h.ends_create hadm.1 hadm.2).mono (fun _ _ hq => hq) fun _ _ he => ⟨_, _, _, he.1⟩).bind fun _ _ hr => ends_pure ?_
    obtain ⟨-, -, -, cached, hhold, -⟩ := hr
    exact ⟨_, _, _, hhold⟩
  | destroy v node =>
    obtain ⟨hv, rfl | hlive⟩ := hadm
    · exact ends_pure ⟨_, _, _, h⟩
    · exact (h.ends_destroy hv hlive).mono (fun _ _ hr => ⟨_, _, _, hr.1⟩) fun _ _ he => he
  | shrinkToFit v => exact (h.ends_shrinkToFit hadm).mono (fun _ _ hr => ⟨_, _, _, hr.1⟩) fun _ _ he => he
  | copyAssign v other =>
    refine (h.ends_copyAssign hadm.1).mono (fun _ _ hr => ?_) fun _ _ he => he
    obtain ⟨own', hhold⟩ := hr
    exact ⟨_, _, _, hhold⟩
  | moveAssign v other =>
    refine (h.ends_moveAssign hadm.1 hadm.2).mono (fun _ _ hr => ?_) fun _ _ he => he
    obtain ⟨own', hhold⟩ := hr
    exact ⟨_, _, _, hhold⟩
  | swap v other => exact (h.ends_swap hadm.1 hadm.2).mono (fun _ _ hr => ⟨_, _, _, hr⟩) fun _ _ he => he

end PoolsHold

theorem PoolRun.hold (h : PoolRun T w) : ∃ own live others, PoolsHold T w own live others := by
  induction h with
  | start hg =>
    obtain ⟨bs, l, hinv⟩ := hg.inv
    refine ⟨fun _ => [], [], _, SideBySide.start hinv _, fun p => ?_⟩
    exact iff_of_false List.not_mem_nil fun ⟨n, hn⟩ => (by cases hn)
  | returns call _ hadm hrun ih =>
    obtain ⟨own, live, others, hw⟩ := ih
    have hends := hw.ends_perform call hadm
    unfold Ends at hends
    rw [hrun] at hends
    exact hends
  | throws call _ hadm hrun ih =>
    obtain ⟨own, live, others, hw⟩ := ih
    have hends := hw.ends_perform call hadm
    unfold Ends at hends
    rw [hrun] at hends
    exact hends
  | elsewhere call _ hadm hforeign hexec ih =>
    obtain ⟨own, live, others, hw⟩ := ih
    exact hw.elsewhere hadm hforeign hexec

/-- What a pool has to be at any time: its cache is a chain of its own without a live node, `create` makes a node where none lives or
leaves the pool as it was, and `shrink_to_fit` gives back each cached node once. -/
structure PoolSound (T : NodeType) (w : NodeWorld N M) (v : ℕ) (cached : List ℕ) : Prop where
  chain : FreeNodes w.cell (w.pool v).freeNodes cached
  acyclic : cached.Nodup
  count : (w.pool v).cachedNodeCount = cached.length
  not_live : ∀ p ∈ cached, ¬w.LiveNode p
  create : AddressRoom w.heap T.sizeofNode T.alignofNode → ∀ n, (NodePool.create T v n).Ends w
    (fun p w' => ¬w.LiveNode p ∧ w'.cell p = some (.node (n p)))
    fun _ w' => FreeNodes w'.cell (w'.pool v).freeNodes cached ∧ (w'.pool v).cachedNodeCount = (w.pool v).cachedNodeCount ∧
      (w'.pool v).nodePoolAllocations = (w.pool v).nodePoolAllocations ∧ ∀ r, r ∈ w'.heap.allocations ↔ r ∈ w.heap.allocations
  shrink : (NodePool.shrinkToFit T v).Ends w
    (fun _ w' => w'.heap.freed = cached ++ w.heap.freed ∧ (w'.pool v).freeNodes = 0 ∧ (w'.pool v).cachedNodeCount = 0 ∧
      ∀ r, r ∈ w.heap.allocations ↔ r ∈ w'.heap.allocations ∨ r ∈ T.blocks cached) fun _ _ => False

/-- The caches of the pools are sound in every run, and no node is in two of them. -/
theorem node_pools_sound (h : PoolRun T w) : ∃ cached : ℕ → List ℕ, (∀ v ∈ w.names, PoolSound T w v (cached v)) ∧
    ∀ v ∈ w.names, ∀ other ∈ w.names, v ≠ other → (cached v).Disjoint (cached other) := by
  obtain ⟨own, live, others, hw⟩ := h.hold
  have hnd := (List.nodup_append.mp hw.nodes_nodup).1
  refine ⟨own, fun v hv => ?_, fun v hv other hother hne => ?_⟩
  · have hcaches := hw.caches hv
    refine ⟨hcaches.chain, (List.nodup_flatMap.mp hnd).1 v hv, hcaches.count, fun p hp => hw.not_live hv hp, fun hroom n => ?_, ?_⟩
    · refine (hw.ends_create hv hroom).mono (fun p w' hr => ⟨hr.1, ?_⟩) fun e w' he => ?_
      · rw [hr.2.1]
        exact Function.update_self ..
      obtain ⟨hw', -, hframe, halloc, -⟩ := he
      have hcaches' := hw'.caches (hframe.names_eq ▸ hv)
      refine ⟨hcaches'.chain, hcaches'.count.trans hcaches.count.symm, halloc, fun r => ?_⟩
      rw [hw'.mem_allocations, hw.mem_allocations, hframe.names_eq]
    · refine (hw.ends_shrinkToFit hv).mono (fun _ w' hr => ?_) fun _ _ he => he
      obtain ⟨hw', hframe, -, -, hfreed⟩ := hr
      have hnames := hframe.names_eq
      have hcaches' := hw'.caches (hnames ▸ hv)
      rw [Function.update_self] at hcaches'
      refine ⟨hfreed, hcaches'.chain, hcaches'.count, fun r => ?_⟩
      rw [hw.mem_allocations, hw'.mem_allocations, hnames, or_right_comm]
      refine or_congr_left (Iff.trans ?_ List.mem_append)
      rw [← NodeType.blocks_append]
      exact (T.blocks_perm (hw.flatMap_emptied hv)).mem_iff
  · have hsymm : Std.Symm (Function.onFun List.Disjoint own) := ⟨fun _ _ hdis _ ha hb => hdis hb ha⟩
    exact (List.nodup_flatMap.mp hnd).2.forall hv hother hne

theorem PoolRun.perform (h : PoolRun T w) (call : PoolCall N) (hadm : call.Admissible T w) (hok : ((call.perform T).run w).1 = .ok ()) :
    PoolRun T ((call.perform T).run w).2 := .returns call h hadm (Prod.ext hok rfl)

theorem plainNodes_fit : 8 ≤ 24 := by decide

/-- Nodes of 24 bytes whose constructors do not throw. -/
def plainNodes : NodeType where
  sizeofNode := 24
  alignofNode := 8
  throws _ := false
  hashThrows _ := false
  fits_link := plainNodes_fit
  align_pow := word_align

/-- The small segment without pools. -/
def poolWorld : NodeWorld ℕ Unit := ⟨smallHeap, fun _ => none, fun _ => .empty, fun _ => (), [], 0, 0⟩

def afterPoolCalls (T : NodeType) (calls : List (PoolCall N)) (w : NodeWorld N M) : NodeWorld N M :=
  calls.foldl (fun w call => ((call.perform T).run w).2) w

/-- One pool has made a node, and another has destroyed it. -/
def passedNode : NodeWorld ℕ Unit :=
  afterPoolCalls plainNodes [.construct 0, .construct 1, .create 0 fun _ => 7, .destroy 1 4256] poolWorld

theorem node_pools_sound_passedNode : ∃ cached, PoolSound plainNodes passedNode 1 cached := by
  have h₀ : PoolRun plainNodes poolWorld := .start smallHeap_reachable
  have h₁ := h₀.perform (.construct 0) List.not_mem_nil (by decide +kernel)
  have h₂ := h₁.perform (.construct 1) (show _ ∉ _ by decide +kernel) (by decide +kernel)
  have h₃ := h₂.perform (.create 0 fun _ => 7) ⟨by decide +kernel, by decide +kernel⟩ (by decide +kernel)
  have hlive : (((PoolCall.create 0 fun _ => 7).perform plainNodes).run ((((PoolCall.construct 1).perform plainNodes).run
      (((PoolCall.construct 0).perform plainNodes).run poolWorld).2).2)).2.LiveNode 4256 := ⟨7, by decide +kernel⟩
  have h₄ := h₃.perform (.destroy 1 4256) ⟨by decide +kernel, Or.inr hlive⟩ (by decide +kernel)
  obtain ⟨cached, hsound, -⟩ := node_pools_sound h₄
  exact ⟨_, hsound 1 (by decide +kernel)⟩

end ShmNext
