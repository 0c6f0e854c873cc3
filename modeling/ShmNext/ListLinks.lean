import ShmNext.SharedList
import ShmNext.CircularLinks

/-! The links of the lists as functions of what a pointer names, and any number of lists over one segment: each
is a circle of its own nodes. -/
namespace ShmNext
open Prog NodeOp

variable {E α : Type} {T : ListType E} {w w' t : ListWorld E} {q r x : BaseNode} {f f' : BaseLink} {v u n p : ℕ}
  {Q : α → ListWorld E → Prop} {F : NodeThrown → ListWorld E → Prop}

namespace NodeWorld

/-- `q->f`, as it stands. -/
def ptr (w : ListWorld E) (f : BaseLink) : BaseNode → BaseNode
  | .sentinel v => (w.obj v).links f
  | .node p => w.link f p

/-- `q` may be read through: a sentinel, or a live node. -/
def Valid (w : ListWorld E) : BaseNode → Prop
  | .sentinel _ => True
  | .node p => w.IsNode p

theorem valid_sentinel : w.Valid (.sentinel v) := trivial

/-- The state behind `q->f = x`. -/
def setPtr (w : ListWorld E) (q : BaseNode) (f : BaseLink) (x : BaseNode) : ListWorld E :=
  match q with
  | .sentinel v => { w with obj := Function.update w.obj v { w.obj v with links := Function.update (w.obj v).links f x } }
  | .node p => w.setLink p f x

/-- The state behind `size_ = n`. -/
def setSize (w : ListWorld E) (v n : ℕ) : ListWorld E :=
  { w with obj := Function.update w.obj v { w.obj v with size := n } }

theorem ptr_setPtr (hq : w.Valid q) : (w.setPtr q f x).ptr f = Function.update (w.ptr f) q x := by
  funext r
  cases q with
  | sentinel v =>
    cases r with
    | sentinel u =>
      by_cases huv : u = v
      · subst huv
        unfold ptr setPtr
        dsimp only
        rw [Function.update_self, Function.update_self]
        exact Function.update_self ..
      · rw [Function.update_of_ne fun heq => huv (BaseNode.sentinel.inj heq)]
        unfold ptr setPtr
        dsimp only
        rw [Function.update_of_ne huv]
    | node p =>
      rw [Function.update_of_ne (by simp)]
      rfl
  | node p =>
    cases r with
    | sentinel u =>
      rw [Function.update_of_ne (by simp)]
      rfl
    | node p' =>
      refine (NodeWorld.link_setLink hq).trans ?_
      by_cases hp : p' = p
      · subst hp
        rw [if_pos ⟨rfl, rfl⟩, Function.update_self]
      · rw [if_neg fun hc => hp hc.2, Function.update_of_ne fun heq => hp (BaseNode.node.inj heq)]
        rfl

/-- The links the other way are as they were. -/
theorem ptr_setPtr_of_ne (h : f' ≠ f) : (w.setPtr q f x).ptr f' = w.ptr f' := by
  funext r
  cases q with
  | sentinel v =>
    cases r with
    | sentinel u =>
      by_cases huv : u = v
      · subst huv
        unfold ptr setPtr
        dsimp only
        rw [Function.update_self]
        exact Function.update_of_ne h _ _
      · unfold ptr setPtr
        dsimp only
        rw [Function.update_of_ne huv]
    | node p => rfl
  | node p =>
    cases r with
    | sentinel u => rfl
    | node p' => exact NodeWorld.link_setLink_of_ne h

@[simp] theorem ptr_setSize : (w.setSize v n).ptr f = w.ptr f := by
  funext r
  cases r with
  | sentinel u =>
    by_cases huv : u = v
    · subst huv
      unfold ptr setSize
      dsimp only
      rw [Function.update_self]
    · unfold ptr setSize
      dsimp only
      rw [Function.update_of_ne huv]
  | node p => rfl

@[simp] theorem size_setSize : ((w.setSize v n).obj v).size = n := by
  change (Function.update w.obj v { w.obj v with size := n } v).size = n
  rw [Function.update_self]

theorem size_setSize_of_ne (h : u ≠ v) : ((w.setSize v n).obj u).size = (w.obj u).size := by
  change (Function.update w.obj v { w.obj v with size := n } u).size = _
  rw [Function.update_of_ne h]

theorem size_setPtr : ((w.setPtr q f x).obj v).size = (w.obj v).size := by
  cases q with
  | sentinel u =>
    unfold setPtr
    dsimp only
    by_cases huv : v = u
    · subst huv
      rw [Function.update_self]
    · rw [Function.update_of_ne huv]
  | node p => rfl

end NodeWorld

/-- The nodes are linked in another way, and nothing else has happened but to the list objects. -/
structure Relinks (w w' : ListWorld E) : Prop where
  heap_eq : w'.heap = w.heap
  pool_eq : w'.pool = w.pool
  names_eq : w'.names = w.names
  cells : ∀ p, w'.cell p = w.cell p ∨ ∃ n n', w.cell p = some (.node n) ∧ w'.cell p = some (.node n') ∧ n'.elem = n.elem

namespace Relinks

theorem refl (w : ListWorld E) : Relinks w w := ⟨rfl, rfl, rfl, fun _ => Or.inl rfl⟩

theorem trans (h : Relinks w w') (h' : Relinks w' t) : Relinks w t := by
  refine ⟨h'.heap_eq.trans h.heap_eq, h'.pool_eq.trans h.pool_eq, h'.names_eq.trans h.names_eq, fun p => ?_⟩
  rcases h.cells p with heq | ⟨n, n', hn, hn', he⟩
  · rcases h'.cells p with heq' | ⟨m, m', hm, hm', he'⟩
    · exact Or.inl (heq'.trans heq)
    · exact Or.inr ⟨m, m', heq ▸ hm, hm', he'⟩
  · rcases h'.cells p with heq' | ⟨m, m', hm, hm', he'⟩
    · exact Or.inr ⟨n, n', hn, heq'.trans hn', he⟩
    · cases hn'.symm.trans hm
      exact Or.inr ⟨n, m', hn, hm', he'.trans he⟩

theorem setPtr (w : ListWorld E) (q : BaseNode) (f : BaseLink) (x : BaseNode) : Relinks w (w.setPtr q f x) := by
  cases q with
  | sentinel v => exact ⟨rfl, rfl, rfl, fun _ => Or.inl rfl⟩
  | node p =>
    refine ⟨rfl, rfl, rfl, fun p' => ?_⟩
    by_cases hp : p' = p
    · subst hp
      by_cases hnode : w.IsNode p'
      · obtain ⟨n, hn⟩ := hnode
        refine Or.inr ⟨n, { n with link := Function.update n.link f x }, hn, ?_, rfl⟩
        change Function.update w.cell p' _ p' = _
        rw [Function.update_self, hn]
        rfl
      · exact Or.inl (NodeWorld.setLink_cell_of_not hnode)
    · exact Or.inl (NodeWorld.setLink_cell_of_ne hp)

theorem setSize (w : ListWorld E) (v n : ℕ) : Relinks w (w.setSize v n) := ⟨rfl, rfl, rfl, fun _ => Or.inl rfl⟩

theorem isNode_iff (h : Relinks w w') : w'.IsNode p ↔ w.IsNode p := by
  unfold NodeWorld.IsNode
  rcases h.cells p with heq | ⟨n, n', hn, hn', -⟩
  · rw [heq]
  · rw [hn, hn']
    exact iff_of_true ⟨n', rfl⟩ ⟨n, rfl⟩

theorem valid_iff (h : Relinks w w') : w'.Valid q ↔ w.Valid q := by
  cases q with
  | sentinel v => exact Iff.rfl
  | node p => exact h.isNode_iff

theorem elem_eq (h : Relinks w w') (p : ℕ) : w'.elem? p = w.elem? p := by
  unfold NodeWorld.elem?
  rcases h.cells p with heq | ⟨n, n', hn, hn', he⟩
  · rw [heq]
  · rw [hn, hn']
    exact congrArg some he

/-- The pools do not care how the nodes are linked. -/
theorem pools {T : NodeType} {own : ℕ → List ℕ} {live : List ℕ} {others : List (ℕ × ℕ)} (h : Relinks w w')
    (hp : PoolsHold T w own live others) : PoolsHold T w' own live others := by
  have howns := hp.sides.owns
  have hholding := howns.holding
  rw [blocksOf_pools] at hholding
  refine ⟨⟨h.names_eq ▸ hp.sides.nodup, ⟨?_, fun a ha => (by cases ha), fun q c hc => ?_, fun _ _ => rfl, fun _ _ => rfl, rfl⟩,
    fun u hu => ?_⟩, fun p => (hp.live_iff p).trans h.isNode_iff.symm⟩
  · rw [blocksOf_pools, h.names_eq, h.heap_eq]
    exact hholding
  · rw [h.heap_eq]
    rcases h.cells q with heq | ⟨n, n', hn, hn', -⟩
    · exact howns.placed q c (heq ▸ hc)
    · obtain rfl := Option.some.inj (hn'.symm.trans hc)
      have hplaced := howns.placed q _ hn
      exact hplaced
  · rw [h.names_eq] at hu
    refine (hp.caches hu).congr (congrFun h.pool_eq u) fun p hm => ?_
    rcases h.cells p with heq | ⟨n, _, hn, -, -⟩
    · exact heq
    · exact absurd ⟨n, hn⟩ (hp.not_live hu hm)

end Relinks

namespace SharedMemoryList

/-! What the accesses come to. -/

theorem ends_readPtr_bind {k : BaseNode → ListOp E α} (hq : w.Valid q) (h : (k (w.ptr f q)).Ends w Q F) :
    (readPtr q f >>= k).Ends w Q F := by
  cases q with
  | sentinel v => exact h
  | node p => exact ends_readLink_bind hq h

theorem ends_setPtr_bind {k : Unit → ListOp E α} (hq : w.Valid q) (h : (k ()).Ends (w.setPtr q f x) Q F) :
    (setPtr q f x >>= k).Ends w Q F := by
  cases q with
  | sentinel v => exact h
  | node p => exact ends_setLink_bind hq h

theorem ends_setPtr {Q : Unit → ListWorld E → Prop} (hq : w.Valid q) (h : Q () (w.setPtr q f x)) : (setPtr q f x).Ends w Q F := by
  cases q with
  | sentinel v => exact h
  | node p => exact ends_setLink hq h

theorem ends_setSize_bind {k : Unit → ListOp E α} (h : (k ()).Ends (w.setSize v n) Q F) : (setSize v n >>= k).Ends w Q F := h

theorem ends_setSize {Q : Unit → ListWorld E → Prop} (h : Q () (w.setSize v n)) : (setSize v n).Ends w Q F := h

theorem ends_readValue_bind {k : E → ListOp E α} {e : E} (hp : w.elem? p = some e) (h : (k e).Ends w Q F) :
    (readValue (.node p) >>= k).Ends w Q F := ends_readElem_bind hp h

end SharedMemoryList

/-! The lists. -/

/-- The nodes of a sequence, as pointers name them. -/
def baseNodes (xs : List (ℕ × E)) : List BaseNode := xs.map fun a => .node a.1

@[simp] theorem baseNodes_append (xs ys : List (ℕ × E)) : baseNodes (xs ++ ys) = baseNodes xs ++ baseNodes ys := List.map_append

@[simp] theorem baseNodes_cons (a : ℕ × E) (xs : List (ℕ × E)) : baseNodes (a :: xs) = .node a.1 :: baseNodes xs := rfl

@[simp] theorem length_baseNodes (xs : List (ℕ × E)) : (baseNodes xs).length = xs.length := List.length_map _

theorem mem_baseNodes {xs : List (ℕ × E)} : q ∈ baseNodes xs ↔ ∃ a ∈ xs, q = .node a.1 := by
  unfold baseNodes
  rw [List.mem_map]
  exact exists_congr fun _ => and_congr_right fun _ => eq_comm

/-- The list object `v` has the nodes and values `xs`. -/
structure ListAt (w : ListWorld E) (v : ℕ) (xs : List (ℕ × E)) : Prop where
  circle : Circular (w.ptr .next) (w.ptr .prev) (.sentinel v) (baseNodes xs)
  size_eq : (w.obj v).size = xs.length
  elems : ∀ a ∈ xs, w.elem? a.1 = some a.2

/-- The sentinel of `v` and its nodes. -/
abbrev circleOf (v : ℕ) (xs : List (ℕ × E)) : List BaseNode := .sentinel v :: baseNodes xs

/-- The addresses of the nodes of the lists `vs`. -/
def nodesOf (A : ℕ → List (ℕ × E)) (vs : List ℕ) : List ℕ := vs.flatMap fun v => (A v).map Prod.fst

/-- Each list has its circle, all live nodes are on one of them, and each pool has its cache; besides these only `others` is held.
Where `tidy` is asked for, the counters of the pools are right. -/
structure ListsHold (T : ListType E) (tidy : Prop) (w : ListWorld E) (A : ℕ → List (ℕ × E)) (own : ℕ → List ℕ)
    (others : List (ℕ × ℕ)) : Prop where
  pools : PoolsHold T.toNodeType w own (nodesOf A w.names) others
  list : ∀ v ∈ w.names, ListAt w v (A v)
  counted : tidy → ∀ v ∈ w.names, (w.pool v).nodePoolAllocations = (A v).length+(own v).length

variable {A A' : ℕ → List (ℕ × E)} {own own' : ℕ → List ℕ} {others : List (ℕ × ℕ)} {live live' vs : List ℕ} {xs as bs : List (ℕ × E)}
  {tidy : Prop} {S S' : BaseNode → Prop} {a : ℕ × E}

/-- Outside `S` everything is as it was. -/
structure Untouched (S : BaseNode → Prop) (w w' : ListWorld E) : Prop where
  ptr_eq : ∀ f q, ¬S q → w'.ptr f q = w.ptr f q
  elem_eq : ∀ p, ¬S (.node p) → w'.elem? p = w.elem? p
  size_eq : ∀ v, ¬S (.sentinel v) → (w'.obj v).size = (w.obj v).size
  pool_eq : ∀ v, ¬S (.sentinel v) → w'.pool v = w.pool v

namespace Untouched

theorem refl (w : ListWorld E) : Untouched S w w := ⟨fun _ _ _ => rfl, fun _ _ => rfl, fun _ _ => rfl, fun _ _ => rfl⟩

theorem trans (h : Untouched S w w') (h' : Untouched S w' t) : Untouched S w t := by
  constructor
  · exact fun f q hq => (h'.ptr_eq f q hq).trans (h.ptr_eq f q hq)
  · exact fun p hp => (h'.elem_eq p hp).trans (h.elem_eq p hp)
  · exact fun v hv => (h'.size_eq v hv).trans (h.size_eq v hv)
  · exact fun v hv => (h'.pool_eq v hv).trans (h.pool_eq v hv)

theorem setPtr (hq : w.Valid q) (hS : S q) : Untouched S w (w.setPtr q f x) := by
  refine ⟨fun f' r hr => ?_, fun p _ => (Relinks.setPtr w q f x).elem_eq p, fun v _ => NodeWorld.size_setPtr,
    fun v _ => congrFun (Relinks.setPtr w q f x).pool_eq v⟩
  by_cases hf : f' = f
  · subst hf
    rw [NodeWorld.ptr_setPtr hq]
    exact Function.update_of_ne (fun heq => hr (by rw [heq]; exact hS)) _ _
  · rw [NodeWorld.ptr_setPtr_of_ne hf]

theorem mono (h : Untouched S w w') (hsub : ∀ q, S q → S' q) : Untouched S' w w' :=
  ⟨fun f q hq => h.ptr_eq f q fun hin => hq (hsub q hin), fun p hp => h.elem_eq p fun hin => hp (hsub _ hin),
    fun v hv => h.size_eq v fun hin => hv (hsub _ hin), fun v hv => h.pool_eq v fun hin => hv (hsub _ hin)⟩

theorem setSize (hS : S (.sentinel v)) : Untouched S w (w.setSize v n) := by
  refine ⟨fun f r _ => congrFun NodeWorld.ptr_setSize r, fun _ _ => rfl, fun u hu => ?_, fun _ _ => rfl⟩
  exact NodeWorld.size_setSize_of_ne fun heq => hu (by rw [heq]; exact hS)

end Untouched

/-- A pool has been at work. -/
theorem PoolFrame.untouched (h : PoolFrame v w w') (hv : S (.sentinel v)) (hcell : ∀ p, ¬S (.node p) → w'.cell p = w.cell p) :
    Untouched S w w' := by
  refine ⟨fun f q hq => ?_, fun p hp => ?_, fun u _ => by rw [h.step.obj_eq], fun u hu => h.pools_eq u fun heq => hu (by rw [heq]; exact hv)⟩
  · cases q with
    | sentinel u =>
      unfold NodeWorld.ptr
      rw [h.step.obj_eq]
    | node p =>
      unfold NodeWorld.ptr NodeWorld.link
      dsimp only
      rw [hcell p hq]
  · unfold NodeWorld.elem?
    rw [hcell p hp]

theorem ListAt.congr (h : ListAt w v xs) (hu : Untouched S w w') (hS : ∀ q ∈ circleOf v xs, ¬S q) : ListAt w' v xs := by
  refine ⟨h.circle.congr (fun q hq => hu.ptr_eq _ q (hS q hq)) fun q hq => hu.ptr_eq _ q (hS q hq), ?_, fun a ha => ?_⟩
  · rw [hu.size_eq v (hS _ List.mem_cons_self)]
    exact h.size_eq
  · rw [hu.elem_eq a.1 (hS _ (List.mem_cons_of_mem _ (mem_baseNodes.mpr ⟨a, ha, rfl⟩)))]
    exact h.elems a ha

theorem nodesOf_congr (h : ∀ u ∈ vs, A' u = A u) : nodesOf A' vs = nodesOf A vs :=
  List.flatMap_congr fun u hu => by rw [h u hu]

theorem nodesOf_perm_erase (hv : v ∈ vs) : (nodesOf A vs).Perm ((A v).map Prod.fst ++ nodesOf A (vs.erase v)) :=
  (List.perm_cons_erase hv).flatMap_right _

theorem nodesOf_update (hnd : vs.Nodup) (hv : v ∈ vs) :
    (nodesOf (Function.update A v xs) vs).Perm (xs.map Prod.fst ++ nodesOf A (vs.erase v)) := by
  have hperm := nodesOf_perm_erase (A := Function.update A v xs) hv
  rwa [Function.update_self, nodesOf_congr fun u hu => Function.update_of_ne ((hnd.mem_erase_iff).mp hu).1 _ _] at hperm

theorem nodesOf_row_nodup (h : (nodesOf A vs).Nodup) (hv : v ∈ vs) : ((A v).map Prod.fst).Nodup := (List.nodup_flatMap.mp h).1 v hv

theorem circleOf_nodup (h : (xs.map Prod.fst).Nodup) : (circleOf v xs).Nodup := by
  refine List.nodup_cons.mpr ⟨fun hmem => ?_, ?_⟩
  · obtain ⟨a, -, heq⟩ := mem_baseNodes.mp hmem
    cases heq
  · have hnd := h.map (f := BaseNode.node) fun p q heq => BaseNode.node.inj heq
    rwa [List.map_map] at hnd

/-- No node is on two circles. -/
theorem circles_apart (h : (nodesOf A vs).Nodup) (hu : u ∈ vs) (hv : v ∈ vs) (hne : u ≠ v) (hq : q ∈ circleOf u (A u)) :
    q ∉ circleOf v (A v) := by
  intro hq'
  rcases List.mem_cons.mp hq with rfl | hq
  · rcases List.mem_cons.mp hq' with heq | hq'
    · exact hne (BaseNode.sentinel.inj heq)
    · obtain ⟨b, -, heq⟩ := mem_baseNodes.mp hq'
      cases heq
  · obtain ⟨a, ha, rfl⟩ := mem_baseNodes.mp hq
    rcases List.mem_cons.mp hq' with heq | hq'
    · cases heq
    · obtain ⟨b, hb, heq⟩ := mem_baseNodes.mp hq'
      have hsymm : Std.Symm (Function.onFun List.Disjoint fun v => (A v).map Prod.fst) := ⟨fun _ _ hdis _ ha hb => hdis hb ha⟩
      have hdis := (List.nodup_flatMap.mp h).2.forall hu hv hne
      refine hdis (List.mem_map_of_mem ha) ?_
      rw [BaseNode.node.inj heq]
      exact List.mem_map_of_mem hb

theorem PoolsHold.perm {N M : Type} {T : NodeType} {w : NodeWorld N M} (h : PoolsHold T w own live others) (hp : live.Perm live') :
    PoolsHold T w own live' others := by
  refine ⟨⟨h.sides.nodup, h.sides.owns.perm ?_, h.sides.holds⟩, fun p => hp.mem_iff.symm.trans (h.live_iff p)⟩
  exact ((T.blocks_perm hp).append_right others).append_left _

namespace ListsHold

theorem names_nodup (h : ListsHold T tidy w A own others) : w.names.Nodup := h.pools.names_nodup

theorem nodes_nodup (h : ListsHold T tidy w A own others) : (nodesOf A w.names).Nodup := (List.nodup_append.mp h.pools.nodes_nodup).2.1

theorem isNode (h : ListsHold T tidy w A own others) (hv : v ∈ w.names) (ha : a ∈ A v) : w.IsNode a.1 :=
  NodeWorld.isNode_iff_elem.mpr ⟨a.2, (h.list v hv).elems a ha⟩

theorem valid (h : ListsHold T tidy w A own others) (hv : v ∈ w.names) (hq : q ∈ circleOf v (A v)) : w.Valid q := by
  rcases List.mem_cons.mp hq with rfl | hq
  · trivial
  · obtain ⟨a, ha, rfl⟩ := mem_baseNodes.mp hq
    exact h.isNode hv ha

theorem row_nodup (h : ListsHold T tidy w A own others) (hv : v ∈ w.names) : ((A v).map Prod.fst).Nodup :=
  nodesOf_row_nodup h.nodes_nodup hv

theorem circle_nodup (h : ListsHold T tidy w A own others) (hv : v ∈ w.names) : (circleOf v (A v)).Nodup := circleOf_nodup (h.row_nodup hv)

theorem apart (h : ListsHold T tidy w A own others) (hu : u ∈ w.names) (hv : v ∈ w.names) (hne : u ≠ v) (hq : q ∈ circleOf u (A u)) :
    q ∉ circleOf v (A v) := circles_apart h.nodes_nodup hu hv hne hq

/-- The lists `vs` have been worked on, the others not. -/
theorem put (vs : List ℕ) (h : ListsHold T tidy w A own others) (hu : Untouched S w w')
    (hS : ∀ u ∈ w'.names, u ∉ vs → u ∈ w.names ∧ ∀ q ∈ circleOf u (A u), ¬S q)
    (hsame : ∀ u, u ∉ vs → A' u = A u ∧ own' u = own u)
    (hpools : PoolsHold T.toNodeType w' own' live others) (hlive : live.Perm (nodesOf A' w'.names))
    (hlist : ∀ v ∈ vs, v ∈ w'.names → ListAt w' v (A' v))
    (hcount : tidy → ∀ v ∈ vs, v ∈ w'.names → (w'.pool v).nodePoolAllocations = (A' v).length+(own' v).length) :
    ListsHold T tidy w' A' own' others := by
  refine ⟨hpools.perm hlive, fun u hmem => ?_, fun htidy u hmem => ?_⟩ <;> by_cases hin : u ∈ vs
  · exact hlist u hin hmem
  · obtain ⟨hold, hout⟩ := hS u hmem hin
    rw [(hsame u hin).1]
    exact (h.list u hold).congr hu hout
  · exact hcount htidy u hin hmem
  · obtain ⟨hold, hout⟩ := hS u hmem hin
    rw [(hsame u hin).1, (hsame u hin).2, hu.pool_eq u (hout _ List.mem_cons_self)]
    exact h.counted htidy u hold

/-- One list has been worked on, and its pool. -/
theorem put_one {cached : List ℕ} (h : ListsHold T tidy w A own others) (hv : v ∈ w.names) (hu : Untouched S w w')
    (hS : ∀ u ∈ w.names, u ≠ v → ∀ q ∈ circleOf u (A u), ¬S q) (hnames : w'.names = w.names)
    (hpools : PoolsHold T.toNodeType w' (Function.update own v cached) live others)
    (hlive : live.Perm (xs.map Prod.fst ++ nodesOf A (w.names.erase v))) (hlist : ListAt w' v xs)
    (hcount : tidy → (w'.pool v).nodePoolAllocations = xs.length+cached.length) :
    ListsHold T tidy w' (Function.update A v xs) (Function.update own v cached) others := by
  refine h.put [v] hu (fun u hmem hne => ?_) (fun u hne => ?_) hpools ?_ (fun u hmem _ => ?_) fun htidy u hmem _ => ?_
  · rw [hnames] at hmem
    exact ⟨hmem, hS u hmem fun heq => hne (List.mem_singleton.mpr heq)⟩
  · have hne' : u ≠ v := fun heq => hne (List.mem_singleton.mpr heq)
    exact ⟨Function.update_of_ne hne' _ _, Function.update_of_ne hne' _ _⟩
  · rw [hnames]
    exact hlive.trans (nodesOf_update h.names_nodup hv).symm
  · obtain rfl := List.mem_singleton.mp hmem
    rwa [Function.update_self]
  · obtain rfl := List.mem_singleton.mp hmem
    rw [Function.update_self, Function.update_self]
    exact hcount htidy

end ListsHold

end ShmNext
