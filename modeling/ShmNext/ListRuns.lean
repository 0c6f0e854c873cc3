import ShmNext.ListRefinement
import ShmNext.StableMerge

/-! Runs of lists over one segment, and what is read of the lists in the states they reach. -/
namespace ShmNext
open Prog NodeOp SharedMemoryList

variable {E : Type} {T : ListType E} {w w' t : ListWorld E} {v other i j k n p fuel : ℕ} {f : BaseLink}
  {A A' : ℕ → List (ℕ × E)} {own : ℕ → List ℕ} {others : List (ℕ × ℕ)} {as bs xs : List (ℕ × E)} {tidy : Prop} {ns : List ℕ}

namespace SharedMemoryList

/-- The way from `q` to the sentinel of `v` along the links `f`, cut off after `fuel` nodes. -/
def walk (w : ListWorld E) (f : BaseLink) (v : ℕ) : ℕ → BaseNode → List BaseNode
  | 0, _ => []
  | fuel+1, q => if q = .sentinel v then [] else q :: walk w f v fuel (w.ptr f q)

/-- The whole circle from the sentinel on. -/
def traverse (w : ListWorld E) (f : BaseLink) (v : ℕ) : List BaseNode := walk w f v walkFuel (w.ptr f (.sentinel v))

/-- The nodes that `begin()` leads to, and their values. -/
def itemsOf (w : ListWorld E) (v : ℕ) : List (ℕ × E) :=
  (traverse w .next v).filterMap fun q =>
    match q with
    | .sentinel _ => none
    | .node p => (w.elem? p).map fun x => (p, x)

/-- The chain of free nodes from `p` on. -/
def freeChain (w : ListWorld E) : ℕ → ℕ → List ℕ
  | 0, _ => []
  | fuel+1, p =>
    if p = 0 then []
    else match w.cell p with
      | some (.free next) => p :: freeChain w fuel next
      | _ => []

/-- The cache of the pool of `v`. -/
def cachedNodes (w : ListWorld E) (v : ℕ) : List ℕ := freeChain w walkFuel (w.pool v).freeNodes

/-- The nodes on the live chains of the lists, and those in their caches. -/
def heldNodes (w : ListWorld E) : List ℕ := w.names.flatMap (cachedNodes w) ++ nodesOf (itemsOf w) w.names

theorem walk_eq {l : List BaseNode} (hrow : (l ++ [BaseNode.sentinel v]).IsChain fun a b => w.ptr f a = b) (hs : .sentinel v ∉ l)
    (hfuel : l.length < fuel) : walk w f v fuel (l.headD (.sentinel v)) = l := by
  induction l generalizing fuel with
  | nil =>
    cases fuel with
    | zero => cases hfuel
    | succ fuel => exact if_pos rfl
  | cons q l ih =>
    cases fuel with
    | zero => cases hfuel
    | succ fuel =>
      have hq : q ≠ .sentinel v := fun heq => hs (heq ▸ List.mem_cons_self)
      have hnext : w.ptr f q = l.headD (.sentinel v) := by
        cases l with
        | nil => exact List.isChain_cons_cons.mp hrow |>.1
        | cons r l => exact List.isChain_cons_cons.mp hrow |>.1
      have hrest := ih hrow.tail (fun hmem => hs (List.mem_cons_of_mem _ hmem)) (Nat.lt_of_succ_lt_succ hfuel)
      unfold walk
      rw [List.headD_cons, if_neg hq, hnext, hrest]

theorem freeChain_eq {ps : List ℕ} (h : FreeNodes w.cell p ps) (hfuel : ps.length < fuel) : freeChain w fuel p = ps := by
  induction ps generalizing p fuel with
  | nil =>
    cases fuel with
    | zero => cases hfuel
    | succ fuel => exact if_pos h
  | cons q ps ih =>
    cases fuel with
    | zero => cases hfuel
    | succ fuel =>
      obtain ⟨rfl, hq, next, hcell, hrest⟩ := h
      unfold freeChain
      rw [if_neg hq, hcell]
      exact congrArg _ (ih hrest (Nat.lt_of_succ_lt_succ hfuel))

theorem Circular.walks {nx pv : BaseNode → BaseNode} {s : BaseNode} {l : List BaseNode} (h : Circular nx pv s l) :
    (l ++ [s]).IsChain fun a b => nx a = b := by
  have hrow : LinkedRow nx pv (s :: (l ++ [s])) := h
  exact hrow.tail.imp fun _ _ hpair => hpair.1

end SharedMemoryList

/-- A list as it lies in memory is a circle through its sentinel, which both traversals go round, and is the sequence `xs`. -/
structure ListInOrder (w : ListWorld E) (v : ℕ) (xs : List (ℕ × E)) : Prop where
  circle : Circular (w.ptr .next) (w.ptr .prev) (.sentinel v) (baseNodes xs)
  forward : traverse w .next v = baseNodes xs
  backward : traverse w .prev v = (baseNodes xs).reverse
  size_eq : (w.obj v).size = xs.length
  items_eq : itemsOf w v = xs

namespace ListsHold

theorem inOrder (h : ListsHold T tidy w A own others) (hv : v ∈ w.names) : ListInOrder w v (A v) := by
  have hat := h.list v hv
  have hlen := h.length_lt hv
  have hs : BaseNode.sentinel v ∉ baseNodes (A v) := (List.nodup_cons.mp (h.circle_nodup hv)).1
  have hforward : traverse w .next v = baseNodes (A v) := by
    unfold SharedMemoryList.traverse
    rw [hat.circle.next_sentinel]
    exact walk_eq (Circular.walks hat.circle) hs ((length_baseNodes _).trans_lt hlen)
  have hbackward : traverse w .prev v = (baseNodes (A v)).reverse := by
    have hback := hat.circle.reverse
    unfold SharedMemoryList.traverse
    rw [hback.next_sentinel]
    refine walk_eq (Circular.walks hback) (fun hmem => hs (List.mem_reverse.mp hmem)) ?_
    rw [List.length_reverse, length_baseNodes]
    exact hlen
  refine ⟨hat.circle, hforward, hbackward, hat.size_eq, ?_⟩
  unfold itemsOf baseNodes at *
  rw [hforward, List.filterMap_map]
  refine (List.filterMap_congr fun a ha => ?_).trans List.filterMap_some
  dsimp only [Function.comp_apply]
  rw [hat.elems a ha]
  rfl

theorem items_eq (h : ListsHold T tidy w A own others) (hv : v ∈ w.names) : itemsOf w v = A v := (h.inOrder hv).items_eq

theorem cached_eq (h : ListsHold T tidy w A own others) (hv : v ∈ w.names) : cachedNodes w v = own v := by
  have hnd := (List.nodup_append.mp h.pools.nodes_nodup).1
  have hsub : own v ⊆ w.names.flatMap own ++ nodesOf A w.names := fun p hp => List.mem_append_left _ (List.mem_flatMap.mpr ⟨v, hv, hp⟩)
  exact freeChain_eq (h.pools.caches hv).chain (h.pools.row_lt hsub ((List.nodup_flatMap.mp hnd).1 v hv))

theorem held_eq (h : ListsHold T tidy w A own others) : heldNodes w = w.names.flatMap own ++ nodesOf A w.names := by
  have hcached : w.names.flatMap (cachedNodes w) = w.names.flatMap own := List.flatMap_congr fun v hv => h.cached_eq hv
  have hlive : nodesOf (itemsOf w) w.names = nodesOf A w.names := nodesOf_congr fun v hv => h.items_eq hv
  unfold heldNodes
  rw [hcached, hlive]

/-- The sequences are what is read of the lists. -/
theorem of_items (h : ListsHold T tidy w A own others) : ListsHold T tidy w (itemsOf w) own others := h.of_same fun _ hv => h.items_eq hv

end ListsHold

/-- The runs: list calls in any order, each returning or throwing, and calls of others of the allocator between them, from a
segment without lists. `others` are the allocations that are no nodes. -/
inductive ListRun (T : ListType E) (P : ListWorld E → ListCall E → Prop) : ListWorld E → List (ℕ × ℕ) → Prop
  | start {g : Heap} {pool : ℕ → NodePool} {obj : ℕ → SharedMemoryList} (hg : Reachable g) :
      ListRun T P ⟨g, fun _ => none, pool, obj, [], 0, 0⟩ g.allocations
  | returns {w w' : ListWorld E} {others : List (ℕ × ℕ)} (call : ListCall E) (h : ListRun T P w others) (hcall : P w call)
      (hrun : (call.perform T).run w = (.ok (), w')) : ListRun T P w' others
  | throws {w w' : ListWorld E} {others : List (ℕ × ℕ)} {e : NodeThrown} (call : ListCall E) (h : ListRun T P w others) (hcall : P w call)
      (hrun : (call.perform T).run w = (.error e, w')) : ListRun T P w' others
  | elsewhere {w : ListWorld E} {others : List (ℕ × ℕ)} {g : Heap} (call : Call) (h : ListRun T P w others) (hadm : w.heap.Admissible call)
      (hforeign : w.Foreign call) (hexec : w.heap.exec call = some g) :
      ListRun T P (w.withHeap T.toNodeType g) (g.foreign (T.blocks (heldNodes w)))

variable {P : ListWorld E → ListCall E → Prop}

namespace ListsHold

/-- A segment without lists. -/
theorem start {g : Heap} {pool : ℕ → NodePool} {obj : ℕ → SharedMemoryList} (hg : Reachable g) :
    ListsHold T tidy ⟨g, fun _ => none, pool, obj, [], 0, 0⟩ A own g.allocations := by
  obtain ⟨bs, l, hinv⟩ := hg.inv
  refine ⟨⟨SideBySide.start hinv own, fun p => ?_⟩, fun v hv => (by cases hv), fun _ v hv => (by cases hv)⟩
  exact iff_of_false List.not_mem_nil fun ⟨n, hn⟩ => (by cases hn)

/-- A call of somebody else keeps the lists. -/
theorem elsewhere {call : Call} {g : Heap} (h : ListsHold T tidy w A own others) (hadm : w.heap.Admissible call) (hforeign : w.Foreign call)
    (hexec : w.heap.exec call = some g) :
    ListsHold T tidy (w.withHeap T.toNodeType g) A own (g.foreign (T.blocks (heldNodes w))) := by
  obtain ⟨hsame, hpools⟩ := h.pools.elsewhere_foreign hadm hforeign hexec
  rw [hsame, h.held_eq]
  refine ⟨hpools, fun v hv => ?_, h.counted⟩
  have hat := h.list v hv
  exact ⟨hat.circle, hat.size_eq, hat.elems⟩

end ListsHold

theorem ListRun.hold (hP : ∀ w call, P w call → call.Admissible T w ∧ (tidy → call.Tidy w)) (h : ListRun T P w others) :
    ∃ A own, ListsHold T tidy w A own others := by
  induction h with
  | start hg => exact ⟨fun _ => [], fun _ => [], .start hg⟩
  | returns call _ hcall hrun ih =>
    obtain ⟨A, own, hw⟩ := ih
    obtain ⟨hadm, htidy⟩ := hP _ _ hcall
    have hends := hw.ends_perform call hadm htidy
    unfold Ends at hends
    rw [hrun] at hends
    obtain ⟨A', -, ⟨own', hw'⟩, -⟩ := hends
    exact ⟨A', own', hw'⟩
  | throws call _ hcall hrun ih =>
    obtain ⟨A, own, hw⟩ := ih
    obtain ⟨hadm, htidy⟩ := hP _ _ hcall
    have hends := hw.ends_perform call hadm htidy
    unfold Ends at hends
    rw [hrun] at hends
    obtain ⟨A', -, ⟨own', hw'⟩, -⟩ := hends
    exact ⟨A', own', hw'⟩
  | elsewhere call _ hadm hforeign hexec ih =>
    obtain ⟨A, own, hw⟩ := ih
    exact ⟨A, own, hw.elsewhere hadm hforeign hexec⟩

theorem ListRun.hold_items (h : ListRun T (fun w call => call.Admissible T w) w others) : ∃ own, ListsHold T False w (itemsOf w) own others := by
  have hhold : ∃ A own, ListsHold T False w A own others := h.hold fun w call hadm => ⟨hadm, False.elim⟩
  obtain ⟨A, own, hw⟩ := hhold
  exact ⟨own, hw.of_items⟩

/-! Nodes on their way. -/

theorem movedWithin_perm {α : Type} (xs : List α) (i : ℕ) (hjk : j ≤ k) : (movedWithin xs i j k).Perm xs := by
  unfold movedWithin
  by_cases hi : i < j
  · rw [if_pos hi]
    have hswap : (slice xs j k ++ (slice xs i j ++ xs.drop k)).Perm (xs.drop i) := by
      rw [← slice_append_drop (l := xs) hi.le, ← slice_append_drop (l := xs) hjk, ← List.append_assoc, ← List.append_assoc]
      exact List.perm_append_comm.append_right _
    exact (hswap.append_left _).trans (List.Perm.of_eq (List.take_append_drop i xs))
  · rw [if_neg hi]
    by_cases hk : k < i
    · rw [if_pos hk]
      have hswap : (slice xs k i ++ (slice xs j k ++ xs.drop i)).Perm (xs.drop j) := by
        rw [← slice_append_drop (l := xs) hjk, ← slice_append_drop (l := xs) hk.le, ← List.append_assoc, ← List.append_assoc]
        exact List.perm_append_comm.append_right _
      rw [List.append_assoc]
      exact (hswap.append_left _).trans (List.Perm.of_eq (List.take_append_drop j xs))
    · rw [if_neg hk]

/-- Elements that go from one list to another are the same all in all. -/
theorem spliced_perm {α : Type} {A : ℕ → List α} (hnd : ns.Nodup) (hv : v ∈ ns) (hother : other ∈ ns) (i : ℕ) (hjk : j ≤ k) :
    (ns.flatMap (spliced A v other i j k)).Perm (ns.flatMap A) := by
  unfold spliced
  by_cases heq : v = other
  · rw [if_pos heq]
    have hrest : (ns.erase v).flatMap (Function.update A v (movedWithin (A v) i j k)) = (ns.erase v).flatMap A :=
      List.flatMap_congr fun u hu => Function.update_of_ne (hnd.mem_erase_iff.mp hu).1 _ _
    have hfirst := List.perm_cons_erase hv
    refine (hfirst.flatMap_right _).trans (List.Perm.trans ?_ (hfirst.flatMap_right A).symm)
    rw [List.flatMap_cons, List.flatMap_cons, hrest, Function.update_self]
    exact (movedWithin_perm (A v) i hjk).append_right _
  · rw [if_neg heq]
    refine exchange_perm hnd hv hother (Ne.symm heq) (fun u huv huo => ?_) ?_
    · rw [Function.update_of_ne huv, Function.update_of_ne huo]
    · rw [Function.update_self, Function.update_of_ne (Ne.symm heq), Function.update_self]
      have hmine := List.take_append_drop i (A v)
      have htheirs := split_slice (l := A other) hjk
      generalize (A v).take i = a, (A v).drop i = b, (A other).take j = c, slice (A other) j k = d, (A other).drop k = e at *
      rw [← hmine, htheirs, List.append_assoc, List.append_assoc, List.append_assoc]
      refine List.Perm.append_left a ?_
      have hpast := List.perm_append_comm_assoc d (b ++ c) e
      rwa [List.append_assoc, List.append_assoc] at hpast

/-- The call only changes the order of nodes and what list they are in. -/
def ListCall.Rearranges : ListCall E → Prop
  | .edit _ .reverse | .splice _ _ _ | .spliceOne _ _ _ _ | .spliceRange _ _ _ _ _ | .swap _ _ | .sort _ _ _ | .merge _ _ _ _ => True
  | _ => False

theorem ListCall.Effect.perm {call : ListCall E} (h : call.Effect T A A') (hadm : call.Admissible T w) (hnd : w.names.Nodup)
    (hcall : call.Rearranges) : (w.names.flatMap A').Perm (w.names.flatMap A) := by
  -- one list in another order
  have hone : ∀ {v xs'}, v ∈ w.names → xs'.Perm (A v) → (w.names.flatMap (Function.update A v xs')).Perm (w.names.flatMap A) := by
    intro v xs' hv hperm
    have hrest : (w.names.erase v).flatMap (Function.update A v xs') = (w.names.erase v).flatMap A :=
      List.flatMap_congr fun u hu => Function.update_of_ne (hnd.mem_erase_iff.mp hu).1 _ _
    have hfirst := List.perm_cons_erase hv
    refine (hfirst.flatMap_right _).trans (List.Perm.trans ?_ (hfirst.flatMap_right A).symm)
    rw [List.flatMap_cons, List.flatMap_cons, hrest, Function.update_self]
    exact hperm.append_right _
  cases call with
  | edit v e =>
    obtain ⟨xs', ⟨new, hnew, rfl⟩, rfl⟩ := h
    cases e with
    | reverse =>
      obtain rfl := List.map_eq_nil_iff.mp hnew
      refine hone hadm.1 ?_
      change ((A v).reverse ++ ([] ++ [])).Perm (A v)
      rw [List.append_nil, List.append_nil]
      exact List.reverse_perm _
    | _ => exact hcall.elim
  | splice v i other =>
    obtain rfl := h
    exact spliced_perm hnd hadm.1 hadm.2.1 i (Nat.zero_le _)
  | spliceOne v i other j =>
    obtain rfl := h
    exact spliced_perm hnd hadm.1 hadm.2.1 i (Nat.le_succ j)
  | spliceRange v i other j k =>
    obtain rfl := h
    exact spliced_perm hnd hadm.1 hadm.2.1 i hadm.2.2.2.1
  | swap v other =>
    obtain rfl := h
    by_cases heq : v = other
    · subst heq
      rw [exchanged_self]
    · refine exchange_perm hnd hadm.1 hadm.2 (Ne.symm heq) (fun u huv huo => ?_) ?_
      · unfold exchanged
        rw [Function.update_of_ne huo, Function.update_of_ne huv]
      · unfold exchanged
        rw [Function.update_of_ne heq, Function.update_self, Function.update_self]
        exact List.perm_append_comm
  | sort v comp S =>
    obtain rfl := h
    exact hone hadm (sortedBy_perm comp _)
  | merge v other comp S =>
    obtain rfl := h
    unfold merged
    by_cases hskip : v = other ∨ A other = []
    · rw [if_pos hskip]
    · rw [if_neg hskip]
      obtain ⟨hne, -⟩ := not_or.mp hskip
      refine exchange_perm hnd hadm.1 hadm.2 (Ne.symm hne) (fun u huv huo => ?_) ?_
      · rw [Function.update_of_ne huv, Function.update_of_ne huo]
      · rw [Function.update_self, Function.update_of_ne (Ne.symm hne), Function.update_self, List.append_nil]
        exact sortedBy_perm comp _
  | _ => exact hcall.elim

/-- In every run each list is the circle of its sequence, no node is on two of them, and each call does to the sequences what it
says: those that only rearrange keep the nodes all in all. -/
theorem list_refines_sequence (h : ListRun T (fun w call => call.Admissible T w) w others) :
    (∀ v ∈ w.names, ListInOrder w v (itemsOf w v)) ∧ (nodesOf (itemsOf w) w.names).Nodup ∧
    ∀ call : ListCall E, call.Admissible T w → (call.perform T).Ends w
      (fun _ w' => w'.names = call.onNames w.names ∧ ∃ A', (∀ v ∈ w'.names, ListInOrder w' v (A' v)) ∧ call.Effect T (itemsOf w) A' ∧
        valuesOf A' = call.onValues T (valuesOf (itemsOf w)) ∧
        (call.Rearranges → (w.names.flatMap A').Perm (w.names.flatMap (itemsOf w))))
      fun _ w' => w'.names = w.names ∧ ∃ A', (∀ v ∈ w'.names, ListInOrder w' v (A' v)) ∧ call.OnFailure T (itemsOf w) A' := by
  obtain ⟨own, hw⟩ := h.hold_items
  refine ⟨fun v hv => hw.inOrder hv, hw.nodes_nodup, fun call hadm => ?_⟩
  refine (hw.ends_perform call hadm False.elim).mono (fun _ w' hr => ?_) fun _ w' he => ?_
  · obtain ⟨A', heffect, ⟨own', hw'⟩, hnames, -⟩ := hr
    exact ⟨hnames, A', fun v hv => hw'.inOrder hv, heffect, heffect.values_eq, heffect.perm hadm hw.names_nodup⟩
  · obtain ⟨A', hfail, ⟨own', hw'⟩, hnames, -⟩ := he
    exact ⟨hnames, A', fun v hv => hw'.inOrder hv, hfail⟩

theorem ListRun.perform (h : ListRun T P w others) (call : ListCall E) (hcall : P w call) (hok : ((call.perform T).run w).1 = .ok ()) :
    ListRun T P ((call.perform T).run w).2 others := .returns call h hcall (Prod.ext hok rfl)

/-- Nodes of a word each, whose constructors do not throw. -/
def wordNodes : ListType ℕ := ⟨plainNodes, 0⟩

/-- The small segment without lists. -/
def listWorld : ListWorld ℕ := ⟨smallHeap, fun _ => none, fun _ => .empty, fun _ => ⟨fun _ => .sentinel 0, 0⟩, [], 0, 0⟩

def afterListCalls (calls : List (ListCall ℕ)) (w : ListWorld ℕ) : ListWorld ℕ :=
  calls.foldl (fun w call => ((call.perform wordNodes).run w).2) w

/-- Two lists, the second of which has got a node back from the first and keeps another one in its cache. -/
def splicedLists : ListWorld ℕ :=
  afterListCalls [.constructRange 0 [3, 1, 2], .constructRange 1 [5, 6], .edit 1 .popBack, .spliceOne 1 0 0 2] listWorld

theorem splicedLists_run : ListRun wordNodes (fun w call => call.Admissible wordNodes w) splicedLists listWorld.heap.allocations := by
  have h₀ : ListRun wordNodes (fun w call => call.Admissible wordNodes w) listWorld listWorld.heap.allocations := .start smallHeap_reachable
  have h₁ := h₀.perform (.constructRange 0 [3, 1, 2]) ⟨by decide, by decide +kernel⟩ (by decide +kernel)
  have h₂ := h₁.perform (.constructRange 1 [5, 6]) ⟨by decide +kernel, by decide +kernel⟩ (by decide +kernel)
  have h₃ := h₂.perform (.edit 1 .popBack) ⟨by decide +kernel, trivial, fun hcon => by cases hcon⟩ (by decide +kernel)
  exact h₃.perform (.spliceOne 1 0 0 2) ⟨by decide +kernel, by decide +kernel, by decide +kernel, by decide +kernel⟩ (by decide +kernel)

theorem list_refines_sequence_splicedLists : ListInOrder splicedLists 1 (itemsOf splicedLists 1) ∧
    (itemsOf splicedLists 1).map Prod.snd = [2, 5] := by
  have hmem : 1 ∈ splicedLists.names := by decide +kernel
  exact ⟨(list_refines_sequence splicedLists_run).1 1 hmem, by decide +kernel⟩

/-- The blocks of the nodes and the allocations of others are all there is. -/
theorem PoolsHold.allocations_perm {N M : Type} {T : NodeType} {w : NodeWorld N M} {live : List ℕ} (h : PoolsHold T w own live others) :
    w.heap.allocations.Perm (T.blocks (w.names.flatMap own ++ live) ++ others) := by
  obtain ⟨bs, l, hinv⟩ := h.sides.owns.holding.heap
  have hnd : w.heap.allocations.Nodup := by
    refine List.Nodup.of_map Prod.fst ?_
    unfold Heap.allocations
    rw [List.map_map]
    exact hinv.payloads_nodup
  have hnd' : (T.blocks (w.names.flatMap own ++ live) ++ others).Nodup := by
    refine List.Nodup.of_map Prod.fst ?_
    rw [List.map_append, NodeType.blocks_addresses]
    exact h.addresses_nodup
  refine (List.perm_ext_iff_of_nodup hnd hnd').mpr fun r => ?_
  rw [h.mem_allocations, NodeType.blocks_append, List.append_assoc, List.mem_append, List.mem_append, List.mem_append]

/-- In every run each node block that is held is on the chain of one list or in the cache of one; each call gives blocks back once,
that are held no more; and lists that are gone have left none. -/
theorem list_nodes_accounted (h : ListRun T (fun w call => call.Admissible T w) w others) :
    w.heap.allocations.Perm (T.blocks (heldNodes w) ++ others) ∧ (heldNodes w ++ others.map Prod.fst).Nodup ∧
    (w.names = [] → w.heap.allocations.Perm others) ∧
    ∀ call : ListCall E, call.Admissible T w →
      (call.perform T).Ends w (fun _ w' => ∃ given, GivesBack given w w') fun _ w' => ∃ given, GivesBack given w w' := by
  obtain ⟨own, hw⟩ := h.hold_items
  have hperm := hw.pools.allocations_perm
  have hnd := hw.pools.addresses_nodup
  rw [← hw.held_eq] at hperm hnd
  refine ⟨hperm, hnd, fun hnone => ?_, fun call hadm => ?_⟩
  · have hheld : heldNodes w = [] := by
      unfold heldNodes
      rw [hnone]
      rfl
    rw [hheld] at hperm
    exact hperm
  · refine (hw.ends_perform call hadm False.elim).mono (fun _ w' hr => ?_) fun _ w' he => ?_
    · obtain ⟨A', -, -, -, hgiven⟩ := hr
      exact hgiven
    · obtain ⟨A', -, -, -, hgiven⟩ := he
      exact hgiven

theorem list_nodes_accounted_splicedLists : (heldNodes splicedLists).length = 5 ∧
    splicedLists.heap.allocations.Perm (wordNodes.blocks (heldNodes splicedLists) ++ listWorld.heap.allocations) :=
  ⟨by decide +kernel, (list_nodes_accounted splicedLists_run).1⟩

/-! Sorting. -/

/-- The nodes `xs` are in the order of their values in `ys`, and where two are equivalent as they were. -/
structure StablySorted (comp : E → E → Bool) (xs ys : List (ℕ × E)) : Prop where
  perm : ys.Perm xs
  sorted : ys.Pairwise fun a b => comp b.2 a.2 = false
  stable : ∀ l : List (ℕ × E), l.Sublist xs → (l.Pairwise fun a b => comp b.2 a.2 = false) → l.Sublist ys

theorem sortedBy_stable {comp : E → E → Bool} (hcomp : IsStrictWeakOrder E fun a b => comp a b = true) (xs : List (ℕ × E)) :
    StablySorted comp xs (sortedBy comp xs) := by
  have htrans : ∀ a b c : ℕ × E, (!comp b.2 a.2) = true → (!comp c.2 b.2) = true → (!comp c.2 a.2) = true := fun a b c =>
    StableMerge.not_lt_trans hcomp a.2 b.2 c.2
  have htotal : ∀ a b : ℕ × E, ((!comp b.2 a.2) || !comp a.2 b.2) = true := fun a b => StableMerge.not_lt_total hcomp a.2 b.2
  refine ⟨sortedBy_perm comp xs, ?_, fun l hsub hl => ?_⟩
  · exact (List.pairwise_mergeSort htrans htotal xs).imp fun hab => (Bool.not_eq_true' _).mp hab
  · exact List.sublist_mergeSort htrans htotal (hl.imp fun hab => (Bool.not_eq_true' _).mpr hab) hsub

/-- The nodes of two lists that are in order, those of the first one first where two are equivalent. -/
theorem sortedBy_append {comp : E → E → Bool} (hcomp : IsStrictWeakOrder E fun a b => comp a b = true)
    (has : as.Pairwise fun a b => comp b.2 a.2 = false) (hbs : bs.Pairwise fun a b => comp b.2 a.2 = false) :
    sortedBy comp (as ++ bs) = as.merge bs fun a b => !comp b.2 a.2 :=
  StableMerge.mergeSort_append (fun a b c => StableMerge.not_lt_trans hcomp a.2 b.2 c.2)
    (fun a b => StableMerge.not_lt_total hcomp a.2 b.2) (has.imp fun hab => (Bool.not_eq_true' _).mpr hab)
    (hbs.imp fun hab => (Bool.not_eq_true' _).mpr hab)

/-- What `merge` of `other` into `v` leaves. -/
structure Merged (comp : E → E → Bool) (A A' : ℕ → List (ℕ × E)) (ns : List ℕ) (v other : ℕ) : Prop where
  none : A other = [] → ∀ u ∈ ns, A' u = A u
  sorted : A other ≠ [] → StablySorted comp (A v ++ A other) (A' v)
  merged : A other ≠ [] → ((A v).Pairwise fun a b => comp b.2 a.2 = false) → ((A other).Pairwise fun a b => comp b.2 a.2 = false) →
    A' v = (A v).merge (A other) fun a b => !comp b.2 a.2
  emptied : A' other = []
  rest : ∀ u ∈ ns, u ≠ v → u ≠ other → A' u = A u

/-- `sort` is the stable sort and `merge` the stable merge, and where one throws both lists are as they were. -/
theorem sort_merge_stable {comp : E → E → Bool} (hcomp : IsStrictWeakOrder E fun a b => comp a b = true)
    (h : ListRun T (fun w call => call.Admissible T w) w others) (hv : v ∈ w.names) (hother : other ∈ w.names) (hne : v ≠ other)
    (S : StableSort (BaseNode × E) (byValue comp)) :
    (SharedMemoryList.sort v S).Ends w
      (fun _ w' => StablySorted comp (itemsOf w v) (itemsOf w' v) ∧ (∀ u ∈ w.names, u ≠ v → itemsOf w' u = itemsOf w u) ∧
        ∀ u ∈ w.names, ListInOrder w' u (itemsOf w' u)) (fun _ w' => w' = w) ∧
    (SharedMemoryList.merge v other S).Ends w
      (fun _ w' => Merged comp (itemsOf w) (itemsOf w') w.names v other ∧ ∀ u ∈ w.names, ListInOrder w' u (itemsOf w' u))
      fun _ w' => w' = w := by
  obtain ⟨own, hw⟩ := h.hold_items
  -- the items that a reader finds are those that the call has left
  have hread : ∀ {w' B}, ListsAre T False w B others w' →
      (∀ u ∈ w.names, itemsOf w' u = B u) ∧ ∀ u ∈ w.names, ListInOrder w' u (itemsOf w' u) := by
    intro w' B hare
    obtain ⟨own', hw'⟩ := hare.hold
    refine ⟨fun u hu => hw'.items_eq (hare.mem hu), fun u hu => ?_⟩
    rw [hw'.items_eq (hare.mem hu)]
    exact hw'.inOrder (hare.mem hu)
  refine ⟨(hw.ends_sort hv S).mono (fun _ w' hr => ?_) fun _ _ he => he,
    (hw.ends_merge hv hother False.elim S).mono (fun _ w' hr => ?_) fun _ _ he => he⟩
  · obtain ⟨hitems, horder⟩ := hread hr
    refine ⟨?_, fun u hu huv => ?_, horder⟩
    · rw [hitems v hv, Function.update_self]
      exact sortedBy_stable hcomp _
    · rw [hitems u hu, Function.update_of_ne huv]
  · obtain ⟨hitems, horder⟩ := hread hr
    refine ⟨?_, horder⟩
    unfold merged at hitems
    -- `merge` does nothing where the other list is empty
    by_cases hempty : itemsOf w other = []
    · rw [if_pos (Or.inr hempty)] at hitems
      exact ⟨fun _ => hitems, absurd hempty, absurd hempty, (hitems other hother).trans hempty, fun u hu _ _ => hitems u hu⟩
    · rw [if_neg (not_or.mpr ⟨hne, hempty⟩)] at hitems
      have hmine := hitems v hv
      have htheirs := hitems other hother
      rw [Function.update_self] at hmine
      rw [Function.update_of_ne (Ne.symm hne), Function.update_self] at htheirs
      refine ⟨fun hcon => absurd hcon hempty, fun _ => ?_, fun _ has hbs => ?_, htheirs, fun u hu huv huo => ?_⟩
      · rw [hmine]
        exact sortedBy_stable hcomp _
      · rw [hmine]
        exact sortedBy_append hcomp has hbs
      · rw [hitems u hu, Function.update_of_ne huv, Function.update_of_ne huo]

theorem ltWeak : IsStrictWeakOrder ℕ fun a b => decide (a < b) = true where
  irrefl := by simp
  trans := by
    simp only [decide_eq_true_eq]
    exact fun _ _ _ => Nat.lt_trans
  incomp_trans := by
    simp only [decide_eq_true_eq]
    omega

/-- Nodes are compared by their values. -/
theorem byValue_weak {comp : E → E → Bool} (h : IsStrictWeakOrder E fun a b => comp a b = true) :
    IsStrictWeakOrder (BaseNode × E) fun a b => byValue comp a b = true where
  irrefl a := h.irrefl a.2
  trans a b c := h.trans a.2 b.2 c.2
  incomp_trans a b c := h.incomp_trans a.2 b.2 c.2

/-- Sorts in the order of the words, without scratch space or comparisons that could throw. -/
def wordSort : StableSort (BaseNode × ℕ) (byValue fun a b => decide (a < b)) where
  weak := byValue_weak ltWeak
  reserve _ := none
  sort l := .ok (l.mergeSort fun a b => !byValue (fun a b => decide (a < b)) b a)
  stable _ _ h := (Except.ok.inj h).symm

section
-- a statement about this one state is not to be run
attribute [local irreducible] Ends

/-- The first list is sorted, or takes in the second one. -/
theorem sort_merge_stable_splicedLists :
    (SharedMemoryList.sort 0 wordSort).Ends splicedLists
      (fun _ w' => StablySorted (fun a b => decide (a < b)) (itemsOf splicedLists 0) (itemsOf w' 0) ∧
        (∀ u ∈ splicedLists.names, u ≠ 0 → itemsOf w' u = itemsOf splicedLists u) ∧
        ∀ u ∈ splicedLists.names, ListInOrder w' u (itemsOf w' u)) (fun _ w' => w' = splicedLists) ∧
    (SharedMemoryList.merge 0 1 wordSort).Ends splicedLists
      (fun _ w' => StablySorted (fun a b => decide (a < b)) (itemsOf splicedLists 0 ++ itemsOf splicedLists 1) (itemsOf w' 0) ∧
        itemsOf w' 1 = []) (fun _ w' => w' = splicedLists) := by
  have hv : 0 ∈ splicedLists.names := by decide +kernel
  have hother : 1 ∈ splicedLists.names := by decide +kernel
  have htwo : itemsOf splicedLists 1 ≠ [] := by decide +kernel
  obtain ⟨hsort, hmerge⟩ := sort_merge_stable ltWeak splicedLists_run hv hother Nat.zero_ne_one wordSort
  exact ⟨hsort, hmerge.mono (fun _ w' hm => ⟨hm.1.sorted htwo, hm.1.emptied⟩) fun _ _ he => he⟩

end

end ShmNext
