import ShmNext.ListSorting

/-! Lists come to be, are taken over by others, and are destroyed. -/
namespace ShmNext
open Prog NodeOp SharedMemoryList

variable {E α : Type} {T : ListType E} {w w' t : ListWorld E} {q r first last : BaseNode} {v other n p : ℕ} {F : NodeThrown → ListWorld E → Prop}
  {A A' : ℕ → List (ℕ × E)} {own own' : ℕ → List ℕ} {others : List (ℕ × ℕ)} {as bs ds xs : List (ℕ × E)} {tidy : Prop} {S : BaseNode → Prop}
  {nx pv : BaseNode → BaseNode} {l : List BaseNode} {given ns live : List ℕ}

/-! Blocks that are given back. -/

/-- The blocks `given` have been given back, each once, and none of them is held any more. -/
structure GivesBack {N M : Type} (given : List ℕ) (w w' : NodeWorld N M) : Prop where
  freed_eq : w'.heap.freed = given ++ w.heap.freed
  nodup : given.Nodup
  gone : ∀ p ∈ given, ¬w'.heap.Holds p

theorem givesBack_none {N M : Type} {w w' : NodeWorld N M} (h : w'.heap.freed = w.heap.freed) : GivesBack [] w w' :=
  ⟨h, List.nodup_nil, fun p hp => (by cases hp)⟩

theorem NodePool.SparesHeld.givesBack {N M : Type} {w w' : NodeWorld N M} (h : SparesHeld w w') : ∃ given, GivesBack given w w' := by
  rcases h with hsame | ⟨p, hgone, hfreed⟩
  · exact ⟨[], givesBack_none hsame⟩
  · refine ⟨[p], hfreed, List.nodup_singleton p, fun q hq => ?_⟩
    rwa [List.mem_singleton.mp hq]

/-- More is given back later on, of what was still held. -/
theorem GivesBack.trans {N M : Type} {w t w' : NodeWorld N M} {given given' : List ℕ} (h : GivesBack given w t) (h' : GivesBack given' t w')
    (hheld : ∀ p ∈ given', t.heap.Holds p) (hkept : ∀ p, w'.heap.Holds p → t.heap.Holds p) : GivesBack (given' ++ given) w w' := by
  refine ⟨?_, ?_, fun p hp => ?_⟩
  · rw [h'.freed_eq, h.freed_eq, List.append_assoc]
  · refine List.nodup_append.mpr ⟨h'.nodup, h.nodup, fun p hp q hq heq => h.gone q hq ?_⟩
    rw [← heq]
    exact hheld p hp
  · rcases List.mem_append.mp hp with hp | hp
    · exact h'.gone p hp
    · exact fun hcon => h.gone p hp (hkept p hcon)

namespace PoolsHold
variable {N M : Type} {T : NodeType} {w w' : NodeWorld N M}

theorem holds_iff (h : PoolsHold T w own live others) : w.heap.Holds p ↔ p ∈ w.names.flatMap own ++ live ∨ p ∈ others.map Prod.fst := by
  have hfst : w.heap.Holds p ↔ p ∈ w.heap.allocations.map Prod.fst := by
    unfold Heap.Holds Heap.allocations
    rw [List.map_map, List.mem_map]
    rfl
  rw [hfst, List.mem_map, List.mem_append]
  constructor
  · rintro ⟨r, hr, rfl⟩
    rcases h.mem_allocations.mp hr with hr | hr
    · obtain ⟨p, hp, rfl⟩ := List.mem_map.mp hr
      exact Or.inl (Or.inl hp)
    · rcases List.mem_append.mp hr with hr | hr
      · obtain ⟨p, hp, rfl⟩ := List.mem_map.mp hr
        exact Or.inl (Or.inr hp)
      · exact Or.inr (List.mem_map_of_mem hr)
  · rintro ((hp | hp) | hp)
    · exact ⟨_, h.mem_allocations.mpr (Or.inl (T.mem_blocks.mpr hp)), rfl⟩
    · exact ⟨_, h.mem_allocations.mpr (Or.inr (List.mem_append_left _ (T.mem_blocks.mpr hp))), rfl⟩
    · obtain ⟨r, hr, rfl⟩ := List.mem_map.mp hp
      exact ⟨r, h.mem_allocations.mpr (Or.inr (List.mem_append_right _ hr)), rfl⟩

theorem addresses_nodup (h : PoolsHold T w own live others) : ((w.names.flatMap own ++ live) ++ others.map Prod.fst).Nodup := by
  have hnd := h.sides.owns.holding.distinct
  rwa [blocksOf_pools, ← List.append_assoc, ← NodeType.blocks_append, List.map_append, NodeType.blocks_addresses] at hnd

/-- What has gone from the nodes, cached and live, is given back. -/
theorem released {own' : ℕ → List ℕ} {live' : List ℕ} (h : PoolsHold T w own live others) (h' : PoolsHold T w' own' live' others)
    (hperm : (given ++ (w'.names.flatMap own' ++ live')).Perm (w.names.flatMap own ++ live)) (hfreed : w'.heap.freed = given ++ w.heap.freed) :
    GivesBack given w w' ∧ (∀ p ∈ given, w.heap.Holds p) ∧ ∀ p, w'.heap.Holds p → w.heap.Holds p := by
  have hnd := h.addresses_nodup
  have hnd' := ((hperm.append_right (others.map Prod.fst)).symm).nodup hnd
  rw [List.append_assoc] at hnd'
  obtain ⟨hgiven, -, hapart⟩ := List.nodup_append.mp hnd'
  refine ⟨⟨hfreed, hgiven, fun p hp hcon => ?_⟩, fun p hp => ?_, fun p hp => ?_⟩
  · refine hapart p hp p ?_ rfl
    rcases h'.holds_iff.mp hcon with hin | hin
    · exact List.mem_append_left _ hin
    · exact List.mem_append_right _ hin
  · exact h.holds_iff.mpr (Or.inl (hperm.mem_iff.mp (List.mem_append_left _ hp)))
  · rcases h'.holds_iff.mp hp with hin | hin
    · exact h.holds_iff.mpr (Or.inl (hperm.mem_iff.mp (List.mem_append_right _ hin)))
    · exact h.holds_iff.mpr (Or.inr hin)

end PoolsHold

/-! Construction and destruction. -/

theorem Untouched.withNames (S : BaseNode → Prop) (w : ListWorld E) (ns : List ℕ) : Untouched S w { w with names := ns } := by
  refine ⟨fun f q _ => ?_, fun _ _ => rfl, fun _ _ => rfl, fun _ _ => rfl⟩
  cases q <;> rfl

namespace ListsHold

/-- The list object `v` has come to be, without nodes. -/
theorem ends_construct (h : ListsHold T tidy w A own others) (hv : v ∉ w.names) :
    (SharedMemoryList.construct v).Ends w
      (fun _ w' => ListsHold T tidy w' (Function.update A v []) (Function.update own v []) others ∧ w'.names = v :: w.names ∧
        w'.heap = w.heap) F := by
  have hne : ∀ u ∈ w.names, u ≠ v := fun u hu heq => hv (heq ▸ hu)
  have hpools := h.pools.ends_construct (E := fun _ _ => False) hv
  unfold SharedMemoryList.construct
  refine ends_store_bind (ends_store_bind (ends_store ⟨?_, rfl, rfl⟩))
  -- only the sentinel of the new list has been written to
  have hu : Untouched (fun q => q = .sentinel v) w
      { w with
        pool := Function.update w.pool v .empty
        obj := Function.update w.obj v ⟨fun _ => .sentinel v, 0⟩
        names := v :: w.names } := by
    refine ⟨fun f q hq => ?_, fun _ _ => rfl, fun u hu => ?_, fun u hu => ?_⟩
    · cases q with
      | sentinel u =>
        have huv : u ≠ v := fun heq => hq (by rw [heq])
        unfold NodeWorld.ptr
        dsimp only
        rw [Function.update_of_ne huv]
      | node p => rfl
    · dsimp only
      rw [Function.update_of_ne fun heq => hu (by rw [heq])]
    · dsimp only
      rw [Function.update_of_ne fun heq => hu (by rw [heq])]
  -- seen from the pools nothing has happened but that there is a name more
  have hrel : Relinks { w with pool := Function.update w.pool v .empty, names := v :: w.names }
      { w with
        pool := Function.update w.pool v .empty
        obj := Function.update w.obj v ⟨fun _ => .sentinel v, 0⟩
        names := v :: w.names } := ⟨rfl, rfl, rfl, fun _ => Or.inl rfl⟩
  refine h.put [v] hu (fun u hmem hnot => ?_) (fun u hnot => ?_) (hrel.pools hpools) ?_ (fun u hmem _ => ?_) fun _ u hmem _ => ?_
  · have huv : u ≠ v := fun heq => hnot (List.mem_singleton.mpr heq)
    refine ⟨(List.mem_cons.mp hmem).resolve_left huv, fun q hq heq => ?_⟩
    subst heq
    rcases List.mem_cons.mp hq with heq | hq
    · exact huv (BaseNode.sentinel.inj heq).symm
    · obtain ⟨a, -, heq⟩ := mem_baseNodes.mp hq
      cases heq
  · have huv : u ≠ v := fun heq => hnot (List.mem_singleton.mpr heq)
    exact ⟨Function.update_of_ne huv _ _, Function.update_of_ne huv _ _⟩
  · have hsame : nodesOf (Function.update A v []) (v :: w.names) = nodesOf A w.names := by
      unfold nodesOf
      rw [List.flatMap_cons, Function.update_self, List.map_nil, List.nil_append]
      exact nodesOf_congr fun u hu => Function.update_of_ne (hne u hu) _ _
    dsimp only
    rw [hsame]
  · obtain rfl := List.mem_singleton.mp hmem
    rw [Function.update_self]
    refine ⟨Circular.nil_iff.mpr ⟨?_, ?_⟩, ?_, fun a ha => (by cases ha)⟩
    · unfold NodeWorld.ptr
      dsimp only
      rw [Function.update_self]
    · unfold NodeWorld.ptr
      dsimp only
      rw [Function.update_self]
    · dsimp only
      rw [Function.update_self]
      rfl
  · obtain rfl := List.mem_singleton.mp hmem
    dsimp only
    rw [Function.update_self, Function.update_self, Function.update_self]
    rfl

/-- The names of the lists, without one that has no nodes. -/
theorem erase_name (h : ListsHold T tidy w (Function.update A v []) own others) (hv : v ∈ w.names) (hown : own v = []) :
    ListsHold T tidy { w with names := w.names.erase v } A own others := by
  have hnd := h.names_nodup
  have hsame : ∀ u ∈ w.names.erase v, Function.update A v [] u = A u := fun u hu =>
    Function.update_of_ne ((hnd.mem_erase_iff).mp hu).1 _ _
  have hcached : ((w.names.erase v).flatMap own).Perm (w.names.flatMap own) := by
    refine List.Perm.trans ?_ ((List.perm_cons_erase hv).flatMap_right own).symm
    rw [List.flatMap_cons, hown, List.nil_append]
  have hcaches : ∀ u ∈ w.names.erase v, FreeNodes w.cell (w.pool u).freeNodes (own u) ∧ (w.pool u).cachedNodeCount = (own u).length := by
    intro u hu
    have hu := h.pools.caches (List.mem_of_mem_erase hu)
    exact ⟨hu.chain, hu.count⟩
  have hpools := h.pools.rearranged (hnd.erase v) hcached hcaches
  have hlive : (nodesOf (Function.update A v []) w.names).Perm (nodesOf A (w.names.erase v)) := nodesOf_update hnd hv
  refine ⟨hpools.perm hlive, fun u hu => ?_, fun htidy u hu => ?_⟩
  · have hat := h.list u (List.mem_of_mem_erase hu)
    rw [hsame u hu] at hat
    exact hat.congr (Untouched.withNames (fun _ => False) w _) fun _ _ hcon => hcon
  · have hc := h.counted htidy u (List.mem_of_mem_erase hu)
    rwa [hsame u hu] at hc

/-- What a list has, and what the others have. -/
theorem emptied_perm {vs : List ℕ} (hv : v ∈ vs) :
    ((((A v).map Prod.fst).reverse ++ own v) ++ ((vs.erase v).flatMap own ++ nodesOf A (vs.erase v))).Perm (vs.flatMap own ++ nodesOf A vs) := by
  refine List.Perm.trans ?_ (((List.perm_cons_erase hv).flatMap_right own).symm.append (nodesOf_perm_erase hv).symm)
  rw [List.flatMap_cons]
  have hrev : (((A v).map Prod.fst).reverse ++ own v).Perm (own v ++ (A v).map Prod.fst) :=
    List.perm_append_comm.trans ((List.reverse_perm _).append_left _)
  refine (hrev.append_right _).trans ?_
  rw [List.append_assoc, List.append_assoc]
  refine List.Perm.append_left _ ?_
  rw [← List.append_assoc, ← List.append_assoc]
  exact List.perm_append_comm.append_right _

/-- The nodes of the list, live and cached, go back to the allocator. -/
theorem ends_destruct (h : ListsHold T tidy w A own others) (hv : v ∈ w.names) :
    (SharedMemoryList.destruct T v).Ends w
      (fun _ w' => (∃ own', ListsHold T tidy w' A own' others) ∧ w'.names = w.names.erase v ∧
        ∃ given, GivesBack given w w' ∧ (∀ p ∈ given, w.heap.Holds p) ∧ ∀ p, w'.heap.Holds p → w.heap.Holds p) F := by
  unfold SharedMemoryList.destruct
  refine (h.ends_clear hv).bind fun _ t ht => ?_
  obtain ⟨hclear, hnames, -, hfreed⟩ := ht
  refine (hclear.ends_shrinkToFit (hnames ▸ hv)).bind fun _ t' ht' => ends_store ?_
  obtain ⟨hshrunk, hnames', -, hfreed'⟩ := ht'
  have hv' : v ∈ t'.names := hnames' ▸ hnames ▸ hv
  rw [Function.update_self, hfreed] at hfreed'
  have herased := hshrunk.erase_name hv' (Function.update_self ..)
  refine ⟨⟨_, herased⟩, by rw [hnames', hnames], ((A v).map Prod.fst).reverse ++ own v, ?_⟩
  refine h.pools.released herased.pools ?_ hfreed'
  -- what is held comes down to the same
  have hnd := h.names_nodup
  have hcached : ((t'.names.erase v).flatMap (Function.update (Function.update own v (((A v).map Prod.fst).reverse ++ own v)) v [])) =
      (w.names.erase v).flatMap own := by
    rw [hnames', hnames]
    refine List.flatMap_congr fun u hu => ?_
    have huv := ((hnd.mem_erase_iff).mp hu).1
    rw [Function.update_of_ne huv, Function.update_of_ne huv]
  dsimp only
  rw [hcached, hnames', hnames]
  exact emptied_perm hv

/-- Only the sequences of the lists that exist matter. -/
theorem of_same (h : ListsHold T tidy w A own others) (hsame : ∀ u ∈ w.names, A' u = A u) : ListsHold T tidy w A' own others := by
  refine ⟨?_, fun u hu => ?_, fun htidy u hu => ?_⟩
  · rw [nodesOf_congr hsame]
    exact h.pools
  · rw [hsame u hu]
    exact h.list u hu
  · rw [hsame u hu]
    exact h.counted htidy u hu

/-- Where the insertion throws, the list is destroyed with what has come in. -/
theorem ends_constructWith {insertion : ListOp E Unit} {P : List (ℕ × E) → Prop} (h : ListsHold T tidy w A own others) (hv : v ∉ w.names)
    (hins : ∀ {t own}, ListsHold T tidy t (Function.update A v []) own others → t.names = v :: w.names → t.heap = w.heap →
      insertion.Ends t (fun _ w' => ∃ new, P new ∧ ListsAre T tidy t (Function.update A v new) others w')
        fun _ w' => ∃ new, ListsKept T tidy t (Function.update A v new) others w') :
    (constructWith T v insertion).Ends w
      (fun _ w' => ∃ new, P new ∧ (∃ own, ListsHold T tidy w' (Function.update A v new) own others) ∧ w'.names = v :: w.names ∧
        w'.heap.freed = w.heap.freed)
      fun _ w' => (∃ own, ListsHold T tidy w' A own others) ∧ w'.names = w.names ∧ ∃ given, GivesBack given w w' := by
  unfold constructWith
  refine (h.ends_construct hv).bind fun _ t ht => ?_
  obtain ⟨hborn, hnames, hheap⟩ := ht
  refine (hins hborn hnames hheap).attempt_bind (fun e t' ht' => ?_) fun _ t' ht' => ?_
  · obtain ⟨new, hkept⟩ := ht'
    obtain ⟨own', hhold⟩ := hkept.hold
    obtain ⟨given, hgiven⟩ := hkept.spares.givesBack
    have hv' : v ∈ t'.names := by
      rw [hkept.names_eq, hnames]
      exact List.mem_cons_self
    refine (hhold.ends_destruct hv').bind fun _ w' hw' => ends_throw ?_
    obtain ⟨⟨own'', hgone⟩, hnames', given', hback, hheld, hkeep⟩ := hw'
    have hback' := hgiven.trans hback hheld hkeep
    rw [hkept.names_eq, hnames, List.erase_cons_head] at hnames'
    refine ⟨⟨own'', hgone.of_same fun u hu => ?_⟩, hnames', given' ++ given, ?_, hback'.nodup, hback'.gone⟩
    · rw [hnames'] at hu
      have hne : u ≠ v := fun heq => hv (heq ▸ hu)
      exact (Function.update_of_ne hne _ _).symm
    · rw [hback'.freed_eq, hheap]
  · obtain ⟨new, hnew, hare⟩ := ht'
    exact ends_pure ⟨new, hnew, hare.hold, hare.names_eq.trans hnames, by rw [hare.freed_eq, hheap]⟩

end ListsHold

/-- What a new list is left with is what has been inserted. -/
theorem Receives.new {values : List E} (h : Receives T tidy t (Function.update A v []) others v [] [] values w') :
    ∃ new, new.map Prod.snd = values ∧ ListsAre T tidy t (Function.update A v new) others w' := by
  obtain ⟨new, hnew, hare⟩ := h
  rw [Function.update_idem, List.append_nil, List.nil_append] at hare
  exact ⟨new, hnew, hare⟩

theorem ReceivesSome.new {values : List E} (h : ReceivesSome T tidy t (Function.update A v []) others v [] [] values w') :
    ∃ new, ListsKept T tidy t (Function.update A v new) others w' := by
  obtain ⟨new, -, hkept⟩ := h
  rw [Function.update_idem, List.append_nil, List.nil_append] at hkept
  exact ⟨new, hkept⟩

/-- A list `v` with these values has come to be. -/
def Constructed (T : ListType E) (tidy : Prop) (w : ListWorld E) (A : ℕ → List (ℕ × E)) (others : List (ℕ × ℕ)) (v : ℕ) (values : List E)
    (w' : ListWorld E) : Prop :=
  ∃ new, new.map Prod.snd = values ∧ (∃ own, ListsHold T tidy w' (Function.update A v new) own others) ∧ w'.names = v :: w.names ∧
    w'.heap.freed = w.heap.freed

/-- Nothing has come to be, and what was made for it has been given back. -/
def NotConstructed (T : ListType E) (tidy : Prop) (w : ListWorld E) (A : ℕ → List (ℕ × E)) (others : List (ℕ × ℕ)) (w' : ListWorld E) : Prop :=
  (∃ own, ListsHold T tidy w' A own others) ∧ w'.names = w.names ∧ ∃ given, GivesBack given w w'

namespace ListsHold

theorem begin_empty (h : ListsHold T tidy t (Function.update A v []) own others) (hv : v ∈ t.names) :
    t.ptr .next (.sentinel v) = positionAt v ([] : List (ℕ × E)) := by
  rw [h.first_eq hv, Function.update_self]

theorem ends_constructCount (h : ListsHold T tidy w A own others) (hv : v ∉ w.names) (hroom : AddressRoom w.heap T.sizeofNode T.alignofNode) (n : ℕ) :
    (constructCount T v n).Ends w (fun _ w' => Constructed T tidy w A others v (List.replicate n T.default) w')
      fun _ w' => NotConstructed T tidy w A others w' := by
  refine h.ends_constructWith hv fun {t own} ht hnames hheap => ?_
  have hv' : v ∈ t.names := hnames ▸ List.mem_cons_self
  have hnil : Function.update A v [] v = [] := Function.update_self ..
  have hgrow := ht.ends_growTo (x := T.default) (n := n) hv' (hheap ▸ hroom) (Nat.sub_le _ _)
  rw [hnil] at hgrow
  exact hgrow.mono (fun _ _ hr => hr.new) fun _ _ he => he.new

theorem ends_constructFill (h : ListsHold T tidy w A own others) (hv : v ∉ w.names) (hroom : AddressRoom w.heap T.sizeofNode T.alignofNode) (n : ℕ) (x : E) :
    (constructFill T v n x).Ends w (fun _ w' => Constructed T tidy w A others v (List.replicate n x) w')
      fun _ w' => NotConstructed T tidy w A others w' := by
  refine h.ends_constructWith hv fun {t own} ht hnames hheap => ?_
  have hv' : v ∈ t.names := hnames ▸ List.mem_cons_self
  have hnil : Function.update A v [] v = [] ++ [] := Function.update_self ..
  unfold begin'
  refine ends_readPtr_bind NodeWorld.valid_sentinel ?_
  rw [ht.begin_empty hv']
  refine ((ht.ends_insertFill hv' hnil (hheap ▸ hroom) n x).mono (fun _ _ hr => hr) fun _ _ he => he.new).bind fun _ _ hr => ends_pure hr.new

theorem ends_constructRange (h : ListsHold T tidy w A own others) (hv : v ∉ w.names) (hroom : AddressRoom w.heap T.sizeofNode T.alignofNode)
    (values : List E) :
    (constructRange T v values).Ends w (fun _ w' => Constructed T tidy w A others v values w')
      fun _ w' => NotConstructed T tidy w A others w' := by
  refine h.ends_constructWith hv fun {t own} ht hnames hheap => ?_
  have hv' : v ∈ t.names := hnames ▸ List.mem_cons_self
  have hnil : Function.update A v [] v = [] ++ [] := Function.update_self ..
  unfold begin'
  refine ends_readPtr_bind NodeWorld.valid_sentinel ?_
  rw [ht.begin_empty hv']
  refine ((ht.ends_insertRange hv' hnil (hheap ▸ hroom) values).mono (fun _ _ hr => hr) fun _ _ he => he.new).bind fun _ _ hr => ends_pure hr.new

theorem ends_copyConstruct (h : ListsHold T tidy w A own others) (hv : v ∉ w.names) (hother : other ∈ w.names)
    (hroom : AddressRoom w.heap T.sizeofNode T.alignofNode) :
    (copyConstruct T v other).Ends w (fun _ w' => Constructed T tidy w A others v ((A other).map Prod.snd) w')
      fun _ w' => NotConstructed T tidy w A others w' := by
  have hne : other ≠ v := fun heq => hv (heq ▸ hother)
  refine h.ends_constructWith hv fun {t own} ht hnames hheap => ?_
  have hv' : v ∈ t.names := hnames ▸ List.mem_cons_self
  have hother' : other ∈ t.names := hnames ▸ List.mem_cons_of_mem _ hother
  have hnil : Function.update A v [] v = [] ++ [] := Function.update_self ..
  have hsource : Function.update A v [] other = [] ++ (A other ++ []) := by
    rw [Function.update_of_ne hne, List.append_nil]
    rfl
  have hlen := ht.length_lt hother'
  rw [Function.update_of_ne hne] at hlen
  unfold begin'
  refine ends_readPtr_bind NodeWorld.valid_sentinel (ends_readPtr_bind NodeWorld.valid_sentinel ?_)
  rw [ht.begin_empty hv', ht.first_eq hother', Function.update_of_ne hne]
  have hcopy := ht.ends_insertFrom hv' hother' hne hnil hsource (hheap ▸ hroom) hlen.le
  rw [List.append_nil] at hcopy
  exact hcopy.mono (fun _ _ hr => hr.new) fun _ _ he => he.new

end ListsHold

/-! Nodes that go over to another list object. -/

/-- The circle of `v` goes through `l`, and no other node has been touched. -/
structure Takes (S : BaseNode → Prop) (w : ListWorld E) (nx pv : BaseNode → BaseNode) (v : ℕ) (l : List BaseNode) (t' : ListWorld E)
    (nx' pv' : BaseNode → BaseNode) : Prop where
  wired : Wired S w nx' pv' t'
  circle : Circular nx' pv' (.sentinel v) l
  same : ∀ q, q ≠ .sentinel v → q ∉ l → nx' q = nx q ∧ pv' q = pv q

namespace SharedMemoryList

theorem ends_takeNothing (h : Wired S w nx pv t) (hs : S (.sentinel v)) :
    (resetSentinel v).Ends t (fun _ t' => ∃ nx' pv', Takes S w nx pv v [] t' nx' pv') F := by
  unfold resetSentinel
  refine h.ends_prev_bind NodeWorld.valid_sentinel hs fun _ h₁ => ends_setPtr (h₁.valid NodeWorld.valid_sentinel) ?_
  have h₂ := h₁.setNext (r := .sentinel v) NodeWorld.valid_sentinel hs
  refine ⟨_, _, h₂, Circular.nil_iff.mpr ⟨Function.update_self .., Function.update_self ..⟩, fun q hq _ => ?_⟩
  exact ⟨Function.update_of_ne hq _ _, Function.update_of_ne hq _ _⟩

/-- A row of nodes is closed through the sentinel of `v`. -/
theorem ends_takeCircle (h : Wired S w nx pv t) (hs : S (.sentinel v)) (hl : ∀ q ∈ l, S q ∧ w.Valid q)
    (hnd : (BaseNode.sentinel v :: l).Nodup) (hrow : LinkedRow nx pv l) (ha : l.head? = some first) (hb : l.getLast? = some last) :
    (takeCircle v first last).Ends t (fun _ t' => ∃ nx' pv', Takes S w nx pv v l t' nx' pv') F := by
  obtain ⟨hsnot, hnd'⟩ := List.nodup_cons.mp hnd
  have hamem := List.mem_of_head? ha
  have hbmem := List.mem_of_getLast? hb
  have hout : ∀ q ∈ l, q ≠ .sentinel v := fun q hq heq => hsnot (by rw [← heq]; exact hq)
  unfold takeCircle
  refine h.ends_next_bind NodeWorld.valid_sentinel hs fun _ h₁ => h₁.ends_prev_bind NodeWorld.valid_sentinel hs fun _ h₂ => ?_
  refine h₂.ends_prev_bind (hl _ hamem).2 (hl _ hamem).1 fun _ h₃ => ends_setPtr (h₃.valid (hl _ hbmem).2) ?_
  have h₄ := h₃.setNext (r := .sentinel v) (hl _ hbmem).2 (hl _ hbmem).1
  refine ⟨_, _, h₄, Circular.of_row (hrow.congr (fun q hq => ?_) fun q hq => ?_) ha hb ⟨?_, ?_⟩ ⟨?_, ?_⟩, fun q hq hql => ⟨?_, ?_⟩⟩
  · rw [Function.update_of_ne (Circular.dropLast_ne_last hnd' hb hq), Function.update_of_ne (hout q (List.dropLast_subset _ hq))]
  · rw [Function.update_of_ne (Circular.tail_ne_head hnd' ha hq), Function.update_of_ne (hout q (List.mem_of_mem_tail hq))]
  · rw [Function.update_of_ne (hout last hbmem).symm, Function.update_self]
  · rw [Function.update_self]
  · rw [Function.update_self]
  · rw [Function.update_of_ne (hout first hamem).symm, Function.update_self]
  · rw [Function.update_of_ne fun heq => hql (by rw [heq]; exact hbmem), Function.update_of_ne hq]
  · rw [Function.update_of_ne fun heq => hql (by rw [heq]; exact hamem), Function.update_of_ne hq]

/-- The nodes of another list, if it has any. -/
theorem ends_take_bind {Q : α → ListWorld E → Prop} {k : Unit → ListOp E α} (h : Wired S w nx pv t) (hs : S (.sentinel v))
    (hl : ∀ q ∈ l, S q ∧ w.Valid q) (hnd : (BaseNode.sentinel v :: l).Nodup) (hrow : LinkedRow nx pv l) (hn : n = l.length)
    (hfirst : l ≠ [] → l.head? = some first ∧ l.getLast? = some last)
    (hk : ∀ t' nx' pv', Takes S w nx pv v l t' nx' pv' → (k ()).Ends t' Q F) :
    (if n = 0 then (resetSentinel v >>= k) else (takeCircle v first last >>= k)).Ends t Q F := by
  by_cases hzero : n = 0
  · obtain rfl : l = [] := List.length_eq_zero_iff.mp (hn ▸ hzero)
    rw [if_pos hzero]
    refine (ends_takeNothing h hs).bind fun _ t' ht' => ?_
    obtain ⟨nx', pv', htakes⟩ := ht'
    exact hk t' nx' pv' htakes
  · have hne : l ≠ [] := fun heq => hzero (by rw [hn, heq, List.length_nil])
    obtain ⟨ha, hb⟩ := hfirst hne
    rw [if_neg hzero]
    refine (ends_takeCircle h hs hl hnd hrow ha hb).bind fun _ t' ht' => ?_
    obtain ⟨nx', pv', htakes⟩ := ht'
    exact hk t' nx' pv' htakes

end SharedMemoryList

theorem Circular.row {β : Type} {next prev : β → β} {s : β} {xs : List β} (h : Circular next prev s xs) : LinkedRow next prev xs := by
  have h' : LinkedRow next prev ([s] ++ (xs ++ [s])) := h
  exact (LinkedRow.append_iff.mp (LinkedRow.append_iff.mp h').2.1).1

theorem baseNodes_ends {s : BaseNode} (h : l ≠ []) : l.head? = some (l.headD s) ∧ l.getLast? = some (l.getLastD s) := by
  constructor
  · rw [List.headD_eq_head?_getD, List.head?_eq_some_head h]
    rfl
  · rw [List.getLastD_eq_getLast?, List.getLast?_eq_some_getLast h]
    rfl

/-- The sequences of `v` and `other` are exchanged. -/
def exchanged {β : Type} (A : ℕ → β) (v other : ℕ) : ℕ → β := Function.update (Function.update A v (A other)) other (A v)

theorem exchanged_self {β : Type} (A : ℕ → β) (v : ℕ) : exchanged A v v = A := by
  unfold exchanged
  rw [Function.update_idem, Function.update_eq_self]

/-- The sequence of `other` goes over to `v`. -/
def takenOver {β : Type} (A : ℕ → List β) (v other : ℕ) : ℕ → List β := Function.update (Function.update A v (A other)) other []

theorem ptr_withPool (w : ListWorld E) (P : ℕ → NodePool) : ({ w with pool := P } : ListWorld E).ptr = w.ptr := by
  funext f q
  cases q <;> rfl

theorem ListAt.withPool (h : ListAt w v xs) (P : ℕ → NodePool) : ListAt { w with pool := P } v xs := by
  refine ⟨?_, h.size_eq, h.elems⟩
  rw [ptr_withPool]
  exact h.circle

namespace ListsHold

/-- The pools have changed hands; whether their counters are right is another matter. -/
theorem withPool {P : ℕ → NodePool} (h : ListsHold T tidy w A own others)
    (hpools : PoolsHold T.toNodeType { w with pool := P } own' (nodesOf A w.names) others) : ListsHold T False { w with pool := P } A own' others :=
  ⟨hpools, fun u hu => (h.list u hu).withPool P, fun hcon => hcon.elim⟩

theorem counting (h : ListsHold T False w A own others)
    (hcount : tidy → ∀ v ∈ w.names, (w.pool v).nodePoolAllocations = (A v).length+(own v).length) : ListsHold T tidy w A own others :=
  ⟨h.pools, h.list, hcount⟩

/-- Two lists have been worked on, not their pools. -/
theorem put_two (h : ListsHold T False w A own others) (hv : v ∈ w.names) (hother : other ∈ w.names) (hne : v ≠ other) (hrel : Relinks w t)
    (hu : Untouched (fun q => q ∈ circleOf v (A v) ∨ q ∈ circleOf other (A other)) w t) (hsame : ∀ u, u ≠ v → u ≠ other → A' u = A u)
    (hpair : (A' v ++ A' other).Perm (A v ++ A other))
    (hcircle : Circular (t.ptr .next) (t.ptr .prev) (.sentinel v) (baseNodes (A' v)))
    (hcircle' : Circular (t.ptr .next) (t.ptr .prev) (.sentinel other) (baseNodes (A' other)))
    (hsize : (t.obj v).size = (A' v).length) (hsize' : (t.obj other).size = (A' other).length) : ListsHold T False t A' own others := by
  have helem : ∀ a ∈ A' v ++ A' other, t.elem? a.1 = some a.2 := by
    intro a ha
    rw [hrel.elem_eq]
    rcases List.mem_append.mp (hpair.mem_iff.mp ha) with ha | ha
    · exact (h.list v hv).elems a ha
    · exact (h.list other hother).elems a ha
  refine h.put [v, other] hu (fun u hmem hout => ?_) (fun u hout => ⟨?_, rfl⟩) (hrel.pools h.pools) ?_ (fun u hmem _ => ?_) fun hcon => hcon.elim
  · rw [hrel.names_eq] at hmem
    refine ⟨hmem, fun q hq hin => ?_⟩
    rcases hin with hin | hin
    · exact h.apart hmem hv (fun heq => hout (by simp [heq])) hq hin
    · exact h.apart hmem hother (fun heq => hout (by simp [heq])) hq hin
  · have hout' : u ≠ v ∧ u ≠ other := by simpa using hout
    exact hsame u hout'.1 hout'.2
  · rw [hrel.names_eq]
    refine (exchange_perm h.names_nodup hv hother hne.symm (fun u huv huo => by rw [hsame u huv huo]) ?_).symm
    rw [← List.map_append, ← List.map_append]
    exact hpair.map _
  · by_cases huv : u = v
    · subst huv
      exact ⟨hcircle, hsize, fun a ha => helem a (List.mem_append_left _ ha)⟩
    · obtain rfl : u = other := (List.mem_cons.mp hmem).elim (fun heq => absurd heq huv) List.mem_singleton.mp
      exact ⟨hcircle', hsize', fun a ha => helem a (List.mem_append_right _ ha)⟩

/-- The two lists take each other's nodes and pools. -/
theorem ends_swap (h : ListsHold T tidy w A own others) (hv : v ∈ w.names) (hother : other ∈ w.names) :
    (SharedMemoryList.swap v other).Ends w
      (fun _ w' => ListsHold T tidy w' (exchanged A v other) (exchanged own v other) others ∧ w'.names = w.names ∧ w'.heap = w.heap) F := by
  unfold SharedMemoryList.swap
  by_cases hne : v = other
  · subst hne
    rw [if_pos rfl, exchanged_self, exchanged_self]
    exact ends_pure ⟨h, rfl, rfl⟩
  rw [if_neg hne]
  apply ends_get_bind
  unfold NodePool.swap NodePool.modify
  refine Ends.bind (Q := fun _ t => t = { w with pool := Function.update (Function.update w.pool v (w.pool other)) other (w.pool v) })
    (ends_get_bind (ends_store_bind (ends_store rfl))) fun _ t ht => ?_
  have h₀ := h.withPool (h.pools.swapped hv hother (Ne.symm hne))
  rw [← ht] at h₀
  have hv₀ : v ∈ t.names := by rwa [ht]
  have hother₀ : other ∈ t.names := by rwa [ht]
  have hpool : t.pool = Function.update (Function.update w.pool v (w.pool other)) other (w.pool v) := by rw [ht]
  have hsize : ∀ u ∈ t.names, (w.obj u).size = (A u).length := by
    intro u hu
    refine (h.list u ?_).size_eq
    rwa [ht] at hu
  have hkeep : t.names = w.names ∧ t.heap = w.heap := by rw [ht]; exact ⟨rfl, rfl⟩
  refine ends_readPtr_bind NodeWorld.valid_sentinel (ends_readPtr_bind NodeWorld.valid_sentinel
    (ends_readPtr_bind NodeWorld.valid_sentinel (ends_readPtr_bind NodeWorld.valid_sentinel ?_)))
  rw [h₀.first_eq hv₀, h₀.last_eq hv₀, h₀.first_eq hother₀, h₀.last_eq hother₀, hsize other hother₀, hsize v hv₀]
  -- no node of one is a node of the other
  have hnd : ∀ u u', u ∈ t.names → u' ∈ t.names → u ≠ u' → (BaseNode.sentinel u :: baseNodes (A u')).Nodup := by
    intro u u' hu hu' huu
    refine List.nodup_cons.mpr ⟨fun hmem => ?_, (List.nodup_cons.mp (h₀.circle_nodup hu')).2⟩
    obtain ⟨a, -, heq⟩ := mem_baseNodes.mp hmem
    cases heq
  set S : BaseNode → Prop := fun q => q ∈ circleOf v (A v) ∨ q ∈ circleOf other (A other)
  have hS : ∀ q, S q → S q ∧ t.Valid q := fun q hq => ⟨hq, hq.elim (h₀.valid hv₀) (h₀.valid hother₀)⟩
  have hapart : ∀ q ∈ circleOf v (A v), q ∉ circleOf other (A other) := fun q hq => h₀.apart hv₀ hother₀ hne hq
  refine ends_take_bind (Wired.start S t) (Or.inl List.mem_cons_self) (fun q hq => hS q (Or.inr (List.mem_cons_of_mem _ hq)))
    (hnd v other hv₀ hother₀ hne) (h₀.list other hother₀).circle.row (length_baseNodes _).symm (fun hcon => baseNodes_ends hcon)
    fun t₁ nx₁ pv₁ ⟨h₁, hcircle₁, hsame₁⟩ => ?_
  have hrow : LinkedRow nx₁ pv₁ (baseNodes (A v)) := by
    have hout : ∀ q ∈ baseNodes (A v), q ≠ .sentinel v ∧ q ∉ baseNodes (A other) := by
      intro q hq
      refine ⟨fun heq => (List.nodup_cons.mp (h₀.circle_nodup hv₀)).1 (by rw [← heq]; exact hq), fun hin => ?_⟩
      exact hapart q (List.mem_cons_of_mem _ hq) (List.mem_cons_of_mem _ hin)
    refine (h₀.list v hv₀).circle.row.congr (fun q hq => ?_) fun q hq => ?_
    · have hq' := hout q (List.dropLast_subset _ hq)
      exact (hsame₁ q hq'.1 hq'.2).1
    · have hq' := hout q (List.mem_of_mem_tail hq)
      exact (hsame₁ q hq'.1 hq'.2).2
  refine ends_take_bind h₁ (Or.inr List.mem_cons_self) (fun q hq => hS q (Or.inl (List.mem_cons_of_mem _ hq)))
    (hnd other v hother₀ hv₀ (Ne.symm hne)) hrow (length_baseNodes _).symm (fun hcon => baseNodes_ends hcon)
    fun t₂ nx₂ pv₂ ⟨h₂, hcircle₂, hsame₂⟩ => ?_
  refine ends_setSize_bind (ends_setSize ?_)
  have hcircle₁' : Circular nx₂ pv₂ (.sentinel v) (baseNodes (A other)) := by
    have hout : ∀ q ∈ BaseNode.sentinel v :: baseNodes (A other), q ≠ .sentinel other ∧ q ∉ baseNodes (A v) := by
      intro q hq
      rcases List.mem_cons.mp hq with rfl | hq
      · exact ⟨fun heq => hne (BaseNode.sentinel.inj heq), (List.nodup_cons.mp (h₀.circle_nodup hv₀)).1⟩
      · refine ⟨fun heq => (List.nodup_cons.mp (h₀.circle_nodup hother₀)).1 (by rw [← heq]; exact hq), fun hin => ?_⟩
        exact hapart q (List.mem_cons_of_mem _ hin) (List.mem_cons_of_mem _ hq)
    exact hcircle₁.congr (fun q hq => (hsame₂ q (hout q hq).1 (hout q hq).2).1) fun q hq => (hsame₂ q (hout q hq).1 (hout q hq).2).2
  have hrel : Relinks t ((t₂.setSize v (A other).length).setSize other (A v).length) :=
    h₂.relinks.trans ((Relinks.setSize _ _ _).trans (.setSize _ _ _))
  have hu : Untouched S t ((t₂.setSize v (A other).length).setSize other (A v).length) :=
    h₂.untouched.trans ((Untouched.setSize (Or.inl List.mem_cons_self)).trans (.setSize (Or.inr List.mem_cons_self)))
  have hat_v : exchanged A v other v = A other := by
    unfold exchanged
    rw [Function.update_of_ne hne, Function.update_self]
  have hat_other : exchanged A v other other = A v := Function.update_self ..
  have hptr : ∀ f, ((t₂.setSize v (A other).length).setSize other (A v).length).ptr f = t₂.ptr f := fun f => by
    rw [NodeWorld.ptr_setSize, NodeWorld.ptr_setSize]
  refine ⟨?_, hrel.names_eq.trans hkeep.1, hrel.heap_eq.trans hkeep.2⟩
  refine (h₀.put_two hv₀ hother₀ hne hrel hu (fun u huv huo => ?_) ?_ ?_ ?_ ?_ ?_).counting fun htidy u hu => ?_
  · unfold exchanged
    rw [Function.update_of_ne huo, Function.update_of_ne huv]
  · rw [hat_v, hat_other]
    exact List.perm_append_comm
  · rw [hptr, hptr, h₂.next_eq, h₂.prev_eq, hat_v]
    exact hcircle₁'
  · rw [hptr, hptr, h₂.next_eq, h₂.prev_eq, hat_other]
    exact hcircle₂
  · rw [NodeWorld.size_setSize_of_ne hne, NodeWorld.size_setSize, hat_v]
  · rw [NodeWorld.size_setSize, hat_other]
  · rw [hrel.names_eq, hkeep.1] at hu
    rw [hrel.pool_eq, hpool]
    have hc := h.counted htidy
    unfold exchanged
    by_cases huo : u = other
    · subst huo
      rw [Function.update_self, Function.update_self, Function.update_self]
      exact hc v hv
    · rw [Function.update_of_ne huo, Function.update_of_ne huo, Function.update_of_ne huo]
      by_cases huv : u = v
      · subst huv
        rw [Function.update_self, Function.update_self, Function.update_self]
        exact hc other hother
      · rw [Function.update_of_ne huv, Function.update_of_ne huv, Function.update_of_ne huv]
        exact hc u hu

/-- The empty list `v` takes the nodes of `other`. -/
theorem ends_adoptNodesFrom (h : ListsHold T False w A own others) (hv : v ∈ w.names) (hother : other ∈ w.names) (hne : v ≠ other) (hA : A v = []) :
    (adoptNodesFrom v other).Ends w
      (fun _ w' => ListsHold T False w' (takenOver A v other) own others ∧ Relinks w w') F := by
  set S : BaseNode → Prop := fun q => q ∈ circleOf v (A v) ∨ q ∈ circleOf other (A other)
  have hsv : S (.sentinel v) := Or.inl List.mem_cons_self
  have hso : S (.sentinel other) := Or.inr List.mem_cons_self
  have hat_v : takenOver A v other v = A other := by
    unfold takenOver
    rw [Function.update_of_ne hne, Function.update_self]
  have hat_other : takenOver A v other other = [] := Function.update_self ..
  have hpair : (takenOver A v other v ++ takenOver A v other other).Perm (A v ++ A other) := by
    rw [hat_v, hat_other, hA, List.append_nil, List.nil_append]
  have hsame : ∀ u, u ≠ v → u ≠ other → takenOver A v other u = A u := by
    intro u huv huo
    unfold takenOver
    rw [Function.update_of_ne huo, Function.update_of_ne huv]
  have hempty := (h.list v hv).circle
  rw [hA] at hempty
  have hself := Circular.nil_iff.mp hempty
  unfold adoptNodesFrom
  refine (ends_resetSentinel (S := S) (v := v) hsv).bind fun _ t₁ ht₁ => ?_
  obtain ⟨hrew, hnext, hprev⟩ := ht₁
  apply ends_get_bind
  refine ends_setSize_bind ?_
  rw [hrew.size_eq, (h.list other hother).size_eq]
  set t₂ := t₁.setSize v (A other).length
  have hrel₂ : Relinks w t₂ := hrew.relinks.trans (.setSize _ _ _)
  have hu₂ : Untouched S w t₂ := hrew.untouched.trans (.setSize hsv)
  -- the sentinel of `v` was alone before
  have hptr : t₂.ptr .next = w.ptr .next ∧ t₂.ptr .prev = w.ptr .prev := by
    rw [NodeWorld.ptr_setSize, NodeWorld.ptr_setSize, hnext, hprev]
    constructor
    · exact Function.update_eq_self_iff.mpr hself.1.symm
    · exact Function.update_eq_self_iff.mpr hself.2.symm
  have hsize_v : (t₂.obj v).size = (A other).length := NodeWorld.size_setSize
  have hsize_o : (t₂.obj other).size = (A other).length := by
    rw [NodeWorld.size_setSize_of_ne (Ne.symm hne), hrew.size_eq, (h.list other hother).size_eq]
  by_cases hzero : (A other).length = 0
  · have hnil := List.length_eq_zero_iff.mp hzero
    rw [if_pos hzero]
    refine ends_pure ⟨h.put_two hv hother hne hrel₂ hu₂ hsame hpair ?_ ?_ ?_ ?_, hrel₂⟩
    · rw [hptr.1, hptr.2, hat_v, hnil]
      exact hempty
    · rw [hptr.1, hptr.2, hat_other, ← hnil]
      exact (h.list other hother).circle
    · rw [hsize_v, hat_v]
    · rw [hsize_o, hat_other, hzero]
      rfl
  · rw [if_neg hzero]
    have hcons : baseNodes (A other) ≠ [] := fun heq => hzero (by rw [← length_baseNodes, heq]; rfl)
    obtain ⟨hfirst, hlast⟩ := baseNodes_ends (s := .sentinel other) hcons
    refine ends_readPtr_bind NodeWorld.valid_sentinel (ends_readPtr_bind NodeWorld.valid_sentinel ?_)
    rw [hptr.1, hptr.2, h.first_eq hother, h.last_eq hother]
    have hsnot : BaseNode.sentinel v ∉ baseNodes (A other) := by
      intro hmem
      obtain ⟨a, -, heq⟩ := mem_baseNodes.mp hmem
      cases heq
    have hnd : (BaseNode.sentinel v :: baseNodes (A other)).Nodup := List.nodup_cons.mpr ⟨hsnot, (List.nodup_cons.mp (h.circle_nodup hother)).2⟩
    have hS : ∀ q ∈ baseNodes (A other), S q ∧ t₂.Valid q := by
      intro q hq
      have hmem := List.mem_cons_of_mem (BaseNode.sentinel other) hq
      exact ⟨Or.inr hmem, hrel₂.valid_iff.mpr (h.valid hother hmem)⟩
    have hrow : LinkedRow (t₂.ptr .next) (t₂.ptr .prev) (baseNodes (A other)) := by
      rw [hptr.1, hptr.2]
      exact (h.list other hother).circle.row
    refine (ends_takeCircle (Wired.start S t₂) hsv hS hnd hrow hfirst hlast).bind fun _ t₃ ht₃ => ?_
    obtain ⟨nx, pv, hwired, hcircle, -⟩ := ht₃
    refine (ends_takeNothing hwired hso).bind fun _ t₄ ht₄ => ends_setSize ?_
    obtain ⟨nx', pv', hwired', hcircle', hsame'⟩ := ht₄
    have hrel : Relinks w (t₄.setSize other 0) := hrel₂.trans (hwired'.relinks.trans (.setSize _ _ _))
    refine ⟨h.put_two hv hother hne hrel (hu₂.trans (hwired'.untouched.trans (.setSize hso))) hsame hpair ?_ ?_ ?_ ?_, hrel⟩
    · rw [NodeWorld.ptr_setSize, NodeWorld.ptr_setSize, hwired'.next_eq, hwired'.prev_eq, hat_v]
      have hout : ∀ q ∈ BaseNode.sentinel v :: baseNodes (A other), q ≠ .sentinel other := by
        intro q hq heq
        rcases List.mem_cons.mp hq with rfl | hq
        · exact hne (BaseNode.sentinel.inj heq)
        · exact (List.nodup_cons.mp (h.circle_nodup hother)).1 (by rw [← heq]; exact hq)
      exact hcircle.congr (fun q hq => (hsame' q (hout q hq) List.not_mem_nil).1) fun q hq => (hsame' q (hout q hq) List.not_mem_nil).2
    · rw [NodeWorld.ptr_setSize, NodeWorld.ptr_setSize, hwired'.next_eq, hwired'.prev_eq, hat_other]
      exact hcircle'
    · rw [NodeWorld.size_setSize_of_ne hne, hwired'.size_eq, hsize_v, hat_v]
    · rw [NodeWorld.size_setSize, hat_other]
      rfl

/-- The pool of `other` has gone over to `v`, and its nodes are yet to follow. -/
structure PoolTaken (T : ListType E) (tidy : Prop) (w : ListWorld E) (A : ℕ → List (ℕ × E)) (own : ℕ → List ℕ) (others : List (ℕ × ℕ)) (v other : ℕ)
    (t : ListWorld E) : Prop where
  hold : ListsHold T False t A (takenOver own v other) others
  names_eq : t.names = w.names
  heap_eq : t.heap = w.heap
  counted : tidy → ∀ u ∈ t.names, (t.pool u).nodePoolAllocations = (takenOver A v other u).length+(takenOver own v other u).length

theorem ends_takeFrom (h : ListsHold T tidy w A own others) (hv : v ∈ w.names) (hother : other ∈ w.names) (hne : v ≠ other) (hown : own v = []) :
    (NodePool.takeFrom v other).Ends w (fun _ t => PoolTaken T tidy w A own others v other t) F := by
  have hperm : (w.names.flatMap (takenOver own v other)).Perm (w.names.flatMap own) := by
    unfold takenOver
    refine exchange_perm h.names_nodup hv hother (Ne.symm hne) (fun u huv huo => ?_) ?_
    · rw [Function.update_of_ne huo, Function.update_of_ne huv]
    · rw [Function.update_of_ne hne, Function.update_self, Function.update_self, hown, List.append_nil, List.nil_append]
  unfold NodePool.takeFrom
  refine ends_get_bind (ends_store_bind (ends_store ⟨?_, rfl, rfl, fun htidy u hu => ?_⟩))
  · exact h.withPool (h.pools.takeFrom h.names_nodup hother (Ne.symm hne) (fun _ hx _ => hx) hperm)
  · have hc := h.counted htidy
    unfold takenOver
    dsimp only at hu ⊢
    by_cases huo : u = other
    · subst huo
      rw [Function.update_self, Function.update_self, Function.update_self]
      rfl
    · rw [Function.update_of_ne huo, Function.update_of_ne huo, Function.update_of_ne huo]
      by_cases huv : u = v
      · subst huv
        rw [Function.update_self, Function.update_self, Function.update_self]
        exact hc other hother
      · rw [Function.update_of_ne huv, Function.update_of_ne huv, Function.update_of_ne huv]
        exact hc u hu

/-- The nodes follow. -/
theorem ends_adopt (h : PoolTaken T tidy w A own others v other t) (hv : v ∈ w.names) (hother : other ∈ w.names) (hne : v ≠ other) (hA : A v = []) :
    (adoptNodesFrom v other).Ends t
      (fun _ w' => ListsHold T tidy w' (takenOver A v other) (takenOver own v other) others ∧ w'.names = w.names ∧ w'.heap = w.heap) F := by
  have hnames := h.names_eq
  refine (h.hold.ends_adoptNodesFrom (hnames ▸ hv) (hnames ▸ hother) hne hA).mono (fun _ w' hw' => ?_) fun _ _ he => he
  obtain ⟨hhold, hrel⟩ := hw'
  refine ⟨hhold.counting fun htidy u hu => ?_, hrel.names_eq.trans hnames, hrel.heap_eq.trans h.heap_eq⟩
  rw [hrel.names_eq] at hu
  rw [hrel.pool_eq]
  exact h.counted htidy u hu

theorem ends_moveConstruct (h : ListsHold T tidy w A own others) (hv : v ∉ w.names) (hother : other ∈ w.names) :
    (SharedMemoryList.moveConstruct v other).Ends w
      (fun _ w' => (∃ own, ListsHold T tidy w' (takenOver A v other) own others) ∧ w'.names = v :: w.names ∧ w'.heap.freed = w.heap.freed) F := by
  have hne : v ≠ other := fun heq => hv (heq ▸ hother)
  unfold SharedMemoryList.moveConstruct
  refine (h.ends_construct hv).bind fun _ t ht => ?_
  obtain ⟨hborn, hnames, hheap⟩ := ht
  have hv' : v ∈ t.names := hnames ▸ List.mem_cons_self
  have hother' : other ∈ t.names := hnames ▸ List.mem_cons_of_mem _ hother
  refine (hborn.ends_takeFrom hv' hother' hne (Function.update_self ..)).bind fun _ t₁ ht₁ => ?_
  refine (ends_adopt ht₁ hv' hother' hne (Function.update_self ..)).mono (fun _ w' hw' => ?_) fun _ _ he => he
  obtain ⟨hhold, hnames', hheap'⟩ := hw'
  have hsame : takenOver (Function.update A v []) v other = takenOver A v other := by
    unfold takenOver
    rw [Function.update_idem, Function.update_of_ne (Ne.symm hne)]
  rw [hsame] at hhold
  exact ⟨⟨_, hhold⟩, hnames'.trans hnames, by rw [hheap', hheap]⟩

theorem ends_moveAssign (h : ListsHold T tidy w A own others) (hv : v ∈ w.names) (hother : other ∈ w.names) :
    (SharedMemoryList.moveAssign T v other).Ends w
      (fun _ w' => (∃ own, ListsHold T tidy w' (if v = other then A else takenOver A v other) own others) ∧ w'.names = w.names ∧
        ∃ given, GivesBack given w w') F := by
  unfold SharedMemoryList.moveAssign
  by_cases hne : v = other
  · rw [if_pos hne, if_pos hne]
    exact ends_pure ⟨⟨own, h⟩, rfl, [], givesBack_none rfl⟩
  rw [if_neg hne, if_neg hne]
  refine (h.ends_clear hv).bind fun _ t ht => ?_
  obtain ⟨hclear, hnames, -, hfreed⟩ := ht
  refine (hclear.ends_shrinkToFit (hnames ▸ hv)).bind fun _ t₁ ht₁ => ?_
  obtain ⟨hshrunk, hnames₁, -, hfreed₁⟩ := ht₁
  have hv₁ : v ∈ t₁.names := hnames₁ ▸ hnames ▸ hv
  have hother₁ : other ∈ t₁.names := hnames₁ ▸ hnames ▸ hother
  rw [Function.update_self, hfreed] at hfreed₁
  -- the pool gives its cache back once more, which is empty by then
  unfold NodePool.moveAssign
  rw [if_neg hne]
  have hagain := hshrunk.ends_shrinkToFit (F := F) hv₁
  rw [Function.update_self, Function.update_idem, Function.update_idem] at hagain
  refine Ends.bind (Q := fun _ t₃ => ∃ t₂, ListsHold T tidy t₂ (Function.update A v []) (Function.update own v []) others ∧ t₂.names = w.names ∧
    t₂.heap.freed = ((A v).map Prod.fst).reverse ++ own v ++ w.heap.freed ∧
    PoolTaken T tidy t₂ (Function.update A v []) (Function.update own v []) others v other t₃) (hagain.bind fun _ t₂ ht₂ => ?_) fun _ t₃ ht₃ => ?_
  · obtain ⟨hshrunk₂, hnames₂, -, hfreed₂⟩ := ht₂
    refine (hshrunk₂.ends_takeFrom (hnames₂ ▸ hv₁) (hnames₂ ▸ hother₁) hne (Function.update_self ..)).mono (fun _ t₃ ht₃ => ?_) fun _ _ he => he
    exact ⟨t₂, hshrunk₂, by rw [hnames₂, hnames₁, hnames], hfreed₂.trans hfreed₁, ht₃⟩
  · obtain ⟨t₂, hhold₂, hnames₂, hfreed₂, htaken⟩ := ht₃
    refine (ends_adopt htaken (hnames₂ ▸ hv) (hnames₂ ▸ hother) hne (Function.update_self ..)).mono (fun _ w' hw' => ?_) fun _ _ he => he
    obtain ⟨hhold, hnames', hheap'⟩ := hw'
    have hsame : takenOver (Function.update A v []) v other = takenOver A v other := by
      unfold takenOver
      rw [Function.update_idem, Function.update_of_ne (Ne.symm hne)]
    rw [hsame] at hhold
    have hperm : ((((A v).map Prod.fst).reverse ++ own v) ++ (t₂.names.flatMap (Function.update own v []) ++ nodesOf (Function.update A v []) t₂.names)).Perm
        (w.names.flatMap own ++ nodesOf A w.names) := by
      have hnd := h.names_nodup
      have hcached : (w.names.flatMap (Function.update own v [])).Perm ((w.names.erase v).flatMap own) := by
        have hrest : (w.names.erase v).flatMap (Function.update own v []) = (w.names.erase v).flatMap own :=
          List.flatMap_congr fun u hu => Function.update_of_ne ((hnd.mem_erase_iff).mp hu).1 _ _
        refine ((List.perm_cons_erase hv).flatMap_right _).trans ?_
        rw [List.flatMap_cons, Function.update_self, List.nil_append, hrest]
      have hlive : (nodesOf (Function.update A v []) w.names).Perm (nodesOf A (w.names.erase v)) := nodesOf_update hnd hv
      rw [hnames₂]
      exact ((hcached.append hlive).append_left _).trans (emptied_perm hv)
    obtain ⟨hback, -, -⟩ := h.pools.released hhold₂.pools hperm hfreed₂
    refine ⟨⟨_, hhold⟩, hnames'.trans hnames₂, _, ?_, hback.nodup, fun p hp => ?_⟩
    · rw [hheap', hback.freed_eq]
    · have hgone := hback.gone p hp
      unfold Heap.Holds at hgone ⊢
      rwa [hheap']

/-- A copy is made, which the list exchanges its nodes with, and destroyed with the nodes it has then. -/
theorem ends_copyAssign {tmp : ℕ} (h : ListsHold T tidy w A own others) (hv : v ∈ w.names) (hother : other ∈ w.names)
    (htmp : v ≠ other → tmp ∉ w.names) (hroom : AddressRoom w.heap T.sizeofNode T.alignofNode) :
    (SharedMemoryList.copyAssign T v other tmp).Ends w
      (fun _ w' => ∃ new, new.map Prod.snd = (A other).map Prod.snd ∧ (∃ own, ListsHold T tidy w' (Function.update A v new) own others) ∧
        w'.names = w.names ∧ ∃ given, GivesBack given w w')
      fun _ w' => NotConstructed T tidy w A others w' := by
  unfold SharedMemoryList.copyAssign
  by_cases hne : v = other
  · subst hne
    rw [if_pos rfl]
    refine ends_pure ⟨A v, rfl, ⟨own, ?_⟩, rfl, [], givesBack_none rfl⟩
    rwa [Function.update_eq_self]
  rw [if_neg hne]
  have htmp' := htmp hne
  have hvt : v ≠ tmp := fun heq => htmp' (heq ▸ hv)
  refine (h.ends_copyConstruct htmp' hother hroom).bind fun _ t ht => ?_
  obtain ⟨new, hnew, ⟨own₁, hcopied⟩, hnames, hfreed⟩ := ht
  have hv₁ : v ∈ t.names := hnames ▸ List.mem_cons_of_mem _ hv
  have htmp₁ : tmp ∈ t.names := hnames ▸ List.mem_cons_self
  refine (hcopied.ends_swap hv₁ htmp₁).bind fun _ t₂ ht₂ => ?_
  obtain ⟨hswapped, hnames₂, hheap₂⟩ := ht₂
  refine (hswapped.ends_destruct (hnames₂ ▸ htmp₁)).mono (fun _ w' hw' => ?_) fun _ _ he => he
  obtain ⟨⟨own₃, hhold⟩, hnames', given, hback, -, -⟩ := hw'
  rw [hnames₂, hnames, List.erase_cons_head] at hnames'
  refine ⟨new, hnew, ⟨own₃, hhold.of_same fun u hu => ?_⟩, hnames', given, ?_, hback.nodup, hback.gone⟩
  · rw [hnames'] at hu
    have hut : u ≠ tmp := fun heq => htmp' (heq ▸ hu)
    unfold exchanged
    rw [Function.update_of_ne hut, Function.update_self]
    by_cases huv : u = v
    · subst huv
      rw [Function.update_self, Function.update_self]
    · rw [Function.update_of_ne huv, Function.update_of_ne huv, Function.update_of_ne hut]
  · rw [hback.freed_eq, hheap₂, hfreed]

end ListsHold

end ShmNext
