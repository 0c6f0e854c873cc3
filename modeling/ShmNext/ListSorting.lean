import ShmNext.ListTransfers

/-! `sort` and `merge`: the nodes are linked anew in the order of a scratch array. -/
namespace ShmNext
open Prog NodeOp SharedMemoryList

variable {E α : Type} {T : ListType E} {w w' t : ListWorld E} {q r : BaseNode} {v other n fuel : ℕ} {F : NodeThrown → ListWorld E → Prop}
  {A : ℕ → List (ℕ × E)} {own : ℕ → List ℕ} {others : List (ℕ × ℕ)} {as bs ds xs : List (ℕ × E)} {tidy : Prop} {S : BaseNode → Prop}
  {nx pv : BaseNode → BaseNode} {l : List BaseNode} {comp : E → E → Bool}

/-- The elements in the order of their values; those with equivalent ones stay as they were. -/
def sortedBy (comp : E → E → Bool) (xs : List (ℕ × E)) : List (ℕ × E) := xs.mergeSort fun a b => !comp b.2 a.2

/-- What the scratch array holds of the nodes. -/
def rowsOf (xs : List (ℕ × E)) : List (BaseNode × E) := xs.map fun a => (.node a.1, a.2)

theorem sortedBy_perm (comp : E → E → Bool) (xs : List (ℕ × E)) : (sortedBy comp xs).Perm xs := List.mergeSort_perm _ _

theorem rowsOf_nodes (xs : List (ℕ × E)) : (rowsOf xs).map Prod.fst = baseNodes xs := List.map_map

theorem sort_rowsOf {S : StableSort (BaseNode × E) (byValue comp)} {sorted : List (BaseNode × E)} (h : S.sort (rowsOf xs) = .ok sorted) :
    sorted = rowsOf (sortedBy comp xs) := by
  rw [S.stable _ _ h]
  exact (List.map_mergeSort (f := fun a : ℕ × E => (BaseNode.node a.1, a.2)) fun a _ b _ => rfl).symm

namespace SharedMemoryList

/-- The loop of `relink_nodes_in_order` makes a row of the nodes. -/
theorem ends_linkNeighbours (h : Wired S w nx pv t) (hS : ∀ q ∈ l, S q ∧ w.Valid q) (hnd : l.Nodup) :
    (linkNeighbours l).Ends t
      (fun _ w' => ∃ nx' pv', Wired S w nx' pv' w' ∧ LinkedRow nx' pv' l ∧ (∀ q, q ∉ l.dropLast → nx' q = nx q) ∧
        ∀ q, q ∉ l.tail → pv' q = pv q) F := by
  induction l generalizing nx pv t with
  | nil => exact ends_pure ⟨nx, pv, h, List.IsChain.nil, fun _ _ => rfl, fun _ _ => rfl⟩
  | cons a l ih =>
    cases l with
    | nil => exact ends_pure ⟨nx, pv, h, List.IsChain.singleton a, fun _ _ => rfl, fun _ _ => rfl⟩
    | cons b l =>
      have ha := hS a List.mem_cons_self
      have hb := hS b (List.mem_cons_of_mem _ List.mem_cons_self)
      obtain ⟨hanot, hnd'⟩ := List.nodup_cons.mp hnd
      have hbnot := (List.nodup_cons.mp hnd').1
      unfold linkNeighbours
      refine h.ends_next_bind ha.2 ha.1 fun _ h₁ => h₁.ends_prev_bind hb.2 hb.1 fun t₂ h₂ => ?_
      refine (ih h₂ (fun q hq => hS q (List.mem_cons_of_mem _ hq)) hnd').mono (fun _ w' hw' => ?_) fun _ _ he => he
      obtain ⟨nx', pv', hwired, hrow, hnx, hpv⟩ := hw'
      refine ⟨nx', pv', hwired, List.isChain_cons_cons.mpr ⟨⟨?_, ?_⟩, hrow⟩, fun q hq => ?_, fun q hq => ?_⟩
      · rw [hnx a fun hin => hanot (List.dropLast_subset _ hin), Function.update_self]
      · rw [hpv b hbnot, Function.update_self]
      · rw [List.dropLast_cons_cons, List.mem_cons, not_or] at hq
        rw [hnx q hq.2, Function.update_of_ne hq.1]
      · rw [List.tail_cons, List.mem_cons, not_or] at hq
        rw [hpv q hq.2, Function.update_of_ne hq.1]

theorem ends_relinkNodesInOrder (hs : S (.sentinel v)) (hS : ∀ q ∈ l, S q ∧ w.Valid q) (hnd : (BaseNode.sentinel v :: l).Nodup) :
    (relinkNodesInOrder v l).Ends w
      (fun _ w' => Rewired S w w' ∧ Circular (w'.ptr .next) (w'.ptr .prev) (.sentinel v) l) F := by
  obtain ⟨hsnot, hnd'⟩ := List.nodup_cons.mp hnd
  unfold relinkNodesInOrder
  cases hhead : l.head? with
  | none =>
    have hnil := List.head?_eq_none_iff.mp hhead
    subst hnil
    refine (ends_resetSentinel hs).mono (fun _ w' hw' => ⟨hw'.1, Circular.nil_iff.mpr ?_⟩) fun _ _ he => he
    rw [hw'.2.1, hw'.2.2, Function.update_self, Function.update_self]
    exact ⟨rfl, rfl⟩
  | some front =>
    obtain ⟨back, hback⟩ : ∃ b, l.getLast? = some b := by
      have hne : l ≠ [] := fun heq => by rw [heq] at hhead; cases hhead
      exact ⟨l.getLast hne, List.getLast?_eq_some_getLast hne⟩
    rw [hback]
    have hfrontmem := List.mem_of_head? hhead
    have hbackmem := List.mem_of_getLast? hback
    refine (Wired.start S w).ends_next_bind NodeWorld.valid_sentinel hs fun _ h₁ => h₁.ends_prev_bind NodeWorld.valid_sentinel hs fun _ h₂ => ?_
    refine h₂.ends_prev_bind (hS _ hfrontmem).2 (hS _ hfrontmem).1 fun _ h₃ => h₃.ends_next_bind (hS _ hbackmem).2 (hS _ hbackmem).1 fun _ h₄ => ?_
    refine (ends_linkNeighbours h₄ hS hnd').mono (fun _ w' hw' => ?_) fun _ _ he => he
    obtain ⟨nx', pv', hwired, hrow, hnx, hpv⟩ := hw'
    refine ⟨hwired.toRewired, ?_⟩
    rw [hwired.next_eq, hwired.prev_eq]
    have hne : ∀ q ∈ l, BaseNode.sentinel v ≠ q := fun q hq heq => hsnot (by rw [heq]; exact hq)
    refine Circular.of_row hrow hhead hback ⟨?_, ?_⟩ ⟨?_, ?_⟩
    · rw [hnx _ fun hin => hsnot (List.dropLast_subset _ hin), Function.update_of_ne (hne _ hbackmem), Function.update_self]
    · rw [hpv _ fun hin => Circular.tail_ne_head hnd' hhead hin rfl, Function.update_self]
    · rw [hnx _ fun hin => Circular.dropLast_ne_last hnd' hback hin rfl, Function.update_self]
    · rw [hpv _ fun hin => hsnot (List.mem_of_mem_tail hin), Function.update_of_ne (hne _ hfrontmem), Function.update_self]

end SharedMemoryList

namespace ListsHold

theorem ends_collectFrom (h : ListsHold T tidy w A own others) (hv : v ∈ w.names) (hA : A v = as ++ ds) (hfuel : ds.length ≤ fuel) :
    (collectFrom v fuel (positionAt v ds)).Ends w (fun rows w' => rows = rowsOf ds ∧ w' = w) F := by
  induction ds generalizing as fuel with
  | nil =>
    unfold collectFrom
    rw [if_pos (by rfl)]
    exact ends_pure ⟨rfl, rfl⟩
  | cons d ds ih =>
    obtain ⟨fuel, rfl⟩ : ∃ k, fuel = k+1 := ⟨fuel-1, by rw [List.length_cons] at hfuel; omega⟩
    have hfirst : positionAt v (d :: ds) = .node d.1 := rfl
    unfold collectFrom
    rw [hfirst, if_neg (by simp)]
    refine ends_readValue_bind (h.elem_eq hv hA) (ends_readPtr_bind (h.node_valid hv hA) ?_)
    rw [h.next_eq hv hA]
    refine (ih (hA.trans (List.append_cons ..)) (Nat.le_of_succ_le_succ hfuel)).bind fun rows t ht => ends_pure ⟨?_, ht.2⟩
    rw [ht.1]
    rfl

/-- The nodes of `v` are linked in the order of their values; where something is thrown, nothing has happened. -/
theorem ends_sort (h : ListsHold T tidy w A own others) (hv : v ∈ w.names) (S : StableSort (BaseNode × E) (byValue comp)) :
    (SharedMemoryList.sort v S).Ends w (fun _ w' => ListsAre T tidy w (Function.update A v (sortedBy comp (A v))) others w')
      fun _ w' => w' = w := by
  unfold SharedMemoryList.sort
  apply ends_get_bind
  have hat := h.list v hv
  rw [hat.size_eq]
  -- fewer than two elements are in order already
  by_cases hlt : (A v).length < 2
  · rw [if_pos hlt]
    have hsame : sortedBy comp (A v) = A v := by
      unfold sortedBy
      match A v, hlt with
      | [], _ => exact List.mergeSort_nil
      | [_], _ => exact List.mergeSort_singleton _
    rw [hsame, Function.update_eq_self]
    exact ends_pure h.are
  rw [if_neg hlt]
  -- the scratch array: until the links are changed whatever throws leaves everything as it is
  refine Ends.bind (Q := fun _ t => t = w) ?_ fun _ t ht => ?_
  · unfold reserveScratch
    cases S.reserve (A v).length with
    | none => exact ends_pure rfl
    | some e => exact ends_throw rfl
  subst ht
  refine ends_readPtr_bind NodeWorld.valid_sentinel ?_
  have hA : A v = [] ++ A v := rfl
  rw [h.first_eq hv]
  refine (h.ends_collectFrom hv hA (h.length_lt hv).le).bind fun rows t' ht' => ?_
  obtain ⟨rfl, rfl⟩ := ht'
  refine Ends.bind (Q := fun sorted t => sorted = rowsOf (sortedBy comp (A v)) ∧ t = t') ?_ fun sorted t ht => ?_
  · unfold sortScratch
    cases hs : S.sort (rowsOf (A v)) with
    | ok sorted => exact ends_pure ⟨sort_rowsOf hs, rfl⟩
    | error e => exact ends_throw rfl
  obtain ⟨rfl, rfl⟩ := ht
  rw [rowsOf_nodes]
  -- the same nodes in another order make a circle again
  have hperm := sortedBy_perm comp (A v)
  have hnodes : (baseNodes (sortedBy comp (A v))).Perm (baseNodes (A v)) := hperm.map _
  have hvalid : ∀ q ∈ baseNodes (sortedBy comp (A v)), q ∈ circleOf v (A v) ∧ t.Valid q := by
    intro q hq
    have hmem := List.mem_cons_of_mem (BaseNode.sentinel v) (hnodes.mem_iff.mp hq)
    exact ⟨hmem, h.valid hv hmem⟩
  have hnd := (hnodes.symm.cons (BaseNode.sentinel v)).nodup (h.circle_nodup hv)
  refine (ends_relinkNodesInOrder (S := fun q => q ∈ circleOf v (A v)) List.mem_cons_self hvalid hnd).mono (fun _ w' hw' => ?_) fun _ _ he => he
  obtain ⟨hrew, hcircle⟩ := hw'
  have hpools := hrew.relinks.pools h.pools
  rw [← Function.update_eq_self v own] at hpools
  refine ⟨⟨_, h.put_one hv hrew.untouched (fun u hmem hne q hq => h.apart hmem hv hne hq) hrew.relinks.names_eq hpools ?_ ⟨hcircle, ?_, fun a ha => ?_⟩
    fun htidy => ?_⟩, hrew.relinks.names_eq, fun n al hr => by rw [hrew.relinks.heap_eq]; exact hr, by rw [hrew.relinks.heap_eq]⟩
  · exact (nodesOf_perm_erase hv).trans ((hperm.map _).symm.append_right _)
  · rw [hrew.size_eq, hat.size_eq, hperm.length_eq]
  · rw [hrew.relinks.elem_eq]
    exact hat.elems a (hperm.mem_iff.mp ha)
  · rw [hrew.relinks.pool_eq, h.counted htidy v hv, hperm.length_eq]

end ListsHold

/-- The sequences once `other` has been merged into `v`. -/
def merged (comp : E → E → Bool) (A : ℕ → List (ℕ × E)) (v other : ℕ) : ℕ → List (ℕ × E) :=
  if v = other ∨ A other = [] then A
  else Function.update (Function.update A other []) v (sortedBy comp (A v ++ A other))

namespace ListsHold

theorem ends_merge (h : ListsHold T tidy w A own others) (hv : v ∈ w.names) (hother : other ∈ w.names) (htidy : tidy → v = other ∨ A other = [])
    (S : StableSort (BaseNode × E) (byValue comp)) :
    (SharedMemoryList.merge v other S).Ends w (fun _ w' => ListsAre T tidy w (merged comp A v other) others w') fun _ w' => w' = w := by
  unfold SharedMemoryList.merge merged
  apply ends_get_bind
  have hat := h.list v hv
  have hat' := h.list other hother
  rw [hat'.size_eq]
  by_cases hnone : v = other ∨ (A other).length = 0
  · rw [if_pos hnone, if_pos (hnone.imp_right List.length_eq_zero_iff.mp)]
    exact ends_pure h.are
  rw [if_neg hnone, if_neg fun hcon => hnone (hcon.imp_right List.length_eq_zero_iff.mpr)]
  obtain ⟨hvo, hsome⟩ := not_or.mp hnone
  refine Ends.bind (Q := fun _ t => t = w) ?_ fun _ t ht => ?_
  · unfold reserveScratch
    cases S.reserve _ with
    | none => exact ends_pure rfl
    | some e => exact ends_throw rfl
  subst ht
  have hA : ∀ u, A u = [] ++ A u := fun _ => rfl
  refine ends_readPtr_bind NodeWorld.valid_sentinel ?_
  rw [h.first_eq hv]
  refine (h.ends_collectFrom hv (hA v) (h.length_lt hv).le).bind fun mine t' ht' => ?_
  obtain ⟨rfl, rfl⟩ := ht'
  refine ends_readPtr_bind NodeWorld.valid_sentinel ?_
  rw [h.first_eq hother]
  refine (h.ends_collectFrom hother (hA other) (h.length_lt hother).le).bind fun rows t ht => ?_
  obtain ⟨rfl, rfl⟩ := ht
  set xs := sortedBy comp (A v ++ A other)
  have happend : rowsOf (A v) ++ rowsOf (A other) = rowsOf (A v ++ A other) := List.map_append.symm
  refine Ends.bind (Q := fun sorted t' => sorted = rowsOf xs ∧ t' = t) ?_ fun sorted t' ht => ?_
  · unfold sortScratch
    rw [happend]
    cases hs : S.sort (rowsOf (A v ++ A other)) with
    | ok sorted => exact ends_pure ⟨sort_rowsOf hs, rfl⟩
    | error e => exact ends_throw rfl
  obtain ⟨rfl, rfl⟩ := ht
  rw [rowsOf_nodes]
  have hperm : xs.Perm (A v ++ A other) := sortedBy_perm comp _
  have hlive : (nodesOf A t'.names).Perm (nodesOf (Function.update (Function.update A other []) v xs) t'.names) := by
    have hall : A other = [] ++ (A other ++ []) := (List.append_nil _).symm
    have hmine : Function.update A other ([] ++ []) v = A v ++ [] := by rw [Function.update_of_ne hvo, List.append_nil]
    refine (nodesOf_transfer h.names_nodup hv hother hall rfl hmine).trans ?_
    rw [List.append_nil, List.append_nil]
    exact (nodesOf_update h.names_nodup hv).trans (((hperm.symm.map _).append_right _).trans (nodesOf_update h.names_nodup hv).symm)
  have hrow := nodesOf_row_nodup (hlive.nodup h.nodes_nodup) hv
  rw [Function.update_self] at hrow
  set S' : BaseNode → Prop := fun q => q ∈ circleOf v (A v) ∨ q ∈ circleOf other (A other)
  have hS : ∀ q ∈ baseNodes xs, S' q ∧ t'.Valid q := by
    intro q hq
    obtain ⟨a, ha, rfl⟩ := mem_baseNodes.mp hq
    rcases List.mem_append.mp (hperm.mem_iff.mp ha) with ha | ha
    · have hmem := List.mem_cons_of_mem (BaseNode.sentinel v) (mem_baseNodes.mpr ⟨a, ha, rfl⟩)
      exact ⟨Or.inl hmem, h.valid hv hmem⟩
    · have hmem := List.mem_cons_of_mem (BaseNode.sentinel other) (mem_baseNodes.mpr ⟨a, ha, rfl⟩)
      exact ⟨Or.inr hmem, h.valid hother hmem⟩
  refine (ends_relinkNodesInOrder (S := S') (Or.inl List.mem_cons_self) hS (circleOf_nodup hrow)).bind fun _ t₁ ht₁ => ends_setSize_bind ?_
  obtain ⟨hrew, hcircle⟩ := ht₁
  have hlen : (rowsOf xs).length = xs.length := List.length_map _
  rw [hlen]
  refine (ends_resetSentinel (S := fun q => q = .sentinel other) rfl).bind fun _ t₂ ht₂ => ends_setSize ?_
  obtain ⟨hreset, hnext, hprev⟩ := ht₂
  have hrel : Relinks t' (t₂.setSize other 0) := hrew.relinks.trans ((Relinks.setSize _ _ _).trans (hreset.relinks.trans (.setSize _ _ _)))
  have hsv : S' (.sentinel v) := Or.inl List.mem_cons_self
  have hso : S' (.sentinel other) := Or.inr List.mem_cons_self
  have hu : Untouched S' t' (t₂.setSize other 0) := by
    refine hrew.untouched.trans ((Untouched.setSize hsv).trans ((hreset.untouched.mono fun q hq => ?_).trans (.setSize hso)))
    rw [hq]
    exact hso
  -- the circle of `v` does not go through the other sentinel
  have hout : ∀ q ∈ BaseNode.sentinel v :: baseNodes xs, q ≠ .sentinel other := by
    intro q hq heq
    rcases List.mem_cons.mp hq with rfl | hq
    · exact hvo (BaseNode.sentinel.inj heq)
    · obtain ⟨a, -, rfl⟩ := mem_baseNodes.mp hq
      cases heq
  refine ⟨⟨own, h.put [v, other] hu (fun u hmem hnot => ?_) (fun u hnot => ?_) (hrel.pools h.pools) ?_ (fun u hmem _ => ?_) fun hti _ _ _ => ?_⟩,
    hrel.names_eq, fun n al hr => by rw [hrel.heap_eq]; exact hr, by rw [hrel.heap_eq]⟩
  · rw [hrel.names_eq] at hmem
    refine ⟨hmem, fun q hq hin => ?_⟩
    rcases hin with hin | hin
    · exact h.apart hmem hv (fun heq => hnot (by simp [heq])) hq hin
    · exact h.apart hmem hother (fun heq => hnot (by simp [heq])) hq hin
  · have hnot' : u ≠ v ∧ u ≠ other := by simpa using hnot
    rw [Function.update_of_ne hnot'.1, Function.update_of_ne hnot'.2]
    exact ⟨rfl, rfl⟩
  · rw [hrel.names_eq]
    exact hlive
  · by_cases huv : u = v
    · subst huv
      rw [Function.update_self]
      refine ⟨?_, ?_, fun a ha => ?_⟩
      · rw [NodeWorld.ptr_setSize, NodeWorld.ptr_setSize, hnext, hprev, NodeWorld.ptr_setSize, NodeWorld.ptr_setSize]
        exact hcircle.congr (fun q hq => Function.update_of_ne (hout q hq) _ _) fun q hq => Function.update_of_ne (hout q hq) _ _
      · rw [NodeWorld.size_setSize_of_ne hvo, hreset.size_eq, NodeWorld.size_setSize]
      · rw [hrel.elem_eq]
        rcases List.mem_append.mp (hperm.mem_iff.mp ha) with ha | ha
        · exact hat.elems a ha
        · exact hat'.elems a ha
    · obtain rfl : u = other := (List.mem_cons.mp hmem).elim (fun heq => absurd heq huv) List.mem_singleton.mp
      rw [Function.update_of_ne huv, Function.update_self]
      refine ⟨?_, NodeWorld.size_setSize, fun a ha => (by cases ha)⟩
      rw [NodeWorld.ptr_setSize, NodeWorld.ptr_setSize, hnext, hprev]
      exact Circular.nil_iff.mpr ⟨Function.update_self .., Function.update_self ..⟩
  · exact absurd (List.length_eq_zero_iff.mpr ((htidy hti).resolve_left hvo)) hsome

end ListsHold

end ShmNext
