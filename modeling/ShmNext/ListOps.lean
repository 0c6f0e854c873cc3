import ShmNext.ListLinks

/-! Insertion and removal of one node, and the loops over them. -/
namespace ShmNext
open Prog NodeOp

variable {E α : Type} {T : ListType E} {w w' t : ListWorld E} {q r before behind : BaseNode} {f : BaseLink} {v u n p : ℕ} {x : E}
  {Q : α → ListWorld E → Prop} {F : NodeThrown → ListWorld E → Prop} {A A' : ℕ → List (ℕ × E)} {own : ℕ → List ℕ}
  {others : List (ℕ × ℕ)} {xs as bs : List (ℕ × E)} {tidy : Prop} {S : BaseNode → Prop} {a : ℕ × E}

/-- Links of nodes in `S` have been set. -/
structure Rewired (S : BaseNode → Prop) (w w' : ListWorld E) : Prop where
  relinks : Relinks w w'
  untouched : Untouched S w w'
  size_eq : ∀ v, (w'.obj v).size = (w.obj v).size

namespace Rewired

theorem refl (w : ListWorld E) : Rewired S w w := ⟨.refl w, .refl w, fun _ => rfl⟩

theorem setPtr (h : Rewired S w t) (hq : w.Valid q) (hS : S q) : Rewired S w (t.setPtr q f r) := by
  refine ⟨h.relinks.trans (.setPtr t q f r), h.untouched.trans (.setPtr (h.relinks.valid_iff.mpr hq) hS), fun v => ?_⟩
  rw [NodeWorld.size_setPtr]
  exact h.size_eq v

theorem valid (h : Rewired S w w') (hq : w.Valid q) : w'.Valid q := h.relinks.valid_iff.mpr hq

end Rewired

namespace SharedMemoryList

theorem ends_linkBetween (hq : w.Valid q) (hbefore : w.Valid before) (hbehind : w.Valid behind) :
    (linkBetween before behind q).Ends w
      (fun _ w' => Rewired (fun r => r = q ∨ r = before ∨ r = behind) w w' ∧
        w'.ptr .next = Function.update (Function.update (w.ptr .next) q behind) before q ∧
        w'.ptr .prev = Function.update (Function.update (w.ptr .prev) q before) behind q) F := by
  unfold linkBetween
  have h₀ : Rewired (fun r => r = q ∨ r = before ∨ r = behind) w w := .refl w
  refine ends_setPtr_bind hq ?_
  have h₁ := h₀.setPtr (f := .prev) (r := before) hq (Or.inl rfl)
  refine ends_setPtr_bind (h₁.valid hq) ?_
  have h₂ := h₁.setPtr (f := .next) (r := behind) hq (Or.inl rfl)
  refine ends_setPtr_bind (h₂.valid hbefore) ?_
  have h₃ := h₂.setPtr (f := .next) (r := q) hbefore (Or.inr (Or.inl rfl))
  refine ends_setPtr (h₃.valid hbehind) ⟨h₃.setPtr hbehind (Or.inr (Or.inr rfl)), ?_, ?_⟩
  · rw [NodeWorld.ptr_setPtr_of_ne (by decide), NodeWorld.ptr_setPtr (h₂.valid hbefore), NodeWorld.ptr_setPtr (h₁.valid hq),
      NodeWorld.ptr_setPtr_of_ne (by decide)]
  · rw [NodeWorld.ptr_setPtr (h₃.valid hbehind), NodeWorld.ptr_setPtr_of_ne (by decide), NodeWorld.ptr_setPtr_of_ne (by decide),
      NodeWorld.ptr_setPtr hq]

theorem ends_resetSentinel (hS : S (.sentinel v)) :
    (resetSentinel v).Ends w
      (fun _ w' => Rewired S w w' ∧ w'.ptr .next = Function.update (w.ptr .next) (.sentinel v) (.sentinel v) ∧
        w'.ptr .prev = Function.update (w.ptr .prev) (.sentinel v) (.sentinel v)) F := by
  unfold resetSentinel
  have h₀ : Rewired S w w := .refl w
  refine ends_setPtr_bind NodeWorld.valid_sentinel ?_
  have h₁ := h₀.setPtr (f := .prev) (r := .sentinel v) NodeWorld.valid_sentinel hS
  refine ends_setPtr NodeWorld.valid_sentinel ⟨h₁.setPtr NodeWorld.valid_sentinel hS, ?_, ?_⟩
  · rw [NodeWorld.ptr_setPtr NodeWorld.valid_sentinel, NodeWorld.ptr_setPtr_of_ne (by decide)]
  · rw [NodeWorld.ptr_setPtr_of_ne (by decide), NodeWorld.ptr_setPtr NodeWorld.valid_sentinel]

theorem ends_unlink (hq : w.Valid q) (hbefore : w.Valid (w.ptr .prev q)) (hbehind : w.Valid (w.ptr .next q)) :
    (unlink q).Ends w
      (fun _ w' => Rewired (fun r => r = q ∨ r = w.ptr .prev q ∨ r = w.ptr .next q) w w' ∧
        w'.ptr .next = Function.update (Function.update (w.ptr .next) (w.ptr .prev q) (w.ptr .next q)) q q ∧
        w'.ptr .prev = Function.update (Function.update (w.ptr .prev) (w.ptr .next q) (w.ptr .prev q)) q q) F := by
  unfold unlink
  refine ends_readPtr_bind hq (ends_readPtr_bind hq ?_)
  have h₀ : Rewired (fun r => r = q ∨ r = w.ptr .prev q ∨ r = w.ptr .next q) w w := .refl w
  refine ends_setPtr_bind hbefore ?_
  have h₁ := h₀.setPtr (f := .next) (r := w.ptr .next q) hbefore (Or.inr (Or.inl rfl))
  refine ends_setPtr_bind (h₁.valid hbehind) ?_
  have h₂ := h₁.setPtr (f := .prev) (r := w.ptr .prev q) hbehind (Or.inr (Or.inr rfl))
  refine ends_setPtr_bind (h₂.valid hq) ?_
  have h₃ := h₂.setPtr (f := .prev) (r := q) hq (Or.inl rfl)
  refine ends_setPtr (h₃.valid hq) ⟨h₃.setPtr hq (Or.inl rfl), ?_, ?_⟩
  · rw [NodeWorld.ptr_setPtr (h₃.valid hq), NodeWorld.ptr_setPtr_of_ne (by decide), NodeWorld.ptr_setPtr_of_ne (by decide),
      NodeWorld.ptr_setPtr hbefore]
  · rw [NodeWorld.ptr_setPtr_of_ne (by decide), NodeWorld.ptr_setPtr (h₂.valid hq), NodeWorld.ptr_setPtr (h₁.valid hbehind),
      NodeWorld.ptr_setPtr_of_ne (by decide)]

end SharedMemoryList

/-- The lists are `A`, the names are as they were, there is room where there was, and no block has been given back. -/
structure ListsAre (T : ListType E) (tidy : Prop) (w : ListWorld E) (A : ℕ → List (ℕ × E)) (others : List (ℕ × ℕ)) (w' : ListWorld E) : Prop where
  hold : ∃ own, ListsHold T tidy w' A own others
  names_eq : w'.names = w.names
  room : ∀ n al, AddressRoom w.heap n al → AddressRoom w'.heap n al
  freed_eq : w'.heap.freed = w.heap.freed

/-- The same where something has been thrown: a block may have been given back that is held no more. -/
structure ListsKept (T : ListType E) (tidy : Prop) (w : ListWorld E) (A : ℕ → List (ℕ × E)) (others : List (ℕ × ℕ)) (w' : ListWorld E) : Prop where
  hold : ∃ own, ListsHold T tidy w' A own others
  names_eq : w'.names = w.names
  spares : NodePool.SparesHeld w w'

namespace ListsAre

theorem trans (h : ListsAre T tidy w A others t) (h' : ListsAre T tidy t A' others w') : ListsAre T tidy w A' others w' :=
  ⟨h'.hold, h'.names_eq.trans h.names_eq, fun n al hroom => h'.room n al (h.room n al hroom), h'.freed_eq.trans h.freed_eq⟩

theorem kept (h : ListsAre T tidy w A others t) (h' : ListsKept T tidy t A' others w') : ListsKept T tidy w A' others w' := by
  refine ⟨h'.hold, h'.names_eq.trans h.names_eq, ?_⟩
  rcases h'.spares with hsame | ⟨p, hgone, hfreed⟩
  · exact Or.inl (hsame.trans h.freed_eq)
  · exact Or.inr ⟨p, hgone, by rw [hfreed, h.freed_eq]⟩

theorem mem (h : ListsAre T tidy w A others w') (hv : v ∈ w.names) : v ∈ w'.names := h.names_eq ▸ hv

end ListsAre

theorem ListsHold.are (h : ListsHold T tidy w A own others) : ListsAre T tidy w A others w := ⟨⟨own, h⟩, rfl, fun _ _ hroom => hroom, rfl⟩

/-- Where `bs` begins in the list `v`: the position before its first node, or the end. -/
abbrev positionAt (v : ℕ) (bs : List (ℕ × E)) : BaseNode := (baseNodes bs).headD (.sentinel v)

theorem positionAt_mem (v : ℕ) (as bs : List (ℕ × E)) : positionAt v bs ∈ circleOf v (as ++ bs) := by
  have hmem := headD_mem (baseNodes bs) (BaseNode.sentinel v)
  unfold circleOf
  rw [baseNodes_append]
  rcases List.mem_cons.mp hmem with heq | hmem
  · exact List.mem_cons.mpr (Or.inl heq)
  · exact List.mem_cons_of_mem _ (List.mem_append_right _ hmem)

theorem lastOf_mem (v : ℕ) (as bs : List (ℕ × E)) : (baseNodes as).getLastD (.sentinel v) ∈ circleOf v (as ++ bs) := by
  have hmem := getLastD_mem (baseNodes as) (BaseNode.sentinel v)
  unfold circleOf
  rw [baseNodes_append]
  rcases List.mem_cons.mp hmem with heq | hmem
  · exact List.mem_cons.mpr (Or.inl heq)
  · exact List.mem_cons_of_mem _ (List.mem_append_left _ hmem)

/-- A pool at work leaves the links alone, but for those of the nodes it makes and destroys. -/
theorem PoolFrame.ptr_eq (h : PoolFrame v w t) (hcell : ∀ p, q = .node p → t.cell p = w.cell p) : t.ptr f q = w.ptr f q := by
  cases q with
  | sentinel u =>
    unfold NodeWorld.ptr
    rw [h.step.obj_eq]
  | node p =>
    unfold NodeWorld.ptr NodeWorld.link
    dsimp only
    rw [hcell p rfl]

theorem PoolFrame.listAt (h : PoolFrame v w t) (hcell : ∀ p, w.IsNode p → t.cell p = w.cell p) (hat : ListAt w u xs) : ListAt t u xs := by
  have hnode : ∀ a ∈ xs, t.cell a.1 = w.cell a.1 := fun a ha => hcell a.1 (NodeWorld.isNode_iff_elem.mpr ⟨a.2, hat.elems a ha⟩)
  have hptr : ∀ f, ∀ q ∈ circleOf u xs, t.ptr f q = w.ptr f q := by
    intro f q hq
    refine h.ptr_eq fun p hp => ?_
    rcases List.mem_cons.mp hq with heq | hq
    · cases heq.symm.trans hp
    · obtain ⟨a, ha, heq⟩ := mem_baseNodes.mp hq
      rw [BaseNode.node.inj (hp.symm.trans heq)]
      exact hnode a ha
  refine ⟨hat.circle.congr (hptr _) (hptr _), ?_, fun a ha => ?_⟩
  · rw [h.step.obj_eq]
    exact hat.size_eq
  · unfold NodeWorld.elem?
    rw [hnode a ha]
    exact hat.elems a ha

namespace ListsHold
open SharedMemoryList

/-- No list changes while a pool is at work that leaves the nodes of the lists alone. -/
theorem of_frame {cached : List ℕ} (h : ListsHold T tidy w A own others) (hframe : PoolFrame v w t)
    (hcell : ∀ p, w.IsNode p → t.cell p = w.cell p) (hpools : PoolsHold T.toNodeType t (Function.update own v cached) (nodesOf A w.names) others)
    (halloc : tidy → v ∈ w.names → (t.pool v).nodePoolAllocations = (A v).length+cached.length) :
    ListsHold T tidy t A (Function.update own v cached) others := by
  refine ⟨hframe.names_eq ▸ hpools, fun u hmem => ?_, fun htidy u hmem => ?_⟩ <;> rw [hframe.names_eq] at hmem
  · exact hframe.listAt hcell (h.list u hmem)
  · by_cases huv : u = v
    · subst huv
      rw [Function.update_self]
      exact halloc htidy hmem
    · rw [Function.update_of_ne huv, hframe.pools_eq u huv]
      exact h.counted htidy u hmem

/-- A node is put into the list `v`, or everything is as it was. -/
theorem ends_emplace (h : ListsHold T tidy w A own others) (hv : v ∈ w.names) (hA : A v = as ++ bs)
    (hroom : AddressRoom w.heap T.sizeofNode T.alignofNode) (x : E) :
    (emplace T v (positionAt v bs) x).Ends w
      (fun q w' => ∃ p, q = .node p ∧ ListsAre T tidy w (Function.update A v (as ++ (p, x) :: bs)) others w')
      fun _ w' => ListsKept T tidy w A others w' := by
  have hposmem := positionAt_mem v as bs
  have hlastmem := lastOf_mem v as bs
  rw [← hA] at hposmem hlastmem
  have hat := h.list v hv
  have hcircle := hat.circle
  rw [hA, baseNodes_append] at hcircle
  unfold emplace createNode
  refine Ends.bind (Q := fun q t => ∃ p, q = .node p ∧ ¬w.LiveNode p ∧ t.cell = Function.update w.cell p (some (.node ⟨fun _ => .node p, x⟩)) ∧
    PoolFrame v w t ∧ ∃ cached, PoolsHold T.toNodeType t (Function.update own v cached) (p :: nodesOf A w.names) others ∧
      (t.pool v).nodePoolAllocations+(own v).length = (w.pool v).nodePoolAllocations+1+cached.length ∧
        t.heap.freed = w.heap.freed) ?_ fun q t ht => ?_
  · refine ((h.pools.ends_create hv hroom).mono (fun _ _ hq => hq) fun e t ht => ?_).bind fun p t ht => ends_pure ⟨p, rfl, ht⟩
    -- nothing has been made
    obtain ⟨hpools, hcell, hframe, halloc, hspares⟩ := ht
    refine ⟨⟨Function.update own v (own v), h.of_frame hframe (fun p _ => congrFun hcell p) ?_ fun htidy _ => ?_⟩, hframe.names_eq, hspares⟩
    · rw [Function.update_eq_self]
      exact hpools
    · rw [halloc]
      exact h.counted htidy v hv
  · obtain ⟨p, rfl, hnew, hcell, hframe, cached, hpools, hcount, hfreed⟩ := ht
    have hother : ∀ p', p' ≠ p → t.cell p' = w.cell p' := fun p' hne => by rw [hcell, Function.update_of_ne hne]
    have hptr : ∀ f q, q ≠ .node p → t.ptr f q = w.ptr f q := by
      intro f q hne
      refine hframe.ptr_eq fun p' hp' => hother p' fun heq => hne ?_
      rw [hp', heq]
    -- what is on a list is not the new node
    have hold : ∀ {u q}, u ∈ w.names → q ∈ circleOf u (A u) → q ≠ .node p ∧ t.Valid q := by
      intro u q hu hq
      have hvalid := h.valid hu hq
      cases q with
      | sentinel u' => exact ⟨by simp, trivial⟩
      | node p' =>
        have hne : p' ≠ p := fun heq => hnew (heq ▸ hvalid)
        refine ⟨fun heq => hne (BaseNode.node.inj heq), ?_⟩
        obtain ⟨n, hn⟩ := hvalid
        exact ⟨n, (hother p' hne).trans hn⟩
    have hpvalid : t.Valid (.node p) := ⟨_, by rw [hcell]; exact Function.update_self ..⟩
    have hlast : t.ptr .prev (positionAt v bs) = (baseNodes as).getLastD (.sentinel v) := by
      rw [hptr _ _ (hold hv hposmem).1]
      exact hcircle.pair.2
    refine ends_readPtr_bind (hold hv hposmem).2 ?_
    rw [hlast]
    refine (ends_linkBetween hpvalid (hold hv hlastmem).2 (hold hv hposmem).2).bind fun _ w₂ hw₂ => ?_
    obtain ⟨hrew, hnext, hprev⟩ := hw₂
    refine ends_get_bind (ends_setSize_bind (ends_pure ⟨p, rfl, ?_, ?_, ?_, ?_⟩))
    rotate_left
    · exact hrew.relinks.names_eq.trans hframe.names_eq
    · intro n al hr
      change AddressRoom w₂.heap n al
      rw [hrew.relinks.heap_eq]
      exact hframe.room n al hr
    · change w₂.heap.freed = _
      rw [hrew.relinks.heap_eq, hfreed]
    have hrel : Relinks t (w₂.setSize v ((w₂.obj v).size+1)) := hrew.relinks.trans (.setSize _ _ _)
    have hu : Untouched (fun q => q = .node p ∨ q ∈ circleOf v (A v)) w (w₂.setSize v ((w₂.obj v).size+1)) := by
      refine (hframe.untouched (Or.inr List.mem_cons_self) fun p' hp' => hother p' fun heq => hp' (Or.inl (by rw [heq]))).trans
        (Untouched.trans ?_ (.setSize (Or.inr List.mem_cons_self)))
      refine ⟨fun f q hq => hrew.untouched.ptr_eq f q fun hin => hq ?_, fun p' hp' => hrew.untouched.elem_eq p' fun hin => hp' ?_,
        fun u _ => hrew.size_eq u, fun u _ => congrFun hrew.relinks.pool_eq u⟩ <;>
      · rcases hin with hin | hin | hin <;> rw [hin]
        · exact Or.inl rfl
        · exact Or.inr hlastmem
        · exact Or.inr hposmem
    refine ⟨Function.update own v cached, h.put_one hv hu (fun u hmem hne q hq hin => ?_) (hrel.names_eq.trans hframe.names_eq)
      (hrel.pools hpools) ?_ ?_ fun htidy => ?_⟩
    · rcases hin with rfl | hin
      · exact (hold hmem hq).1 rfl
      · exact h.apart hmem hv hne hq hin
    · rw [List.map_append, List.map_cons, List.append_assoc, List.cons_append]
      refine List.Perm.trans (List.Perm.cons p ?_) List.perm_middle.symm
      have hperm := nodesOf_perm_erase (A := A) hv
      rwa [hA, List.map_append, List.append_assoc] at hperm
    · have hnd := h.circle_nodup hv
      have hpnew : .node p ∉ circleOf v (A v) := fun hin => (hold hv hin).1 rfl
      have hp₁ : .node p ≠ positionAt v bs := fun heq => hpnew (heq ▸ hposmem)
      have hp₂ : .node p ≠ (baseNodes as).getLastD (.sentinel v) := fun heq => hpnew (heq ▸ hlastmem)
      refine ⟨?_, ?_, fun b hb => ?_⟩
      · rw [baseNodes_append, baseNodes_cons, NodeWorld.ptr_setSize, NodeWorld.ptr_setSize, hnext, hprev]
        refine Circular.paste (a := .node p) (b := .node p) hcircle (List.IsChain.singleton _) ?_ rfl rfl ⟨?_, ?_⟩ ⟨?_, ?_⟩ (fun q h1 h2 => ?_) fun q h1 h2 => ?_
        · have hperm : (BaseNode.sentinel v :: (baseNodes as ++ ([.node p] ++ baseNodes bs))).Perm (.node p :: circleOf v (A v)) := by
            rw [hA, circleOf, baseNodes_append]
            exact (List.Perm.cons _ List.perm_middle).trans (List.Perm.swap _ _ _)
          exact hperm.symm.nodup (List.nodup_cons.mpr ⟨hpnew, hnd⟩)
        · exact Function.update_self ..
        · rw [Function.update_of_ne hp₁]
          exact Function.update_self ..
        · rw [Function.update_of_ne hp₂]
          exact Function.update_self ..
        · exact Function.update_self ..
        · rw [Function.update_of_ne h1, Function.update_of_ne h2]
          exact hptr _ q h2
        · rw [Function.update_of_ne h2, Function.update_of_ne h1]
          exact hptr _ q h1
      · rw [NodeWorld.size_setSize]
        have hsize := hat.size_eq
        rw [hA, List.length_append] at hsize
        rw [hrew.size_eq, hframe.step.obj_eq, hsize, List.length_append, List.length_cons]
        rfl
      · rw [hrel.elem_eq]
        by_cases hin : b ∈ A v
        · have hne := (hold hv (List.mem_cons_of_mem _ (mem_baseNodes.mpr ⟨b, hin, rfl⟩))).1
          unfold NodeWorld.elem?
          rw [hother b.1 fun heq => hne (by rw [heq])]
          exact hat.elems b hin
        · have hbx : b = (p, x) := by
            rw [hA] at hin
            rw [List.mem_append, List.mem_cons] at hb
            rw [List.mem_append, not_or] at hin
            exact (hb.resolve_left hin.1).resolve_right hin.2
          unfold NodeWorld.elem?
          rw [hbx, hcell, Function.update_self]
    · change (w₂.pool v).nodePoolAllocations = _
      have hc := h.counted htidy v hv
      rw [hA, List.length_append] at hc
      rw [hrew.relinks.pool_eq, List.length_append, List.length_cons]
      omega

/-- The node `a` is taken out of the list `v`, and goes into the cache of its pool. -/
theorem ends_erase (h : ListsHold T tidy w A own others) (hv : v ∈ w.names) (hA : A v = as ++ a :: bs) :
    (erase v (.node a.1)).Ends w
      (fun q w' => q = positionAt v bs ∧ ListsAre T tidy w (Function.update A v (as ++ bs)) others w') F := by
  have hat := h.list v hv
  have hnd := h.circle_nodup hv
  have hcircle := hat.circle
  rw [hA, baseNodes_append, baseNodes_cons] at hcircle
  have hcircle' := hcircle
  rw [List.append_cons] at hcircle'
  have hprev : w.ptr .prev (.node a.1) = (baseNodes as).getLastD (.sentinel v) := hcircle.pair.2
  have hnext : w.ptr .next (.node a.1) = positionAt v bs := by
    have hpair := hcircle'.pair.1
    rwa [List.getLastD_concat] at hpair
  have hamem : .node a.1 ∈ circleOf v (A v) := by
    refine List.mem_cons_of_mem _ (mem_baseNodes.mpr ⟨a, ?_, rfl⟩)
    rw [hA]
    exact List.mem_append_right _ List.mem_cons_self
  have hlastmem := lastOf_mem v as (a :: bs)
  have hposmem := positionAt_mem v (as ++ [a]) bs
  rw [← List.append_cons] at hposmem
  rw [← hA] at hlastmem hposmem
  -- the node is neither before nor behind itself
  have hne : .node a.1 ≠ (baseNodes as).getLastD (.sentinel v) ∧ .node a.1 ≠ positionAt v bs := by
    have h₁ := getLastD_mem (baseNodes as) (.sentinel v)
    have h₂ := headD_mem (baseNodes bs) (.sentinel v)
    rw [hA, circleOf, baseNodes_append, baseNodes_cons] at hnd
    constructor
    all_goals grind [List.nodup_cons, List.nodup_append]
  unfold erase
  rw [if_neg (by simp)]
  refine ends_readPtr_bind (h.valid hv hamem) ?_
  rw [hnext]
  have hunlink := ends_unlink (F := F) (h.valid hv hamem) (hprev ▸ h.valid hv hlastmem) (hnext ▸ h.valid hv hposmem)
  rw [hprev, hnext] at hunlink
  refine hunlink.bind fun _ w₁ hw₁ => ?_
  obtain ⟨hrew, hnext₁, hprev₁⟩ := hw₁
  have hv₁ : v ∈ w₁.names := hrew.relinks.names_eq ▸ hv
  have hlive : w₁.LiveNode a.1 := hrew.valid (h.valid hv hamem)
  refine ((hrew.relinks.pools h.pools).ends_destroy hv₁ hlive).bind fun _ t ht => ?_
  obtain ⟨hpools, ⟨next, hcell⟩, hframe, halloc, hheap⟩ := ht
  refine ends_get_bind (ends_setSize_bind (ends_pure ⟨rfl, ?_, ?_, ?_, ?_⟩))
  rotate_left
  · exact hframe.names_eq.trans hrew.relinks.names_eq
  · intro n al hr
    refine hframe.room n al ?_
    rw [hrew.relinks.heap_eq]
    exact hr
  · change t.heap.freed = _
    rw [hheap, hrew.relinks.heap_eq]
  have hother : ∀ p, p ≠ a.1 → t.cell p = w₁.cell p := fun p hp => by rw [hcell, Function.update_of_ne hp]
  have hptr : ∀ f q, q ≠ .node a.1 → t.ptr f q = w₁.ptr f q := by
    intro f q hq
    refine hframe.ptr_eq fun p hp => hother p fun heq => hq ?_
    rw [hp, heq]
  have hu : Untouched (fun q => q ∈ circleOf v (A v)) w (t.setSize v ((t.obj v).size-1)) := by
    refine Untouched.trans ?_ ((hframe.untouched List.mem_cons_self fun p hp => hother p fun heq => hp (by rw [heq]; exact hamem)).trans
      (.setSize List.mem_cons_self))
    refine ⟨fun f q hq => hrew.untouched.ptr_eq f q fun hin => hq ?_, fun p _ => hrew.relinks.elem_eq p,
      fun u _ => hrew.size_eq u, fun u _ => congrFun hrew.relinks.pool_eq u⟩
    rcases hin with hin | hin | hin <;> rw [hin]
    · exact hamem
    · exact hlastmem
    · exact hposmem
  refine ⟨Function.update own v (a.1 :: own v), h.put_one hv hu (fun u hmem hne q hq => h.apart hmem hv hne hq)
    (hframe.names_eq.trans hrew.relinks.names_eq) ((Relinks.setSize t v _).pools hpools) ?_ ?_ fun htidy => ?_⟩
  · have hperm := (nodesOf_perm_erase (A := A) hv).erase a.1
    refine hperm.trans ?_
    rw [hA, List.map_append, List.map_cons, List.append_assoc, List.cons_append]
    have hmid : (as.map Prod.fst ++ a.1 :: (bs.map Prod.fst ++ nodesOf A (w.names.erase v))).Perm _ := List.perm_middle
    replace hmid := hmid.erase a.1
    rw [List.erase_cons_head] at hmid
    rw [List.map_append, List.append_assoc]
    exact hmid
  · refine ⟨?_, ?_, fun b hb => ?_⟩
    · rw [baseNodes_append, NodeWorld.ptr_setSize, NodeWorld.ptr_setSize]
      have hnd' := hnd
      rw [hA, circleOf, baseNodes_append, baseNodes_cons] at hnd'
      refine hcircle.cut [.node a.1] hnd' ⟨?_, ?_⟩ (fun q h1 h2 => ?_) fun q h1 h2 => ?_
      · rw [hptr _ _ hne.1.symm, hnext₁, Function.update_of_ne hne.1.symm, Function.update_self]
      · rw [hptr _ _ hne.2.symm, hprev₁, Function.update_of_ne hne.2.symm, Function.update_self]
      · have h1' : q ≠ .node a.1 := fun heq => h1 (List.mem_singleton.mpr heq)
        rw [hptr _ _ h1', hnext₁, Function.update_of_ne h1', Function.update_of_ne h2]
      · have h1' : q ≠ .node a.1 := fun heq => h1 (List.mem_singleton.mpr heq)
        rw [hptr _ _ h1', hprev₁, Function.update_of_ne h1', Function.update_of_ne h2]
    · rw [NodeWorld.size_setSize]
      have hsize := hat.size_eq
      rw [hA, List.length_append, List.length_cons] at hsize
      rw [hframe.step.obj_eq, hrew.size_eq, hsize, List.length_append]
      rfl
    · have hin : b ∈ A v := by
        rw [hA]
        rcases List.mem_append.mp hb with hb | hb
        · exact List.mem_append_left _ hb
        · exact List.mem_append_right _ (List.mem_cons_of_mem _ hb)
      have hbne : b.1 ≠ a.1 := by
        have hrow := h.row_nodup hv
        rw [hA, List.map_append, List.map_cons] at hrow
        intro heq
        have hfst := List.mem_map_of_mem (f := Prod.fst) hb
        rw [List.map_append, heq] at hfst
        exact (List.nodup_cons.mp (List.perm_middle.nodup hrow)).1 hfst
      rw [(Relinks.setSize t v _).elem_eq, ← hat.elems b hin, ← hrew.relinks.elem_eq]
      unfold NodeWorld.elem?
      rw [hother b.1 hbne]
  · change (t.pool v).nodePoolAllocations = _
    have hc := h.counted htidy v hv
    rw [hA, List.length_append, List.length_cons] at hc
    rw [halloc, hrew.relinks.pool_eq, List.length_append, List.length_cons]
    omega

end ListsHold

end ShmNext
