import ShmNext.ListEdits

/-! Nodes in the reverse order, and nodes that go over to another place. -/
namespace ShmNext
open Prog NodeOp SharedMemoryList

variable {E α : Type} {T : ListType E} {w w' t : ListWorld E} {q r : BaseNode} {v other n fuel i j k : ℕ} {F : NodeThrown → ListWorld E → Prop}
  {Q : α → ListWorld E → Prop} {A : ℕ → List (ℕ × E)} {own : ℕ → List ℕ} {others : List (ℕ × ℕ)} {as bs cs ds es fs xs : List (ℕ × E)}
  {tidy : Prop} {S : BaseNode → Prop} {nx pv : BaseNode → BaseNode} {a : ℕ × E} {qs : List BaseNode}

/-- Links of nodes in `S` have been set, and are now `nx` and `pv`. -/
structure Wired (S : BaseNode → Prop) (w : ListWorld E) (nx pv : BaseNode → BaseNode) (t : ListWorld E) : Prop extends Rewired S w t where
  next_eq : t.ptr .next = nx
  prev_eq : t.ptr .prev = pv

namespace Wired

theorem start (S : BaseNode → Prop) (w : ListWorld E) : Wired S w (w.ptr .next) (w.ptr .prev) w := ⟨.refl w, rfl, rfl⟩

theorem setNext (h : Wired S w nx pv t) (hq : w.Valid q) (hS : S q) : Wired S w (Function.update nx q r) pv (t.setPtr q .next r) := by
  refine ⟨h.toRewired.setPtr hq hS, ?_, ?_⟩
  · rw [NodeWorld.ptr_setPtr (h.valid hq), h.next_eq]
  · rw [NodeWorld.ptr_setPtr_of_ne (by decide), h.prev_eq]

theorem setPrev (h : Wired S w nx pv t) (hq : w.Valid q) (hS : S q) : Wired S w nx (Function.update pv q r) (t.setPtr q .prev r) := by
  refine ⟨h.toRewired.setPtr hq hS, ?_, ?_⟩
  · rw [NodeWorld.ptr_setPtr_of_ne (by decide), h.next_eq]
  · rw [NodeWorld.ptr_setPtr (h.valid hq), h.prev_eq]

theorem ends_next_bind {k : Unit → ListOp E α} (h : Wired S w nx pv t) (hq : w.Valid q) (hS : S q)
    (hk : ∀ t', Wired S w (Function.update nx q r) pv t' → (k ()).Ends t' Q F) : (setPtr q .next r >>= k).Ends t Q F :=
  ends_setPtr_bind (h.valid hq) (hk _ (h.setNext hq hS))

theorem ends_prev_bind {k : Unit → ListOp E α} (h : Wired S w nx pv t) (hq : w.Valid q) (hS : S q)
    (hk : ∀ t', Wired S w nx (Function.update pv q r) t' → (k ()).Ends t' Q F) : (setPtr q .prev r >>= k).Ends t Q F :=
  ends_setPtr_bind (h.valid hq) (hk _ (h.setPrev hq hS))

theorem ends_readPrev_bind {k : BaseNode → ListOp E α} (h : Wired S w nx pv t) (hq : w.Valid q) (hk : (k (pv q)).Ends t Q F) :
    (readPtr q .prev >>= k).Ends t Q F := by
  refine ends_readPtr_bind (h.valid hq) ?_
  rwa [h.prev_eq]

end Wired

/-! Reversal. -/

/-- The rounds of `reverse`: each node on the way to the sentinel changes its links. -/
theorem SharedMemoryList.ends_reverseFrom (hrow : (q :: qs ++ [BaseNode.sentinel v]).IsChain fun a b => w.ptr .next a = b) (hvalid : ∀ r ∈ q :: qs, w.Valid r)
    (hnd : (q :: qs).Nodup) (hs : .sentinel v ∉ qs) (hfuel : qs.length < fuel) :
    (reverseFrom v fuel q).Ends w
      (fun _ w' => Rewired (fun r => r ∈ q :: qs) w w' ∧ (∀ r ∈ q :: qs, w'.ptr .next r = w.ptr .prev r ∧ w'.ptr .prev r = w.ptr .next r)) F := by
  induction qs generalizing w q fuel with
  | nil =>
    obtain ⟨fuel, rfl⟩ : ∃ k, fuel = k+1 := ⟨fuel-1, by rw [List.length_nil] at hfuel; omega⟩
    have hq := hvalid q List.mem_cons_self
    have hnext : w.ptr .next q = .sentinel v := (List.isChain_cons_cons.mp hrow).1
    unfold reverseFrom
    refine ends_readPtr_bind hq (ends_readPtr_bind hq ?_)
    refine (Wired.start (fun r => r ∈ [q]) w).ends_next_bind hq List.mem_cons_self fun _ h₁ => h₁.ends_prev_bind hq List.mem_cons_self fun t h₂ => ?_
    rw [if_pos hnext]
    refine ends_pure ⟨h₂.toRewired, fun r hr => ?_⟩
    obtain rfl := List.mem_singleton.mp hr
    rw [h₂.next_eq, h₂.prev_eq, Function.update_self, Function.update_self]
    exact ⟨rfl, rfl⟩
  | cons q' qs ih =>
    obtain ⟨fuel, rfl⟩ : ∃ k, fuel = k+1 := ⟨fuel-1, by rw [List.length_cons] at hfuel; omega⟩
    have hq := hvalid q List.mem_cons_self
    obtain ⟨hnext, hrest⟩ : w.ptr .next q = q' ∧ (q' :: qs ++ [BaseNode.sentinel v]).IsChain fun a b => w.ptr .next a = b := List.isChain_cons_cons.mp hrow
    obtain ⟨hnot, hnd'⟩ := List.nodup_cons.mp hnd
    rw [List.mem_cons, not_or] at hs
    unfold reverseFrom
    refine ends_readPtr_bind hq (ends_readPtr_bind hq ?_)
    refine (Wired.start (fun r => r ∈ q :: q' :: qs) w).ends_next_bind hq List.mem_cons_self fun _ h₁ => h₁.ends_prev_bind hq List.mem_cons_self fun t h₂ => ?_
    rw [hnext, if_neg fun heq => hs.1 heq.symm]
    have hsame : ∀ r, r ≠ q → t.ptr .next r = w.ptr .next r ∧ t.ptr .prev r = w.ptr .prev r := by
      intro r hr
      rw [h₂.next_eq, h₂.prev_eq, Function.update_of_ne hr, Function.update_of_ne hr]
      exact ⟨rfl, rfl⟩
    -- the row from here on has not been touched
    have hrow' : (q' :: qs ++ [BaseNode.sentinel v]).IsChain fun a b => t.ptr .next a = b := by
      rw [List.isChain_append] at hrest ⊢
      refine ⟨List.IsChain.imp_of_mem_imp (fun a b ha _ hab => ?_) hrest.1, List.isChain_singleton _, fun a ha b hb => ?_⟩
      · rw [(hsame a fun heq => hnot (heq ▸ ha)).1]
        exact hab
      · rw [(hsame a fun heq => hnot (heq ▸ List.mem_of_getLast? ha)).1]
        exact hrest.2.2 a ha b hb
    refine (ih hrow' (fun r hr => h₂.valid (hvalid r (List.mem_cons_of_mem _ hr))) hnd' hs.2 (Nat.lt_of_succ_lt_succ hfuel)).mono
      (fun _ w' hw' => ?_) fun _ _ he => he
    obtain ⟨hrew, hturned⟩ := hw'
    refine ⟨⟨h₂.relinks.trans hrew.relinks, h₂.untouched.trans (hrew.untouched.mono fun r hr => ?_),
      fun u => (hrew.size_eq u).trans (h₂.size_eq u)⟩, fun r hr => ?_⟩
    · exact List.mem_cons_of_mem _ hr
    · rcases List.mem_cons.mp hr with rfl | hr
      · rw [hrew.untouched.ptr_eq _ _ hnot, hrew.untouched.ptr_eq _ _ hnot, h₂.next_eq, h₂.prev_eq, Function.update_self, Function.update_self]
        exact ⟨rfl, rfl⟩
      · have hne : r ≠ q := fun heq => hnot (heq ▸ hr)
        rw [(hturned r hr).1, (hturned r hr).2]
        exact ⟨(hsame r hne).2, (hsame r hne).1⟩

theorem baseNodes_reverse (xs : List (ℕ × E)) : baseNodes xs.reverse = (baseNodes xs).reverse := List.map_reverse

namespace ListsHold

theorem ends_reverse (h : ListsHold T tidy w A own others) (hv : v ∈ w.names) :
    (reverse v).Ends w (fun _ w' => ListsAre T tidy w (Function.update A v (A v).reverse) others w') F := by
  unfold reverse
  apply ends_get_bind
  have hat := h.list v hv
  rw [hat.size_eq]
  by_cases hlt : (A v).length < 2
  · rw [if_pos hlt]
    have hsame : (A v).reverse = A v := by
      match A v, hlt with
      | [], _ => rfl
      | [_], _ => rfl
    rw [hsame, Function.update_eq_self]
    exact ends_pure h.are
  · rw [if_neg hlt]
    have hnd := h.circle_nodup hv
    have hrow : (circleOf v (A v) ++ [BaseNode.sentinel v]).IsChain fun a b => w.ptr .next a = b :=
      List.IsChain.imp (fun a b hab => hab.1) hat.circle
    have hlen := h.length_lt hv
    have hfuel : (baseNodes (A v)).length < walkFuel := by rwa [length_baseNodes]
    refine (ends_reverseFrom hrow (fun r hr => h.valid hv hr) hnd (List.nodup_cons.mp hnd).1 hfuel).mono (fun _ t ht => ?_) fun _ _ he => he
    obtain ⟨hrew, hturned⟩ := ht
    -- every node of the circle has its two links exchanged
    have hpools := hrew.relinks.pools h.pools
    rw [← Function.update_eq_self v own] at hpools
    refine ⟨⟨_, h.put_one hv hrew.untouched (fun u hmem hne q hq => h.apart hmem hv hne hq) hrew.relinks.names_eq hpools ?_ ?_ fun htidy => ?_⟩,
      hrew.relinks.names_eq, fun n al hr => by rw [hrew.relinks.heap_eq]; exact hr, by rw [hrew.relinks.heap_eq]⟩
    · refine (nodesOf_perm_erase hv).trans (List.Perm.append_right _ ?_)
      exact ((A v).reverse_perm.map _).symm
    · refine ⟨?_, ?_, fun a ha => ?_⟩
      · rw [baseNodes_reverse]
        have hmem : ∀ q ∈ BaseNode.sentinel v :: (baseNodes (A v)).reverse, q ∈ circleOf v (A v) := by
          intro q hq
          rwa [List.mem_cons, List.mem_reverse, ← List.mem_cons] at hq
        exact hat.circle.reverse.congr (fun q hq => (hturned q (hmem q hq)).1) fun q hq => (hturned q (hmem q hq)).2
      · rw [hrew.size_eq, hat.size_eq, List.length_reverse]
      · rw [hrew.relinks.elem_eq]
        exact hat.elems a (List.mem_reverse.mp ha)
    · rw [hrew.relinks.pool_eq, h.counted htidy v hv, List.length_reverse]

/-! Transfer. -/

/-- Where some nodes go from one list to another, all in all they stay the same. -/
theorem nodesOf_transfer {B : ℕ → List (ℕ × E)} {vs : List ℕ} (hnd : vs.Nodup) (hv : v ∈ vs) (hother : other ∈ vs) (hA : A other = cs ++ (fs ++ es))
    (hB : B = Function.update A other (cs ++ es)) (hBv : B v = as ++ bs) :
    (nodesOf A vs).Perm (nodesOf (Function.update B v (as ++ (fs ++ bs))) vs) := by
  have hswap : ∀ l l' : List (ℕ × E), ((l ++ (fs ++ l')).map Prod.fst).Perm (fs.map Prod.fst ++ (l ++ l').map Prod.fst) := by
    intro l l'
    rw [← List.map_append, ← List.append_assoc, ← List.append_assoc]
    exact (List.perm_append_comm.append_right l').map _
  have hmid : (nodesOf A vs).Perm (fs.map Prod.fst ++ nodesOf B vs) := by
    refine (nodesOf_perm_erase hother).trans ?_
    rw [hA, hB]
    refine ((hswap cs es).append_right _).trans ?_
    rw [List.append_assoc]
    exact (nodesOf_update hnd hother).symm.append_left _
  refine hmid.trans (List.Perm.trans ?_ (nodesOf_update hnd hv).symm)
  refine List.Perm.trans ?_ ((hswap as bs).symm.append_right _)
  have hrest := nodesOf_perm_erase (A := B) hv
  rw [hBv] at hrest
  rw [List.append_assoc]
  exact hrest.append_left _

/-- The nodes `fs` go over from the list `other` to the place before `bs` in the list `v`. -/
theorem ends_transferRangeBefore {B : ℕ → List (ℕ × E)} (h : ListsHold T tidy w A own others) (hv : v ∈ w.names) (hother : other ∈ w.names)
    (hA : A other = cs ++ (fs ++ es)) (hfs : fs ≠ []) (hB : B = Function.update A other (cs ++ es)) (hBv : B v = as ++ bs)
    (htidy : tidy → v = other) :
    (transferRangeBefore v (positionAt v bs) other (positionAt other (fs ++ es)) (positionAt other es) fs.length).Ends w
      (fun _ w' => ListsAre T tidy w (Function.update B v (as ++ (fs ++ bs))) others w') F := by
  have hperm := nodesOf_transfer h.names_nodup hv hother hA hB hBv
  have hndC := hperm.nodup h.nodes_nodup
  set C := Function.update B v (as ++ (fs ++ bs)) with hC
  have hCv : C v = as ++ (fs ++ bs) := Function.update_self ..
  have hCother : v ≠ other → C other = cs ++ es := by
    intro hne
    rw [hC, Function.update_of_ne hne.symm, hB, Function.update_self]
  have hBA : v ≠ other → as ++ bs = A v := by
    intro hne
    rw [← hBv, hB, Function.update_of_ne hne]
  have hBA' : v = other → as ++ bs = cs ++ es := by
    intro heq
    rw [← hBv, hB, heq, Function.update_self]
  have hndv : (BaseNode.sentinel v :: (baseNodes as ++ (baseNodes fs ++ baseNodes bs))).Nodup := by
    have hnd := circleOf_nodup (v := v) (nodesOf_row_nodup hndC hv)
    rwa [hCv, circleOf, baseNodes_append, baseNodes_append] at hnd
  have hnd := h.circle_nodup hother
  have hcircle := (h.list other hother).circle
  rw [hA, circleOf, baseNodes_append, baseNodes_append] at hnd
  rw [hA, baseNodes_append, baseNodes_append] at hcircle
  -- the ends of the range
  obtain ⟨first, hfirst⟩ : ∃ q, (baseNodes fs).head? = some q := Option.isSome_iff_exists.mp (by simpa [baseNodes] using hfs)
  obtain ⟨last, hlast⟩ : ∃ q, (baseNodes fs).getLast? = some q := Option.isSome_iff_exists.mp (by simpa [baseNodes] using hfs)
  have hfirstmem := List.mem_of_head? hfirst
  have hlastmem := List.mem_of_getLast? hlast
  have hfirst' : positionAt other (fs ++ es) = first := by
    unfold positionAt
    rw [baseNodes_append, List.headD_eq_head?_getD, List.head?_append, hfirst]
    rfl
  have hbeforeFirst : w.ptr .prev first = (baseNodes cs).getLastD (.sentinel other) := by
    rw [← hfirst']
    have hpair := hcircle.pair.2
    rwa [← baseNodes_append] at hpair
  have hbeforeLast : w.ptr .prev (positionAt other es) = last := by
    rw [← List.append_assoc] at hcircle
    refine hcircle.pair.2.trans ?_
    rw [List.getLastD_eq_getLast?, List.getLast?_append, hlast]
    rfl
  -- where everything lies
  set S : BaseNode → Prop := fun q => q ∈ circleOf v (A v) ∨ q ∈ circleOf other (A other)
  have hSo : ∀ q ∈ circleOf other (cs ++ (fs ++ es)), S q := fun q hq => Or.inr (by rwa [hA])
  have hSv : ∀ q ∈ circleOf v (as ++ bs), S q := by
    intro q hq
    by_cases hvo : v = other
    · refine hSo q ?_
      rw [hBA' hvo, hvo] at hq
      rcases List.mem_cons.mp hq with rfl | hq
      · exact List.mem_cons_self
      · rw [baseNodes_append] at hq
        refine List.mem_cons_of_mem _ ?_
        rw [baseNodes_append, baseNodes_append]
        rcases List.mem_append.mp hq with hq | hq
        · exact List.mem_append_left _ hq
        · exact List.mem_append_right _ (List.mem_append_right _ hq)
    · exact Or.inl (hBA hvo ▸ hq)
  have hvalid : ∀ q, S q → w.Valid q := fun q hq => hq.elim (h.valid hv) (h.valid hother)
  have hS₁ : S ((baseNodes cs).getLastD (.sentinel other)) := hSo _ (lastOf_mem other cs (fs ++ es))
  have hS₂ : S (positionAt other es) := by
    have hmem := positionAt_mem other (cs ++ fs) es
    rw [List.append_assoc] at hmem
    exact hSo _ hmem
  have hfs : ∀ q ∈ baseNodes fs, S q := by
    intro q hq
    refine hSo q (List.mem_cons_of_mem _ ?_)
    rw [baseNodes_append, baseNodes_append]
    exact List.mem_append_right _ (List.mem_append_left _ hq)
  have hS₃ : S (positionAt v bs) := hSv _ (positionAt_mem v as bs)
  have hS₄ : S ((baseNodes as).getLastD (.sentinel v)) := hSv _ (lastOf_mem v as bs)
  unfold transferRangeBefore
  rw [hfirst']
  refine ends_readPtr_bind (hvalid _ (hfs _ hfirstmem)) (ends_readPtr_bind (hvalid _ hS₂) ?_)
  rw [hbeforeFirst, hbeforeLast]
  refine (Wired.start S w).ends_next_bind (hvalid _ hS₁) hS₁ fun _ h₁ => h₁.ends_prev_bind (hvalid _ hS₂) hS₂ fun _ h₂ => ?_
  have hend : baseNodes as ++ baseNodes bs = baseNodes (as ++ bs) := (baseNodes_append as bs).symm
  have hshape : BaseNode.sentinel v = .sentinel other ∧ baseNodes as ++ baseNodes bs = baseNodes cs ++ baseNodes es ∨
      Circular (w.ptr .next) (w.ptr .prev) (.sentinel v) (baseNodes as ++ baseNodes bs) ∧
        ∀ q ∈ BaseNode.sentinel v :: (baseNodes as ++ baseNodes bs), q ∉ BaseNode.sentinel other :: (baseNodes cs ++ (baseNodes fs ++ baseNodes es)) := by
    rw [hend]
    by_cases hvo : v = other
    · rw [hBA' hvo, baseNodes_append]
      exact Or.inl ⟨congrArg _ hvo, rfl⟩
    · rw [hBA hvo]
      refine Or.inr ⟨(h.list v hv).circle, fun q hq => ?_⟩
      have hout := h.apart hv hother hvo hq
      rwa [hA, circleOf, baseNodes_append, baseNodes_append] at hout
  obtain ⟨hbehind, hcircle₁, hcircle₂⟩ := Circular.transfer hcircle hnd hndv hfirst hlast hshape rfl rfl
  refine h₂.ends_readPrev_bind (hvalid _ hS₃) ?_
  rw [hbehind]
  refine h₂.ends_next_bind (hvalid _ hS₄) hS₄ fun _ h₃ => h₃.ends_prev_bind (hvalid _ (hfs _ hfirstmem)) (hfs _ hfirstmem) fun _ h₄ => ?_
  refine h₄.ends_next_bind (hvalid _ (hfs _ hlastmem)) (hfs _ hlastmem) fun _ h₅ => h₅.ends_prev_bind (hvalid _ hS₃) hS₃ fun t ht => ?_
  rw [← ht.next_eq, ← ht.prev_eq] at hcircle₁ hcircle₂
  have hnames := ht.relinks.names_eq
  have helemo : ∀ a ∈ cs ++ (fs ++ es), w.elem? a.1 = some a.2 := fun a ha => (h.list other hother).elems a (by rwa [hA])
  have helemv : ∀ a ∈ C v, w.elem? a.1 = some a.2 := by
    intro a ha
    rw [hCv] at ha
    by_cases hin : a ∈ fs
    · exact helemo a (List.mem_append_right _ (List.mem_append_left _ hin))
    · have hab : a ∈ as ++ bs := by
        rw [List.mem_append, List.mem_append] at ha
        exact List.mem_append.mpr (ha.imp_right fun ha => ha.resolve_left hin)
      by_cases hvo : v = other
      · rw [hBA' hvo] at hab
        refine helemo a ?_
        rcases List.mem_append.mp hab with hab | hab
        · exact List.mem_append_left _ hab
        · exact List.mem_append_right _ (List.mem_append_right _ hab)
      · rw [hBA hvo] at hab
        exact (h.list v hv).elems a hab
  -- it remains to set the sizes
  have hclose : ∀ t', Relinks t t' → (∀ f, t'.ptr f = t.ptr f) → Untouched S t t' → (t'.obj v).size = (C v).length →
      (v ≠ other → (t'.obj other).size = (C other).length) → ListsAre T tidy w C others t' := by
    intro t' hrel hptr hu hsize hsize'
    have hrel' := ht.relinks.trans hrel
    have hnames' := hrel'.names_eq
    refine ⟨⟨own, h.put [v, other] (ht.untouched.trans hu) (fun u hmem hout => ?_) (fun u hout => ?_) (hrel'.pools h.pools) ?_ (fun u hmem _ => ?_)
      fun hti u hmem _ => ?_⟩, hnames', fun n al hr => by rw [hrel'.heap_eq]; exact hr, by rw [hrel'.heap_eq]⟩
    · rw [hnames'] at hmem
      refine ⟨hmem, fun q hq hin => ?_⟩
      rcases hin with hin | hin
      · exact h.apart hmem hv (fun heq => hout (by simp [heq])) hq hin
      · exact h.apart hmem hother (fun heq => hout (by simp [heq])) hq hin
    · have hout' : u ≠ v ∧ u ≠ other := by simpa using hout
      rw [hC, Function.update_of_ne hout'.1, hB, Function.update_of_ne hout'.2]
      exact ⟨rfl, rfl⟩
    · rw [hnames']
      exact hperm
    · by_cases huv : u = v
      · subst huv
        refine ⟨?_, hsize, fun a ha => ?_⟩
        · rw [hptr, hptr, hCv, baseNodes_append, baseNodes_append]
          exact hcircle₁
        · rw [hrel'.elem_eq]
          exact helemv a ha
      · obtain rfl : u = other := (List.mem_cons.mp hmem).elim (fun heq => absurd heq huv) List.mem_singleton.mp
        refine ⟨?_, hsize' (Ne.symm huv), fun a ha => ?_⟩
        · rw [hptr, hptr, hCother (Ne.symm huv), baseNodes_append]
          exact hcircle₂ fun heq => huv (BaseNode.sentinel.inj heq).symm
        · rw [hCother (Ne.symm huv)] at ha
          rw [hrel'.elem_eq]
          refine helemo a ?_
          rcases List.mem_append.mp ha with ha | ha
          · exact List.mem_append_left _ ha
          · exact List.mem_append_right _ (List.mem_append_right _ ha)
    · have hvo := htidy hti
      obtain rfl : u = v := by
        rw [← hvo] at hmem
        simpa using hmem
      have hc := h.counted hti u hv
      have hlen := congrArg List.length (hBA' hvo)
      rw [hvo, hA] at hc
      rw [hrel'.pool_eq, hCv, hvo, hc]
      simp only [List.length_append] at hlen ⊢
      omega
  have hlen := congrArg List.length hA
  simp only [List.length_append] at hlen
  by_cases hvo : v = other
  · rw [if_neg (not_not.mpr hvo)]
    refine ends_pure (hclose t (.refl t) (fun _ => rfl) (.refl t) ?_ fun hne => absurd hvo hne)
    have hlen' := congrArg List.length (hBA' hvo)
    simp only [List.length_append] at hlen'
    rw [ht.size_eq, (h.list v hv).size_eq, hCv, hvo, List.length_append, List.length_append]
    omega
  · rw [if_pos hvo]
    apply ends_get_bind
    refine ends_setSize_bind (ends_get_bind (ends_setSize ?_))
    have hrel := (Relinks.setSize t v ((t.obj v).size+fs.length)).trans
      (.setSize _ other (((t.setSize v ((t.obj v).size+fs.length)).obj other).size-fs.length))
    refine hclose _ hrel (fun f => ?_) ((Untouched.setSize (Or.inl List.mem_cons_self)).trans (.setSize (Or.inr List.mem_cons_self))) ?_ fun _ => ?_
    · rw [NodeWorld.ptr_setSize, NodeWorld.ptr_setSize]
    · rw [NodeWorld.size_setSize_of_ne hvo, NodeWorld.size_setSize, ht.size_eq, (h.list v hv).size_eq, ← hBA hvo, hCv]
      simp only [List.length_append]
      omega
    · rw [NodeWorld.size_setSize, NodeWorld.size_setSize_of_ne (Ne.symm hvo), ht.size_eq, (h.list other hother).size_eq, hCother hvo, hA]
      simp only [List.length_append]
      omega

end ListsHold

/-! Positions and ranges by their indices. -/

/-- The elements from index `j` to before index `k`. -/
def slice (xs : List α) (j k : ℕ) : List α := (xs.take k).drop j

/-- The elements from `j` to before `k` go to before index `i`, or stay where that is one of theirs. -/
def movedWithin (xs : List α) (i j k : ℕ) : List α :=
  if i < j then xs.take i ++ (slice xs j k ++ (slice xs i j ++ xs.drop k))
  else if k < i then (xs.take j ++ slice xs k i) ++ (slice xs j k ++ xs.drop i)
  else xs

/-- The sequences once the elements `j` to `k` of `other` have gone to before index `i` of `v`. -/
def spliced (A : ℕ → List α) (v other i j k : ℕ) : ℕ → List α :=
  if v = other then Function.update A v (movedWithin (A v) i j k)
  else Function.update (Function.update A other ((A other).take j ++ (A other).drop k)) v ((A v).take i ++ (slice (A other) j k ++ (A v).drop i))

theorem take_append_slice {l : List α} (h : j ≤ k) : l.take j ++ slice l j k = l.take k := by
  have hsplit := List.take_append_drop j (l.take k)
  rwa [List.take_take, Nat.min_eq_left h] at hsplit

theorem slice_append_drop {l : List α} (h : j ≤ k) : slice l j k ++ l.drop k = l.drop j := by
  have hsplit := List.take_append_drop k l
  rw [← take_append_slice h, List.append_assoc] at hsplit
  have hsplit' := hsplit.trans (List.take_append_drop j l).symm
  exact List.append_cancel_left hsplit'

theorem slice_self (l : List α) (j : ℕ) : slice l j j = [] := List.drop_eq_nil_of_le (List.length_take_le ..)

theorem length_slice {l : List α} (hk : k ≤ l.length) : (slice l j k).length = k-j := by
  unfold slice
  rw [List.length_drop, List.length_take, Nat.min_eq_left hk]

theorem split_slice {l : List α} (h : j ≤ k) : l = l.take j ++ (slice l j k ++ l.drop k) := by
  rw [slice_append_drop h, List.take_append_drop]

/-- Nothing goes anywhere. -/
theorem spliced_empty (A : ℕ → List α) (v other i j : ℕ) : spliced A v other i j j = A := by
  unfold spliced movedWithin
  by_cases hvo : v = other
  · rw [if_pos hvo, slice_self, List.nil_append, List.nil_append]
    rcases Nat.lt_trichotomy i j with hlt | heq | hgt
    · rw [if_pos hlt, slice_append_drop hlt.le, List.take_append_drop, Function.update_eq_self]
    · rw [if_neg (by omega), if_neg (by omega), Function.update_eq_self]
    · rw [if_neg (by omega), if_pos hgt, take_append_slice hgt.le, List.take_append_drop, Function.update_eq_self]
  · rw [if_neg hvo, slice_self, List.nil_append, List.take_append_drop, List.take_append_drop, Function.update_eq_self, Function.update_eq_self]

/-- Elements that are moved keep what is on them. -/
theorem map_spliced {β : Type} (f : α → β) (A : ℕ → List α) (v other i j k u : ℕ) :
    (spliced A v other i j k u).map f = spliced (fun u => (A u).map f) v other i j k u := by
  have hslice : ∀ (l : List α) j k, (slice l j k).map f = slice (l.map f) j k := by
    intro l j k
    unfold slice
    rw [List.map_drop, List.map_take]
  unfold spliced movedWithin
  by_cases hvo : v = other
  · rw [if_pos hvo, if_pos hvo]
    by_cases huv : u = v
    · subst huv
      rw [Function.update_self, Function.update_self]
      split_ifs <;> simp only [List.map_append, hslice, List.map_take, List.map_drop]
    · rw [Function.update_of_ne huv, Function.update_of_ne huv]
  · rw [if_neg hvo, if_neg hvo]
    by_cases huv : u = v
    · subst huv
      rw [Function.update_self, Function.update_self]
      simp only [List.map_append, hslice, List.map_take, List.map_drop]
    · rw [Function.update_of_ne huv, Function.update_of_ne huv]
      by_cases huo : u = other
      · subst huo
        rw [Function.update_self, Function.update_self, List.map_append, List.map_take, List.map_drop]
      · rw [Function.update_of_ne huo, Function.update_of_ne huo]

theorem baseNodes_slice (xs : List (ℕ × E)) (j k : ℕ) : baseNodes (slice xs j k) = slice (baseNodes xs) j k := by
  unfold baseNodes slice
  rw [List.map_drop, List.map_take]

/-- The position with index `i`. -/
theorem positionAt_drop (v : ℕ) (xs : List (ℕ × E)) (hi : i ≤ xs.length) :
    (baseNodes xs ++ [BaseNode.sentinel v])[i]? = some (positionAt v (xs.drop i)) := by
  have hdrop : baseNodes (xs.drop i) = (baseNodes xs).drop i := List.map_drop
  unfold positionAt
  rw [hdrop, List.headD_eq_head?_getD, List.head?_drop]
  rcases Nat.lt_or_eq_of_le hi with hlt | heq
  · rw [← length_baseNodes] at hlt
    rw [List.getElem?_append_left hlt, List.getElem?_eq_getElem hlt]
    rfl
  · rw [heq, ← length_baseNodes, List.getElem?_concat_length, List.getElem?_eq_none (Nat.le_refl _)]
    rfl

theorem positions_nodup (h : (xs.map Prod.fst).Nodup) : (baseNodes xs ++ [BaseNode.sentinel v]).Nodup :=
  (List.perm_append_singleton ..).symm.nodup (circleOf_nodup h)

theorem positionAt_inj (hnd : (xs.map Prod.fst).Nodup) (hi : i ≤ xs.length) (hj : j ≤ xs.length)
    (h : positionAt v (xs.drop i) = positionAt v (xs.drop j)) : i = j := by
  have hlt : i < (baseNodes xs ++ [BaseNode.sentinel v]).length := by
    rw [List.length_append, length_baseNodes]
    exact Nat.lt_succ_of_le hi
  refine (List.getElem?_inj hlt (positions_nodup hnd)).mp ?_
  rw [positionAt_drop v xs hi, positionAt_drop v xs hj, h]

theorem positionAt_mem_slice (hnd : (xs.map Prod.fst).Nodup) (hi : i ≤ xs.length) (hk : k ≤ xs.length) :
    positionAt v (xs.drop i) ∈ baseNodes (slice xs j k) ↔ j ≤ i ∧ i < k := by
  have hget : ∀ m, (slice (baseNodes xs) j k)[m]? = if j+m < k then (baseNodes xs)[j+m]? else none := by
    intro m
    unfold slice
    rw [List.getElem?_drop, List.getElem?_take]
  rw [baseNodes_slice, List.mem_iff_getElem?]
  constructor
  · rintro ⟨m, hm⟩
    rw [hget] at hm
    split_ifs at hm with hlt
    have hjm : j+m < (baseNodes xs).length := by
      rw [length_baseNodes]
      omega
    have hat := positionAt_drop v xs (i := j+m) (by omega)
    rw [List.getElem?_append_left hjm, hm] at hat
    have heq := positionAt_inj hnd hi (by omega) (Option.some.inj hat)
    omega
  · rintro ⟨h1, h2⟩
    refine ⟨i-j, ?_⟩
    rw [hget, if_pos (by omega), show j+(i-j) = i by omega]
    have hat := positionAt_drop v xs hi
    have hilt : i < (baseNodes xs).length := by
      rw [length_baseNodes]
      omega
    rwa [List.getElem?_append_left hilt] at hat

namespace ListsHold

theorem ends_countRange (h : ListsHold T tidy w A own others) (hv : v ∈ w.names) (hA : A v = as ++ (ds ++ bs)) (hfuel : ds.length ≤ fuel) :
    (countRange (positionAt v bs) fuel (positionAt v (ds ++ bs))).Ends w (fun n w' => n = ds.length ∧ w' = w) F := by
  induction ds generalizing as fuel with
  | nil =>
    unfold countRange
    rw [if_pos (by rfl)]
    exact ends_pure ⟨rfl, rfl⟩
  | cons d ds ih =>
    obtain ⟨fuel, rfl⟩ : ∃ k, fuel = k+1 := ⟨fuel-1, by rw [List.length_cons] at hfuel; omega⟩
    have hfirst : positionAt v (d :: ds ++ bs) = .node d.1 := rfl
    unfold countRange
    rw [hfirst, if_neg (h.position_ne hv hA)]
    refine ends_readPtr_bind (h.node_valid hv hA) ?_
    rw [h.next_eq hv hA]
    refine (ih (hA.trans (List.append_cons ..)) (Nat.le_of_succ_le_succ hfuel)).bind fun n t ht => ends_pure ?_
    exact ⟨congrArg (·+1) ht.1, ht.2⟩

theorem ends_isNodeInRange (h : ListsHold T tidy w A own others) (hv : v ∈ w.names) (hA : A v = as ++ (ds ++ bs)) (hfuel : ds.length ≤ fuel) :
    (isNodeInRange q (positionAt v bs) fuel (positionAt v (ds ++ bs))).Ends w (fun b w' => b = decide (q ∈ baseNodes ds) ∧ w' = w) F := by
  induction ds generalizing as fuel with
  | nil =>
    unfold isNodeInRange
    rw [if_pos (by rfl)]
    exact ends_pure ⟨rfl, rfl⟩
  | cons d ds ih =>
    obtain ⟨fuel, rfl⟩ : ∃ k, fuel = k+1 := ⟨fuel-1, by rw [List.length_cons] at hfuel; omega⟩
    have hfirst : positionAt v (d :: ds ++ bs) = .node d.1 := rfl
    unfold isNodeInRange
    rw [hfirst, if_neg (h.position_ne hv hA)]
    dsimp only
    by_cases hq : BaseNode.node d.1 = q
    · rw [if_pos hq]
      refine ends_pure ⟨(decide_eq_true ?_).symm, rfl⟩
      rw [← hq]
      exact List.mem_cons_self
    · rw [if_neg hq]
      refine ends_readPtr_bind (h.node_valid hv hA) ?_
      rw [h.next_eq hv hA]
      refine (ih (hA.trans (List.append_cons ..)) (Nat.le_of_succ_le_succ hfuel)).mono (fun b t ht => ⟨?_, ht.2⟩) fun _ _ he => he
      rw [ht.1, baseNodes_cons]
      exact decide_eq_decide.mpr ⟨List.mem_cons_of_mem _, fun hmem => (List.mem_cons.mp hmem).resolve_left (Ne.symm hq)⟩

/-- The nodes from index `j` to before `k` of the list `other` go to before index `i` of the list `v`. -/
theorem ends_transferSlice (h : ListsHold T tidy w A own others) (hv : v ∈ w.names) (hother : other ∈ w.names) (hjk : j < k)
    (hk : k ≤ (A other).length) (hself : v = other → i < j ∨ k < i) (htidy : tidy → v = other) :
    (transferRangeBefore v (positionAt v ((A v).drop i)) other (positionAt other ((A other).drop j)) (positionAt other ((A other).drop k))
      (k-j)).Ends w (fun _ w' => ListsAre T tidy w (spliced A v other i j k) others w') F := by
  have hfs : slice (A other) j k ≠ [] := fun heq => by
    have hlen := length_slice (j := j) hk
    rw [heq, List.length_nil] at hlen
    omega
  have hA := split_slice (l := A other) hjk.le
  have hmove : ∀ as bs : List (ℕ × E), Function.update A other ((A other).take j ++ (A other).drop k) v = as ++ bs →
      positionAt v ((A v).drop i) = positionAt v bs →
      (transferRangeBefore v (positionAt v ((A v).drop i)) other (positionAt other ((A other).drop j)) (positionAt other ((A other).drop k))
        (k-j)).Ends w (fun _ w' => ListsAre T tidy w (Function.update (Function.update A other ((A other).take j ++ (A other).drop k)) v
          (as ++ (slice (A other) j k ++ bs))) others w') F := by
    intro as bs hB hpos
    have hends := h.ends_transferRangeBefore (F := F) hv hother hA hfs rfl hB htidy
    rwa [← hpos, slice_append_drop hjk.le, length_slice hk] at hends
  unfold spliced
  by_cases hvo : v = other
  · subst hvo
    rw [if_pos rfl]
    unfold movedWithin
    rcases hself rfl with hlt | hgt
    · rw [if_pos hlt]
      -- the position lies before the range
      have hrest : (A v).take j ++ (A v).drop k = (A v).take i ++ (slice (A v) i j ++ (A v).drop k) := by
        rw [← List.append_assoc, take_append_slice hlt.le]
      have hpos : positionAt v ((A v).drop i) = positionAt v (slice (A v) i j ++ (A v).drop k) := by
        rw [← slice_append_drop hlt.le]
        have hlen := length_slice (l := A v) (j := i) (k := j) (by omega)
        cases hs : slice (A v) i j with
        | nil =>
          rw [hs, List.length_nil] at hlen
          omega
        | cons b bs => rfl
      have hends := hmove _ _ (by rw [Function.update_self, hrest]) hpos
      rwa [Function.update_idem] at hends
    · rw [if_neg (by omega), if_pos hgt]
      have hrest : (A v).take j ++ (A v).drop k = ((A v).take j ++ slice (A v) k i) ++ (A v).drop i := by
        rw [List.append_assoc, slice_append_drop hgt.le]
      have hends := hmove _ _ (by rw [Function.update_self, hrest]) rfl
      rwa [Function.update_idem] at hends
  · rw [if_neg hvo]
    refine hmove _ _ ?_ rfl
    rw [Function.update_of_ne hvo, List.take_append_drop]

theorem ends_spliceRange (h : ListsHold T tidy w A own others) (hv : v ∈ w.names) (hother : other ∈ w.names) (hi : i ≤ (A v).length) (hjk : j ≤ k)
    (hk : k ≤ (A other).length) (htidy : tidy → v = other ∨ j = k) :
    (spliceRange v (positionAt v ((A v).drop i)) other (positionAt other ((A other).drop j)) (positionAt other ((A other).drop k))).Ends w
      (fun _ w' => ListsAre T tidy w (spliced A v other i j k) others w') F := by
  unfold spliceRange
  have hrow := h.row_nodup hother
  rcases Nat.eq_or_lt_of_le hjk with rfl | hlt
  · rw [if_pos rfl, spliced_empty]
    exact ends_pure h.are
  have hne : positionAt other ((A other).drop j) ≠ positionAt other ((A other).drop k) := fun heq => by
    have hjk' := positionAt_inj hrow (by omega) hk heq
    omega
  rw [if_neg hne]
  have hA := split_slice (l := A other) hjk
  have hlen := h.length_lt hother
  have hfuel : (slice (A other) j k).length ≤ walkFuel := by
    rw [length_slice hk]
    omega
  -- a position within the range is left alone
  have hrest : ∀ b, b = decide (v = other ∧ j ≤ i ∧ i ≤ k) → (if b = true then pure () else do
      let count ← countRange (positionAt other ((A other).drop k)) walkFuel (positionAt other ((A other).drop j))
      transferRangeBefore v (positionAt v ((A v).drop i)) other (positionAt other ((A other).drop j)) (positionAt other ((A other).drop k)) count :
      ListOp E Unit).Ends w (fun _ w' => ListsAre T tidy w (spliced A v other i j k) others w') F := by
    rintro b rfl
    by_cases hstay : v = other ∧ j ≤ i ∧ i ≤ k
    · rw [if_pos (decide_eq_true hstay)]
      have hsame : spliced A v other i j k = A := by
        obtain ⟨rfl, hji, hik⟩ := hstay
        unfold spliced movedWithin
        rw [if_pos rfl, if_neg (by omega), if_neg (by omega), Function.update_eq_self]
      rw [hsame]
      exact ends_pure h.are
    · rw [if_neg (by simpa using hstay)]
      have hcount := h.ends_countRange (F := F) hother hA hfuel
      rw [slice_append_drop hjk] at hcount
      refine hcount.bind fun n t ht => ?_
      obtain ⟨rfl, rfl⟩ := ht
      rw [length_slice hk]
      exact h.ends_transferSlice hv hother hlt hk (fun hvo => by omega) fun hti => (htidy hti).resolve_right hlt.ne
  dsimp only
  by_cases hvo : v = other
  · subst hvo
    rw [if_pos rfl]
    by_cases hends : positionAt v ((A v).drop i) = positionAt v ((A v).drop j) ∨ positionAt v ((A v).drop i) = positionAt v ((A v).drop k)
    · rw [if_pos hends]
      refine hrest true (decide_eq_true ?_).symm
      rcases hends with heq | heq
      · have hij := positionAt_inj hrow hi (by omega) heq
        omega
      · have hik := positionAt_inj hrow hi hk heq
        omega
    · rw [if_neg hends]
      have hin := h.ends_isNodeInRange (F := F) (q := positionAt v ((A v).drop i)) hv hA hfuel
      rw [slice_append_drop hjk] at hin
      refine hin.bind fun b t ht => ?_
      obtain ⟨rfl, rfl⟩ := ht
      refine hrest _ (decide_eq_decide.mpr ((positionAt_mem_slice hrow hi hk).trans ⟨fun hmid => ⟨rfl, hmid.1, hmid.2.le⟩, fun hmid => ⟨hmid.2.1, ?_⟩⟩))
      refine Nat.lt_of_le_of_ne hmid.2.2 fun heq => hends (Or.inr ?_)
      rw [heq]
  · rw [if_neg hvo]
    exact hrest false (decide_eq_false fun hcon => hvo hcon.1).symm

theorem ends_spliceOne (h : ListsHold T tidy w A own others) (hv : v ∈ w.names) (hother : other ∈ w.names) (hi : i ≤ (A v).length)
    (hj : j < (A other).length) (htidy : tidy → v = other) :
    (spliceOne v (positionAt v ((A v).drop i)) other (positionAt other ((A other).drop j))).Ends w
      (fun _ w' => ListsAre T tidy w (spliced A v other i j (j+1)) others w') F := by
  have hsplit : A other = (A other).take j ++ (A other)[j] :: (A other).drop (j+1) := by
    rw [← List.drop_eq_getElem_cons hj, List.take_append_drop]
  have hit : positionAt other ((A other).drop j) = .node (A other)[j].1 := by
    rw [List.drop_eq_getElem_cons hj]
    rfl
  have hrow := h.row_nodup hother
  unfold spliceOne
  rw [if_neg (by rw [hit]; simp), hit]
  refine ends_readPtr_bind (h.node_valid hother hsplit) ?_
  rw [h.next_eq hother hsplit, ← hit]
  by_cases hstay : v = other ∧ (positionAt v ((A v).drop i) = positionAt other ((A other).drop j) ∨
      positionAt v ((A v).drop i) = positionAt other ((A other).drop (j+1)))
  · rw [if_pos hstay]
    obtain ⟨rfl, hpos⟩ := hstay
    have hij : i = j ∨ i = j+1 := hpos.imp (positionAt_inj hrow hi hj.le) (positionAt_inj hrow hi hj)
    have hsame : spliced A v v i j (j+1) = A := by
      unfold spliced movedWithin
      rw [if_pos rfl, if_neg (by omega), if_neg (by omega), Function.update_eq_self]
    rw [hsame]
    exact ends_pure h.are
  · rw [if_neg hstay]
    have hmove := h.ends_transferSlice (F := F) (i := i) (k := j+1) hv hother (Nat.lt_succ_self j) hj (fun hvo => ?_) htidy
    · rwa [Nat.add_sub_cancel_left] at hmove
    · subst hvo
      by_contra hcon
      have hij : i = j ∨ i = j+1 := by omega
      refine hstay ⟨rfl, hij.imp (fun heq => ?_) fun heq => ?_⟩ <;> rw [heq]

theorem ends_splice (h : ListsHold T tidy w A own others) (hv : v ∈ w.names) (hother : other ∈ w.names) (hi : i ≤ (A v).length)
    (htidy : tidy → v = other ∨ A other = []) :
    (splice v (positionAt v ((A v).drop i)) other).Ends w
      (fun _ w' => ListsAre T tidy w (spliced A v other i 0 (A other).length) others w') F := by
  unfold splice
  apply ends_get_bind
  rw [(h.list other hother).size_eq]
  by_cases hnone : v = other ∨ (A other).length = 0
  · rw [if_pos hnone]
    have hsame : spliced A v other i 0 (A other).length = A := by
      rcases hnone with rfl | hzero
      · unfold spliced movedWithin
        rw [if_pos rfl, if_neg (by omega), if_neg (by omega), Function.update_eq_self]
      · rw [hzero]
        exact spliced_empty A v other i 0
    rw [hsame]
    exact ends_pure h.are
  · rw [if_neg hnone]
    rw [not_or] at hnone
    refine ends_readPtr_bind NodeWorld.valid_sentinel ?_
    rw [h.first_eq hother]
    have htidy' : tidy → v = other := fun hti => (htidy hti).resolve_right fun hnil => hnone.2 (by rw [hnil]; rfl)
    have hmove := h.ends_transferSlice (F := F) (i := i) (j := 0) hv hother (Nat.pos_of_ne_zero hnone.2) (Nat.le_refl _) (fun hvo => absurd hvo hnone.1) htidy'
    rwa [Nat.sub_zero, List.drop_length, List.drop_zero] at hmove

end ListsHold

end ShmNext
