import ShmNext.ListOps

/-! The members that insert, erase or keep nodes one after the other. -/
namespace ShmNext
open Prog NodeOp SharedMemoryList

variable {E : Type} {T : ListType E} {w w' t : ListWorld E} {q : BaseNode} {v other u n p fuel : ℕ} {x : E}
  {F : NodeThrown → ListWorld E → Prop} {A A' : ℕ → List (ℕ × E)} {own : ℕ → List ℕ} {others : List (ℕ × ℕ)}
  {xs as bs cs ds es : List (ℕ × E)} {values : List E} {tidy : Prop} {a : ℕ × E}

/-- New nodes with `values` have come into the list `v`, between `as` and `bs`. -/
def Receives (T : ListType E) (tidy : Prop) (w : ListWorld E) (A : ℕ → List (ℕ × E)) (others : List (ℕ × ℕ)) (v : ℕ)
    (as bs : List (ℕ × E)) (values : List E) (w' : ListWorld E) : Prop :=
  ∃ new, new.map Prod.snd = values ∧ ListsAre T tidy w (Function.update A v (as ++ (new ++ bs))) others w'

/-- Something has been thrown, and only the first few of `values` have come in. -/
def ReceivesSome (T : ListType E) (tidy : Prop) (w : ListWorld E) (A : ℕ → List (ℕ × E)) (others : List (ℕ × ℕ)) (v : ℕ)
    (as bs : List (ℕ × E)) (values : List E) (w' : ListWorld E) : Prop :=
  ∃ new, (new.map Prod.snd <+: values ∧ new.length < values.length) ∧ ListsKept T tidy w (Function.update A v (as ++ (new ++ bs))) others w'

theorem receives_nil (h : ListsAre T tidy w A others w') (hA : A v = as ++ bs) : Receives T tidy w A others v as bs [] w' := by
  refine ⟨[], rfl, ?_⟩
  rw [List.nil_append, ← hA, Function.update_eq_self]
  exact h

/-- One node, and more behind it. -/
theorem Receives.cons (h : ListsAre T tidy w (Function.update A v (as ++ (p, x) :: bs)) others t)
    (h' : Receives T tidy t (Function.update A v (as ++ (p, x) :: bs)) others v (as ++ [(p, x)]) bs values w') :
    Receives T tidy w A others v as bs (x :: values) w' := by
  obtain ⟨new, hnew, hare⟩ := h'
  refine ⟨(p, x) :: new, by rw [List.map_cons, hnew], ?_⟩
  rw [Function.update_idem, List.append_assoc] at hare
  exact h.trans hare

theorem ReceivesSome.cons (h : ListsAre T tidy w (Function.update A v (as ++ (p, x) :: bs)) others t)
    (h' : ReceivesSome T tidy t (Function.update A v (as ++ (p, x) :: bs)) others v (as ++ [(p, x)]) bs values w') :
    ReceivesSome T tidy w A others v as bs (x :: values) w' := by
  obtain ⟨new, ⟨hnew, hlt⟩, hkept⟩ := h'
  refine ⟨(p, x) :: new, ⟨List.prefix_cons_inj x |>.mpr hnew, Nat.succ_lt_succ hlt⟩, ?_⟩
  rw [Function.update_idem, List.append_assoc] at hkept
  exact h.kept hkept

theorem ReceivesSome.none (h : ListsKept T tidy w A others w') (hA : A v = as ++ bs) : ReceivesSome T tidy w A others v as bs (x :: values) w' := by
  refine ⟨[], ⟨List.nil_prefix, Nat.succ_pos _⟩, ?_⟩
  rw [List.nil_append, ← hA, Function.update_eq_self]
  exact h

namespace ListsHold

/-- The nodes of a list are fewer than there are addresses. -/
theorem length_lt (h : ListsHold T tidy w A own others) (hv : v ∈ w.names) : (A v).length < walkFuel := by
  have hsub : (A v).map Prod.fst ⊆ w.names.flatMap own ++ nodesOf A w.names := fun p hp =>
    List.mem_append_right _ (List.mem_flatMap.mpr ⟨v, hv, hp⟩)
  have hlen := h.pools.row_lt hsub (h.row_nodup hv)
  rwa [List.length_map] at hlen

/-- The place of a node is not a later one. -/
theorem position_ne (h : ListsHold T tidy w A own others) (hv : v ∈ w.names) (hA : A v = as ++ a :: (ds ++ bs)) :
    .node a.1 ≠ positionAt v bs := by
  have hnd := h.circle_nodup hv
  have hmem := headD_mem (baseNodes bs) (.sentinel v)
  rw [hA, circleOf, baseNodes_append, baseNodes_cons, baseNodes_append] at hnd
  grind [List.nodup_cons, List.nodup_append]

/-- What follows a node. -/
theorem next_eq (h : ListsHold T tidy w A own others) (hv : v ∈ w.names) (hA : A v = as ++ a :: bs) :
    w.ptr .next (.node a.1) = positionAt v bs := by
  have hcircle := (h.list v hv).circle
  rw [hA, List.append_cons, baseNodes_append, baseNodes_append] at hcircle
  have hpair := hcircle.pair.1
  rwa [show baseNodes [a] = [.node a.1] from rfl, List.getLastD_concat] at hpair

theorem first_eq (h : ListsHold T tidy w A own others) (hv : v ∈ w.names) : w.ptr .next (.sentinel v) = positionAt v (A v) :=
  (h.list v hv).circle.next_sentinel

theorem last_eq (h : ListsHold T tidy w A own others) (hv : v ∈ w.names) :
    w.ptr .prev (.sentinel v) = (baseNodes (A v)).getLastD (.sentinel v) := (h.list v hv).circle.prev_sentinel

theorem node_valid (h : ListsHold T tidy w A own others) (hv : v ∈ w.names) (hA : A v = as ++ a :: bs) : w.Valid (.node a.1) :=
  h.isNode hv (by rw [hA]; exact List.mem_append_right _ List.mem_cons_self)

theorem elem_eq (h : ListsHold T tidy w A own others) (hv : v ∈ w.names) (hA : A v = as ++ a :: bs) : w.elem? a.1 = some a.2 :=
  (h.list v hv).elems a (by rw [hA]; exact List.mem_append_right _ List.mem_cons_self)

/-! Insertion. -/

theorem ends_emplaceEach (h : ListsHold T tidy w A own others) (hv : v ∈ w.names) (hA : A v = as ++ bs)
    (hroom : AddressRoom w.heap T.sizeofNode T.alignofNode) (values : List E) :
    (emplaceEach T v (positionAt v bs) values).Ends w (fun _ w' => Receives T tidy w A others v as bs values w')
      fun _ w' => ReceivesSome T tidy w A others v as bs values w' := by
  induction values generalizing w A own as with
  | nil => exact ends_pure (receives_nil h.are hA)
  | cons x values ih =>
    unfold emplaceEach
    refine ((h.ends_emplace hv hA hroom x).mono (fun _ _ hq => hq) fun _ _ he => .none he hA).bind fun _ t ht => ?_
    obtain ⟨p, -, ht⟩ := ht
    obtain ⟨own', ht'⟩ := ht.hold
    have hnew : Function.update A v (as ++ (p, x) :: bs) v = (as ++ [(p, x)]) ++ bs := by
      rw [Function.update_self, List.append_assoc]
      rfl
    exact (ih ht' (ht.mem hv) hnew (ht.room _ _ hroom)).mono (fun _ _ hr => .cons ht hr) fun _ _ he => .cons ht he

theorem ends_insertRange (h : ListsHold T tidy w A own others) (hv : v ∈ w.names) (hA : A v = as ++ bs)
    (hroom : AddressRoom w.heap T.sizeofNode T.alignofNode) (values : List E) :
    (insertRange T v (positionAt v bs) values).Ends w (fun _ w' => Receives T tidy w A others v as bs values w')
      fun _ w' => ReceivesSome T tidy w A others v as bs values w' := by
  cases values with
  | nil => exact ends_pure (receives_nil h.are hA)
  | cons x values =>
    unfold insertRange
    refine ((h.ends_emplace hv hA hroom x).mono (fun _ _ hq => hq) fun _ _ he => .none he hA).bind fun _ t ht => ?_
    obtain ⟨p, -, ht⟩ := ht
    obtain ⟨own', ht'⟩ := ht.hold
    have hnew : Function.update A v (as ++ (p, x) :: bs) v = (as ++ [(p, x)]) ++ bs := by
      rw [Function.update_self, List.append_assoc]
      rfl
    refine ((ht'.ends_emplaceEach (ht.mem hv) hnew (ht.room _ _ hroom) values).mono (fun _ _ hq => hq) fun _ _ he => .cons ht he).bind
      fun _ w' hw' => ends_pure (.cons ht hw')

theorem ends_insertFill (h : ListsHold T tidy w A own others) (hv : v ∈ w.names) (hA : A v = as ++ bs)
    (hroom : AddressRoom w.heap T.sizeofNode T.alignofNode) (count : ℕ) (x : E) :
    (insertFill T v (positionAt v bs) count x).Ends w (fun _ w' => Receives T tidy w A others v as bs (List.replicate count x) w')
      fun _ w' => ReceivesSome T tidy w A others v as bs (List.replicate count x) w' := by
  cases count with
  | zero => exact ends_pure (receives_nil h.are hA)
  | succ count =>
    unfold insertFill
    refine ((h.ends_emplace hv hA hroom x).mono (fun _ _ hq => hq) fun _ _ he => .none he hA).bind fun q t ht => ?_
    obtain ⟨p, rfl, ht⟩ := ht
    obtain ⟨own', ht'⟩ := ht.hold
    have hmid : Function.update A v (as ++ (p, x) :: bs) v = as ++ (p, x) :: bs := Function.update_self ..
    have hnew : Function.update A v (as ++ (p, x) :: bs) v = (as ++ [(p, x)]) ++ bs := by
      rw [hmid, List.append_assoc]
      rfl
    refine ends_readPtr_bind (ht'.node_valid (ht.mem hv) hmid) ?_
    rw [ht'.next_eq (ht.mem hv) hmid]
    refine ((ht'.ends_emplaceEach (ht.mem hv) hnew (ht.room _ _ hroom) (List.replicate count x)).mono (fun _ _ hq => hq)
      fun _ _ he => .cons ht he).bind fun _ w' hw' => ends_pure (.cons ht hw')

/-- A range of another list is copied. -/
theorem ends_insertFrom (h : ListsHold T tidy w A own others) (hv : v ∈ w.names) (hother : other ∈ w.names) (hne : other ≠ v)
    (hA : A v = as ++ bs) (hA' : A other = cs ++ (ds ++ es)) (hroom : AddressRoom w.heap T.sizeofNode T.alignofNode) (hfuel : ds.length ≤ fuel) :
    (insertFrom T v (positionAt v bs) (positionAt other es) fuel (positionAt other (ds ++ es))).Ends w
      (fun _ w' => Receives T tidy w A others v as bs (ds.map Prod.snd) w')
      fun _ w' => ReceivesSome T tidy w A others v as bs (ds.map Prod.snd) w' := by
  induction ds generalizing w A own as cs fuel with
  | nil =>
    unfold insertFrom
    rw [if_pos (by rfl)]
    exact ends_pure (receives_nil h.are hA)
  | cons d ds ih =>
    obtain ⟨fuel, rfl⟩ : ∃ k, fuel = k+1 := ⟨fuel-1, by rw [List.length_cons] at hfuel; omega⟩
    have hfirst : positionAt other (d :: ds ++ es) = .node d.1 := rfl
    unfold insertFrom
    rw [hfirst, if_neg (h.position_ne hother hA')]
    refine ends_readValue_bind (h.elem_eq hother hA') ?_
    refine ((h.ends_emplace hv hA hroom d.2).mono (fun _ _ hq => hq) fun _ _ he => .none he hA).bind fun _ t ht => ?_
    obtain ⟨p, -, ht⟩ := ht
    obtain ⟨own', ht'⟩ := ht.hold
    have hnew : Function.update A v (as ++ (p, d.2) :: bs) v = (as ++ [(p, d.2)]) ++ bs := by
      rw [Function.update_self, List.append_assoc]
      rfl
    have hrest : Function.update A v (as ++ (p, d.2) :: bs) other = cs ++ d :: (ds ++ es) := by
      rw [Function.update_of_ne hne]
      exact hA'
    refine ends_readPtr_bind (ht'.node_valid (ht.mem hother) hrest) ?_
    rw [ht'.next_eq (ht.mem hother) hrest]
    exact (ih ht' (ht.mem hv) (ht.mem hother) hnew (hrest.trans (List.append_cons ..)) (ht.room _ _ hroom) (Nat.le_of_succ_le_succ hfuel)).mono
      (fun _ _ hr => .cons ht hr) fun _ _ he => .cons ht he

theorem ends_emplaceFront (h : ListsHold T tidy w A own others) (hv : v ∈ w.names)
    (hroom : AddressRoom w.heap T.sizeofNode T.alignofNode) (x : E) :
    (emplaceFront T v x).Ends w (fun _ w' => Receives T tidy w A others v [] (A v) [x] w') fun _ w' => ListsKept T tidy w A others w' := by
  unfold emplaceFront begin'
  refine ends_readPtr_bind trivial ?_
  rw [h.first_eq hv]
  have hA : A v = [] ++ A v := rfl
  refine (h.ends_emplace hv hA hroom x).mono (fun _ _ hq => ?_) fun _ _ he => he
  obtain ⟨p, -, hare⟩ := hq
  exact ⟨[(p, x)], rfl, hare⟩

theorem ends_emplaceBack (h : ListsHold T tidy w A own others) (hv : v ∈ w.names)
    (hroom : AddressRoom w.heap T.sizeofNode T.alignofNode) (x : E) :
    (emplaceBack T v x).Ends w (fun _ w' => Receives T tidy w A others v (A v) [] [x] w') fun _ w' => ListsKept T tidy w A others w' := by
  unfold emplaceBack
  have hA : A v = A v ++ [] := (List.append_nil _).symm
  refine (h.ends_emplace hv hA hroom x).mono (fun _ _ hq => ?_) fun _ _ he => he
  obtain ⟨p, -, hare⟩ := hq
  exact ⟨[(p, x)], rfl, hare⟩

theorem ends_growTo (h : ListsHold T tidy w A own others) (hv : v ∈ w.names) (hroom : AddressRoom w.heap T.sizeofNode T.alignofNode)
    (hfuel : n-(A v).length ≤ fuel) :
    (growTo T v n x fuel).Ends w (fun _ w' => Receives T tidy w A others v (A v) [] (List.replicate (n-(A v).length) x) w')
      fun _ w' => ReceivesSome T tidy w A others v (A v) [] (List.replicate (n-(A v).length) x) w' := by
  have hsize := (h.list v hv).size_eq
  induction fuel generalizing w A own with
  | zero =>
    unfold growTo
    apply ends_get_bind
    rw [if_neg (by omega), Nat.le_zero.mp hfuel]
    exact ends_pure (receives_nil h.are (List.append_nil _).symm)
  | succ fuel ih =>
    unfold growTo
    apply ends_get_bind
    by_cases hlt : (A v).length < n
    · rw [hsize, if_pos hlt]
      obtain ⟨k, hk⟩ : ∃ k, n-(A v).length = k+1 := ⟨n-(A v).length-1, by omega⟩
      rw [hk, List.replicate_succ]
      refine ((h.ends_emplaceBack hv hroom x).mono (fun _ _ hq => hq) fun _ _ he => .none he (List.append_nil _).symm).bind fun _ t ht => ?_
      obtain ⟨new, hnew, ht⟩ := ht
      obtain ⟨⟨p, y⟩, rfl⟩ : ∃ a, new = [a] := by
        have hlen := congrArg List.length hnew
        rw [List.length_map] at hlen
        exact List.length_eq_one_iff.mp hlen
      obtain rfl : y = x := (List.cons.inj hnew).1
      obtain ⟨own', ht'⟩ := ht.hold
      rw [List.append_nil] at ht ht'
      have hmid : Function.update A v (A v ++ [(p, y)]) v = A v ++ [(p, y)] := Function.update_self ..
      have hleft : n-(Function.update A v (A v ++ [(p, y)]) v).length = k := by
        rw [hmid, List.length_append]
        simp only [List.length_singleton]
        omega
      have hgrow := ih ht' (ht.mem hv) (ht.room _ _ hroom) (by omega) (ht'.list v (ht.mem hv)).size_eq
      rw [hleft, hmid] at hgrow
      exact hgrow.mono (fun _ _ hr => .cons ht hr) fun _ _ he => .cons ht he
    · rw [hsize, if_neg hlt, Nat.sub_eq_zero_of_le (Nat.le_of_not_lt hlt)]
      exact ends_pure (receives_nil h.are (List.append_nil _).symm)

/-! Removal. -/

theorem ends_eraseRange (h : ListsHold T tidy w A own others) (hv : v ∈ w.names) (hA : A v = as ++ (ds ++ bs)) (hfuel : ds.length ≤ fuel) :
    (eraseRange v (positionAt v bs) fuel (positionAt v (ds ++ bs))).Ends w
      (fun _ w' => ListsAre T tidy w (Function.update A v (as ++ bs)) others w') F := by
  induction ds generalizing w A own fuel with
  | nil =>
    unfold eraseRange
    rw [if_pos (by rfl)]
    refine ends_pure ?_
    rw [List.nil_append] at hA
    rw [← hA, Function.update_eq_self]
    exact h.are
  | cons d ds ih =>
    obtain ⟨fuel, rfl⟩ : ∃ k, fuel = k+1 := ⟨fuel-1, by rw [List.length_cons] at hfuel; omega⟩
    have hfirst : positionAt v (d :: ds ++ bs) = .node d.1 := rfl
    unfold eraseRange
    rw [hfirst, if_neg (h.position_ne hv hA)]
    refine (h.ends_erase hv hA).bind fun _ t ht => ?_
    obtain ⟨rfl, ht⟩ := ht
    obtain ⟨own', ht'⟩ := ht.hold
    refine (ih ht' (ht.mem hv) (Function.update_self ..) (Nat.le_of_succ_le_succ hfuel)).mono (fun _ _ hr => ?_) fun _ _ he => he
    rw [Function.update_idem] at hr
    exact ht.trans hr

theorem ends_popFront (h : ListsHold T tidy w A own others) (hv : v ∈ w.names) :
    (popFront v).Ends w (fun _ w' => ListsAre T tidy w (Function.update A v (A v).tail) others w') F := by
  unfold popFront begin'
  refine ends_readPtr_bind trivial ?_
  rw [h.first_eq hv]
  cases hA : A v with
  | nil =>
    have hend : positionAt v ([] : List (ℕ × E)) = .sentinel v := rfl
    rw [hend]
    unfold erase
    rw [if_pos rfl]
    refine ends_pure_bind (ends_pure ?_)
    rw [List.tail_nil, ← hA, Function.update_eq_self]
    exact h.are
  | cons a bs =>
    have hA' : A v = [] ++ a :: bs := hA
    exact (h.ends_erase hv hA').bind fun _ _ hr => ends_pure hr.2

theorem ends_popBack (h : ListsHold T tidy w A own others) (hv : v ∈ w.names) :
    (popBack v).Ends w (fun _ w' => ListsAre T tidy w (Function.update A v (A v).dropLast) others w') F := by
  unfold popBack
  refine ends_readPtr_bind trivial ?_
  rw [h.last_eq hv]
  rcases List.eq_nil_or_concat (A v) with hA | ⟨as, a, hA⟩
  · have hend : (baseNodes (A v)).getLastD (.sentinel v) = .sentinel v := by rw [hA]; rfl
    rw [hend]
    unfold erase
    rw [if_pos rfl]
    refine ends_pure_bind (ends_pure ?_)
    rw [hA, List.dropLast_nil, ← hA, Function.update_eq_self]
    exact h.are
  · rw [List.concat_eq_append] at hA
    have hlast : (baseNodes (A v)).getLastD (.sentinel v) = .node a.1 := by
      rw [hA, baseNodes_append]
      exact List.getLastD_concat
    rw [hlast]
    refine (h.ends_erase hv hA).bind fun _ _ hr => ends_pure ?_
    rw [List.append_nil] at hr
    rw [hA, List.dropLast_concat]
    exact hr.2

theorem ends_dropTo (h : ListsHold T tidy w A own others) (hv : v ∈ w.names) (hfuel : (A v).length ≤ fuel) :
    (dropTo v n fuel).Ends w (fun _ w' => ListsAre T tidy w (Function.update A v ((A v).take n)) others w') F := by
  have hsize := (h.list v hv).size_eq
  induction fuel generalizing w A own with
  | zero =>
    unfold dropTo
    apply ends_get_bind
    rw [if_neg (by omega)]
    refine ends_pure ?_
    rw [List.take_of_length_le (by omega), Function.update_eq_self]
    exact h.are
  | succ fuel ih =>
    unfold dropTo
    apply ends_get_bind
    by_cases hlt : n < (A v).length
    · rw [hsize, if_pos hlt]
      refine (h.ends_popBack hv).bind fun _ t ht => ?_
      obtain ⟨own', ht'⟩ := ht.hold
      have hmid : Function.update A v (A v).dropLast v = (A v).dropLast := Function.update_self ..
      have hdrop := ih ht' (ht.mem hv) (by rw [hmid, List.length_dropLast]; omega) (ht'.list v (ht.mem hv)).size_eq
      rw [hmid, Function.update_idem, List.dropLast_eq_take, List.take_take, Nat.min_eq_left (by omega)] at hdrop
      exact hdrop.mono (fun _ _ hr => ht.trans hr) fun _ _ he => he
    · rw [hsize, if_neg hlt]
      refine ends_pure ?_
      rw [List.take_of_length_le (by omega), Function.update_eq_self]
      exact h.are

/-- The loop of `clear`: the nodes `ds` go into the cache, one after the other. -/
theorem ends_destroyNodes {live : List ℕ} (h : PoolsHold T.toNodeType w own (ds.map Prod.fst ++ live) others) (hv : v ∈ w.names)
    (hrow : (baseNodes ds ++ [BaseNode.sentinel v]).IsChain fun a b => w.ptr .next a = b) (hfuel : ds.length ≤ fuel) :
    (destroyNodes v fuel (positionAt v ds)).Ends w
      (fun _ w' => PoolsHold T.toNodeType w' (Function.update own v ((ds.map Prod.fst).reverse ++ own v)) live others ∧ PoolFrame v w w' ∧
        (∀ p, p ∉ ds.map Prod.fst → w'.cell p = w.cell p) ∧ (w'.pool v).nodePoolAllocations = (w.pool v).nodePoolAllocations ∧
        w'.heap = w.heap) F := by
  induction ds generalizing w own fuel with
  | nil =>
    unfold destroyNodes
    rw [if_pos (by rfl)]
    refine ends_pure ⟨?_, .refl v w, fun _ _ => rfl, rfl, rfl⟩
    rw [List.map_nil, List.reverse_nil, List.nil_append, Function.update_eq_self]
    exact h
  | cons d ds ih =>
    obtain ⟨fuel, rfl⟩ : ∃ k, fuel = k+1 := ⟨fuel-1, by rw [List.length_cons] at hfuel; omega⟩
    have hfirst : positionAt v (d :: ds) = .node d.1 := rfl
    have hlive : w.LiveNode d.1 := (h.live_iff d.1).mp List.mem_cons_self
    have hnd := (List.nodup_append.mp h.nodes_nodup).2.1
    have hnext : w.ptr .next (.node d.1) = positionAt v ds ∧ (baseNodes ds ++ [BaseNode.sentinel v]).IsChain fun a b => w.ptr .next a = b := by
      rw [baseNodes_cons, List.cons_append, List.isChain_cons, List.head?_concat, ← List.headD_eq_head?_getD] at hrow
      exact ⟨hrow.1 _ rfl, hrow.2⟩
    unfold destroyNodes
    rw [hfirst, if_neg (by simp)]
    refine ends_readPtr_bind hlive ?_
    rw [hnext.1]
    refine (h.ends_destroy hv hlive).bind fun _ t ht => ?_
    obtain ⟨hpools, ⟨next, hcell⟩, hframe, halloc, hheap⟩ := ht
    have hother : ∀ p, p ≠ d.1 → t.cell p = w.cell p := fun p hp => by rw [hcell, Function.update_of_ne hp]
    rw [List.map_cons, List.cons_append, List.erase_cons_head] at hpools
    rw [List.map_cons, List.cons_append, List.nodup_cons] at hnd
    -- the rest of the row is as it was
    have hrow' : (baseNodes ds ++ [BaseNode.sentinel v]).IsChain fun a b => t.ptr .next a = b := by
      refine List.IsChain.imp_of_mem_imp (fun a b ha _ hab => ?_) hnext.2
      rw [← hab]
      refine hframe.ptr_eq fun p hp => hother p fun heq => hnd.1 (List.mem_append_left _ ?_)
      rcases List.mem_append.mp ha with ha | ha
      · obtain ⟨e, he, hae⟩ := mem_baseNodes.mp ha
        rw [← heq, BaseNode.node.inj (hp.symm.trans hae)]
        exact List.mem_map_of_mem he
      · cases hp.symm.trans (List.mem_singleton.mp ha)
    refine (ih hpools (hframe.names_eq ▸ hv) hrow' (Nat.le_of_succ_le_succ hfuel)).mono (fun _ w' hw' => ?_) fun _ _ he => he
    obtain ⟨hpools', hframe', hcell', halloc', hheap'⟩ := hw'
    refine ⟨?_, hframe.trans hframe', fun p hp => ?_, halloc'.trans halloc, hheap'.trans hheap⟩
    · rw [Function.update_idem, Function.update_self] at hpools'
      rw [List.map_cons, List.reverse_cons, List.append_assoc]
      exact hpools'
    · rw [List.map_cons, List.mem_cons, not_or] at hp
      rw [hcell' p hp.2, hother p hp.1]

/-- All nodes of the list go into its cache. -/
theorem ends_clear (h : ListsHold T tidy w A own others) (hv : v ∈ w.names) :
    (clear v).Ends w
      (fun _ w' => ListsHold T tidy w' (Function.update A v []) (Function.update own v (((A v).map Prod.fst).reverse ++ own v)) others ∧
        w'.names = w.names ∧ (∀ n al, AddressRoom w.heap n al → AddressRoom w'.heap n al) ∧ w'.heap.freed = w.heap.freed) F := by
  have hcircle : LinkedRow (w.ptr .next) (w.ptr .prev) ([BaseNode.sentinel v] ++ (baseNodes (A v) ++ [BaseNode.sentinel v])) :=
    (h.list v hv).circle
  have hrow : (baseNodes (A v) ++ [BaseNode.sentinel v]).IsChain fun a b => w.ptr .next a = b := by
    exact List.IsChain.imp (fun a b hab => hab.1) (LinkedRow.append_iff.mp hcircle).2.1
  unfold clear
  refine ends_readPtr_bind trivial ?_
  rw [h.first_eq hv]
  refine (ends_destroyNodes (h.pools.perm (nodesOf_perm_erase hv)) hv hrow (h.length_lt hv).le).bind fun _ t ht => ?_
  obtain ⟨hpools, hframe, hcell, halloc, hheap⟩ := ht
  refine (ends_resetSentinel (S := fun q => q ∈ circleOf v (A v)) (v := v) List.mem_cons_self).bind fun _ t₁ ht₁ => ends_setSize ?_
  obtain ⟨h₁, hnext, hprev⟩ := ht₁
  have hu : Untouched (fun q => q ∈ circleOf v (A v)) w t := by
    refine hframe.untouched List.mem_cons_self fun p hp => hcell p fun hin => hp ?_
    obtain ⟨a, ha, rfl⟩ := List.mem_map.mp hin
    exact List.mem_cons_of_mem _ (mem_baseNodes.mpr ⟨a, ha, rfl⟩)
  refine ⟨h.put_one hv (hu.trans (h₁.untouched.trans (.setSize List.mem_cons_self)))
    (fun u hmem hne q hq => h.apart hmem hv hne hq) (h₁.relinks.names_eq.trans hframe.names_eq) ((h₁.relinks.trans (.setSize _ v 0)).pools hpools) (List.Perm.refl _) ?_
    fun htidy => ?_, h₁.relinks.names_eq.trans hframe.names_eq, fun n al hr => ?_, ?_⟩
  · refine ⟨?_, ?_, fun a ha => (by cases ha)⟩
    · rw [NodeWorld.ptr_setSize, NodeWorld.ptr_setSize]
      rw [hnext, hprev]
      exact Circular.nil_iff.mpr ⟨Function.update_self .., Function.update_self ..⟩
    · exact NodeWorld.size_setSize
  · change (t₁.pool v).nodePoolAllocations = _
    have hc := h.counted htidy v hv
    rw [h₁.relinks.pool_eq, halloc, List.length_append, List.length_reverse, List.length_map, List.length_nil]
    omega
  · change AddressRoom t₁.heap n al
    rw [h₁.relinks.heap_eq]
    exact hframe.room n al hr
  · change t₁.heap.freed = _
    rw [h₁.relinks.heap_eq, hheap]

/-- The cache of the list goes back to the allocator. -/
theorem ends_shrinkToFit (h : ListsHold T tidy w A own others) (hv : v ∈ w.names) :
    (SharedMemoryList.shrinkToFit T v).Ends w
      (fun _ w' => ListsHold T tidy w' A (Function.update own v []) others ∧ w'.names = w.names ∧
        (∀ n al, AddressRoom w.heap n al → AddressRoom w'.heap n al) ∧ w'.heap.freed = own v ++ w.heap.freed) F := by
  unfold SharedMemoryList.shrinkToFit
  refine (h.pools.ends_shrinkToFit hv).mono (fun _ w' hw' => ?_) fun _ _ he => he
  obtain ⟨hpools, hframe, hcell, halloc, hfreed⟩ := hw'
  refine ⟨h.of_frame hframe (fun p hp => hcell p fun hin => h.pools.not_live hv hin hp) hpools fun htidy _ => ?_,
    hframe.names_eq, hframe.room, hfreed⟩
  rw [halloc, h.counted htidy v hv, Nat.add_sub_cancel]
  rfl

end ListsHold

end ShmNext
