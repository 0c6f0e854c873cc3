import ShmNext.Vector

/-! What each member of the vector does: to the elements of its own storage, and to nothing else. -/
namespace ShmNext
open Prog

variable {V : Type} {T : ElementType V} {w w' t : VectorWorld V} {r old new : Region V} {rs rest own : List (Region V)}
  {ys zs : List (ℕ × V)} {v other n p i : ℕ} {x : V} {α : Type} {Q : α → VectorWorld V → Prop}
  {E : VectorThrown → VectorWorld V → Prop} {xs : List V}

def VectorWorld.Stores (T : ElementType V) (w : VectorWorld V) (rs : List (Region V)) : Prop :=
  StoredExactly T.sizeofT w.heap w.objects rs

/-- No vector object has changed. -/
structure SameVecs (w w' : VectorWorld V) : Prop where
  vec_eq : w'.vec = w.vec
  names_eq : w'.names = w.names

theorem SameVecs.refl (w : VectorWorld V) : SameVecs w w := ⟨rfl, rfl⟩

theorem SameVecs.trans (h : SameVecs w w') (h' : SameVecs w' t) : SameVecs w t :=
  ⟨h'.vec_eq.trans h.vec_eq, h'.names_eq.trans h.names_eq⟩

/-! Objects side by side: what each of them owns, and the rest. -/

namespace VectorWorld.Stores
variable {own : ℕ → List (Region V)} {rest mine : List (Region V)} {ns L : List ℕ} {Y : Type} {A : ℕ → Option Y} {y : Y}

/-- The regions of `v`, and those of the others. -/
theorem focus (h : w.Stores T (ns.flatMap own ++ rest)) (hv : v ∈ ns) :
    w.Stores T (own v ++ ((ns.erase v).flatMap own ++ rest)) := by
  have hperm := (List.perm_cons_erase hv).flatMap_right own
  rw [List.flatMap_cons] at hperm
  have hall := hperm.append_right rest
  rw [List.append_assoc] at hall
  exact h.perm hall

/-- `v` with its regions `mine` stands beside the objects of `L`, each of which owns what it owned. -/
theorem assemble {P : ℕ → List (Region V) → Option Y → Prop} (h : w.Stores T (mine ++ (L.flatMap own ++ rest))) (hL : L.Nodup)
    (hv : v ∉ L) (hnames : ns.Perm (v :: L)) (hmine : P v mine (some y)) (howns : ∀ u ∈ L, P u (own u) (A u))
    (habs : ∀ u, u ≠ v → u ∉ L → A u = none) :
    ns.Nodup ∧ w.Stores T (ns.flatMap (Function.update own v mine) ++ rest) ∧
      (∀ u ∈ ns, P u (Function.update own v mine u) (Function.update A v (some y) u)) ∧
      ∀ u, u ∉ ns → Function.update A v (some y) u = none := by
  have hne : ∀ u ∈ L, u ≠ v := fun u hu heq => hv (heq ▸ hu)
  refine ⟨hnames.symm.nodup (List.nodup_cons.mpr ⟨hv, hL⟩), h.perm ?_, fun u hu => ?_, fun u hu => ?_⟩
  · have hsame : L.flatMap (Function.update own v mine) = L.flatMap own :=
      List.flatMap_congr fun u hu => Function.update_of_ne (hne u hu) _ _
    have hperm := hnames.symm.flatMap_right (Function.update own v mine)
    rw [List.flatMap_cons, Function.update_self, hsame] at hperm
    have hall := hperm.append_right rest
    rwa [List.append_assoc] at hall
  · by_cases huv : u = v
    · subst huv
      rw [Function.update_self, Function.update_self]
      exact hmine
    · rw [Function.update_of_ne huv, Function.update_of_ne huv]
      exact howns u ((List.mem_cons.mp (hnames.mem_iff.mp hu)).resolve_left huv)
  · have hu' : u ≠ v ∧ u ∉ L := by
      have hno := fun hm => hu (hnames.mem_iff.mpr hm)
      simpa using hno
    rw [Function.update_of_ne hu'.1]
    exact habs u hu'.1 hu'.2

end VectorWorld.Stores

namespace ElementType

theorem normalizes (T : ElementType V) : ∃ A, normalizeAlignment T.alignofT = some A := by
  obtain ⟨k, hk, hal⟩ := T.align_pow
  exact ⟨_, hal ▸ normalizeAlignment_two_pow hk⟩

end ElementType

/-! Single objects. -/

theorem ends_elementAt {y : ℕ × V} (h : w.objects.slot p = some y) :
    (elementAt p).Ends w (fun x w' => x = y.2 ∧ w = w') E := by
  suffices hrun : (elementAt p).run w = (.ok y.2, w) from ends_of_ok hrun ⟨rfl, rfl⟩
  unfold elementAt
  rw [run_read, h]
  rfl

theorem ends_constructAt {b : Bool} (h : w.objects.slot p = none) :
    (constructAt T b p x).Ends w
      (fun _ w' => w' = { w with objects := w.objects.insert p x } ∧ ¬(b = false ∧ T.throws w.objects.calls = true))
      fun _ w' => w' = { w with objects := w.objects.throwing } ∧ b = false ∧ T.throws w.objects.calls = true := by
  have hrun : (constructAt T b p x).run w = Prog.run (if !b && T.throws w.objects.calls then
      Prog.write (fun w => { w with objects := w.objects.throwing }) (Prog.throw .element)
      else Prog.write (fun w => { w with objects := w.objects.insert p x }) (Prog.ret ())) w := by
    change Prog.run (if (w.objects.slot p).isSome then undefined else _) w = _
    rw [h, if_neg (by simp)]
  by_cases hthrow : (!b && T.throws w.objects.calls) = true
  · rw [if_pos hthrow] at hrun
    simp only [Bool.and_eq_true, Bool.not_eq_true'] at hthrow
    exact ends_of_error hrun ⟨rfl, hthrow⟩
  · rw [if_neg hthrow] at hrun
    simp only [Bool.and_eq_true, Bool.not_eq_true'] at hthrow
    exact ends_of_ok hrun ⟨rfl, hthrow⟩

theorem ends_assignAt {y : ℕ × V} (h : w.objects.slot p = some y) :
    (assignAt p x).Ends w (fun _ w' => w' = { w with objects := w.objects.assign p x }) E := by
  refine ends_of_ok (a := ()) ?_ rfl
  change Prog.run (if _ then _ else _) w = _
  rw [h, if_neg (by simp)]
  rfl

theorem ends_destroyAt {y : ℕ × V} (h : w.objects.slot p = some y) :
    (destroyAt p).Ends w (fun _ w' => w' = { w with objects := w.objects.remove p }) E := by
  refine ends_of_ok (a := ()) ?_ rfl
  change Prog.run (if _ then _ else _) w = _
  rw [h, if_neg (by simp)]
  rfl

/-! Allocator calls. -/

theorem callAllocator_ok {call : Op α} {after : α → Allocator → Heap → Heap} {a : α} {s : Allocator}
    (hrun : call.run w.heap.alloc = (.ok a, s)) (h : Q a (w.withHeap T (after a s w.heap))) :
    (callAllocator T call after).Ends w Q E := by
  refine ends_of_ok ?_ h
  unfold callAllocator
  rw [run_read, hrun]
  rfl

theorem callAllocator_error {call : Op α} {after : α → Allocator → Heap → Heap} {e : Thrown} {s : Allocator}
    (hrun : call.run w.heap.alloc = (.error e, s)) (h : E (.allocator e) (w.withHeap T { w.heap with alloc := s })) :
    (callAllocator T call after).Ends w Q E := by
  refine ends_of_error ?_ h
  unfold callAllocator
  rw [run_read, hrun]
  rfl

namespace SharedMemoryVector

/-- The layout of storage for `n` elements does not wrap, in whatever block is tried, nor behind `start`. -/
def CapacityFits (T : ElementType V) (w : VectorWorld V) (start n : ℕ) : Prop :=
  n ≤ (2^64-1)/T.sizeofT → AllocateFits w.heap.alloc (n*T.sizeofT) T.alignofT ∧
    (start ≠ 0 → ExpandFits w.heap.alloc start (n*T.sizeofT) T.alignofT)

/-- `allocate` for `n` elements finds a block. -/
def FindsStorage (T : ElementType V) (w : VectorWorld V) (n : ℕ) : Prop :=
  n ≤ (2^64-1)/T.sizeofT ∧ FindsBlock w.heap.alloc (n*T.sizeofT) T.alignofT

/-- The block of the storage at `start`, or it and a free successor, have room for `n` elements there. -/
def ExpandsStorage (T : ElementType V) (w : VectorWorld V) (start n : ℕ) : Prop :=
  n ≤ (2^64-1)/T.sizeofT ∧ ∃ A ∈ normalizeAlignment T.alignofT,
    CanExpand w.heap.alloc (headerBlock w.heap.alloc.mem start) start (n*T.sizeofT) A

theorem ends_allocate (h : w.Stores T rs) (hn : 0 < n)
    (hfits : n ≤ (2^64-1)/T.sizeofT → AllocateFits w.heap.alloc (n*T.sizeofT) T.alignofT) :
    (allocate T n).Ends w
      (fun p w' => p ≠ 0 ∧ w'.Stores T (⟨p, n*T.sizeofT, []⟩ :: rs) ∧ SameVecs w w' ∧
        w'.objects.calls = w.objects.calls ∧ FindsStorage T w n)
      fun _ w' => w'.Stores T rs ∧ SameVecs w w' ∧ ¬FindsStorage T w n := by
  obtain ⟨A, hA⟩ := T.normalizes
  have hreturns := h.allocateElements_returns_iff T.sizeof_pos hn hA hfits
  rcases h.allocateElements T.sizeof_pos hn hA hfits with ⟨p, s, hrun, hp, hst⟩ | ⟨e, s, hrun, hst⟩
  · exact callAllocator_ok hrun ⟨hp, hst, ⟨rfl, rfl⟩, rfl, hreturns.mp ⟨p, s, hrun⟩⟩
  · refine callAllocator_error hrun ⟨hst, ⟨rfl, rfl⟩, fun hfinds => ?_⟩
    obtain ⟨p, s', hok⟩ := hreturns.mpr hfinds
    rw [hok] at hrun
    cases (Prod.ext_iff.mp hrun).1

theorem ends_deallocate (h : w.Stores T (r :: rs)) (hr : r.cells = []) :
    (deallocate T r.base).Ends w (fun _ w' => w'.Stores T rs ∧ SameVecs w w') E := by
  obtain ⟨s, hrun, hst⟩ := h.deallocate hr
  unfold deallocate
  rw [if_neg (h.bounds List.mem_cons_self).1.ne']
  exact callAllocator_ok hrun ⟨hst, rfl, rfl⟩

theorem ends_tryExpand (h : w.Stores T (r :: rs)) (hn : 0 < n) (hgrow : r.bytes ≤ n*T.sizeofT)
    (hfits : n ≤ (2^64-1)/T.sizeofT → ExpandFits w.heap.alloc r.base (n*T.sizeofT) T.alignofT) :
    (tryExpand T r.base n).Ends w (fun b w' => (SameVecs w w' ∧ w'.objects.calls = w.objects.calls ∧
      (b = true ↔ ExpandsStorage T w r.base n)) ∧
      if b then w'.Stores T ({ r with bytes := n*T.sizeofT } :: rs)
      else w'.Stores T (r :: rs) ∧ CountersOnly w.heap.alloc w'.heap.alloc) E := by
  obtain ⟨A, hA⟩ := T.normalizes
  have hsz := T.sizeof_pos
  unfold tryExpand
  by_cases hmax : (2^64-1)/T.sizeofT < n
  · rw [if_pos hmax]
    have hno : ¬ExpandsStorage T w r.base n := fun hexp => absurd hexp.1 (Nat.not_le.mpr hmax)
    exact ends_pure ⟨⟨.refl w, rfl, by simp [hno]⟩, h, .refl _⟩
  rw [if_neg hmax]
  have hmul : n*T.sizeofT ≤ 2^64-1 := (Nat.mul_le_mul_right _ (not_lt.mp hmax)).trans (Nat.div_mul_le_self _ _)
  have hanswer : ∀ b c, (ShmNext.tryExpand r.base (n*T.sizeofT) T.alignofT).run w.heap.alloc = (.ok b, c) →
      (b = true ↔ ExpandsStorage T w r.base n) := by
    intro b c hrun
    obtain ⟨bs, l, hinv⟩ := h.heap
    obtain ⟨a, ha, hb, -⟩ := h.live r List.mem_cons_self
    rw [← hb] at hrun ⊢
    rw [hinv.tryExpand_true_iff ha (Nat.mul_pos hn hsz) (by omega) hA (hb ▸ hfits (not_lt.mp hmax)) hrun]
    exact ⟨fun hcan => ⟨not_lt.mp hmax, A, hA, hcan⟩, fun ⟨_, A', hA', hcan⟩ => Option.some.inj (hA'.symm.trans hA) ▸ hcan⟩
  rcases h.tryExpand (Nat.mul_pos hn hsz) (by omega) hA (hfits (not_lt.mp hmax)) hgrow with
    ⟨s, hrun, hst⟩ | ⟨s, hrun, hc, hst⟩
  · exact callAllocator_ok hrun ⟨⟨⟨rfl, rfl⟩, rfl, hanswer _ _ hrun⟩, hst⟩
  · exact callAllocator_ok hrun ⟨⟨⟨rfl, rfl⟩, rfl, hanswer _ _ hrun⟩, hst, hc⟩

/-! Rows of objects. -/

theorem ends_push {b : Bool} (h : w.Stores T (r :: rs)) (hroom : (r.cells.length+1)*T.sizeofT ≤ r.bytes) :
    (constructAt T b (r.base+r.cells.length*T.sizeofT) x).Ends w
      (fun _ w' => w'.Stores T ({ r with cells := r.cells ++ [(w.objects.made, x)] } :: rs) ∧ SameVecs w w' ∧
        w'.objects.calls = w.objects.calls+1 ∧ ¬(b = false ∧ T.throws w.objects.calls = true))
      fun _ w' => w'.Stores T (r :: rs) ∧ SameVecs w w' ∧ b = false ∧ T.throws w.objects.calls = true := by
  have hlt : r.cells.length*T.sizeofT < r.bytes := by
    have hsz := T.sizeof_pos
    rw [Nat.succ_mul] at hroom
    omega
  have hnone : w.objects.slot (r.base+r.cells.length*T.sizeofT) = none := by
    rw [h.slot_eq T.sizeof_pos List.mem_cons_self hlt]
    exact List.getElem?_eq_none le_rfl
  refine (ends_constructAt hnone).mono (fun _ w' hw => ?_) fun _ w' hw => ?_
  · obtain ⟨rfl, hno⟩ := hw
    exact ⟨h.push T.sizeof_pos hroom x, ⟨rfl, rfl⟩, rfl, hno⟩
  · obtain ⟨rfl, hthrow⟩ := hw
    exact ⟨⟨⟨h.heap, h.live, h.distinct, h.whole, h.filled, h.outside, h.accounted.throwing⟩, h.covered⟩, ⟨rfl, rfl⟩, hthrow⟩

/-- The slot of an element in any of the regions. -/
theorem slot_of_cell {y : ℕ × V} (h : w.Stores T rs) (hr : r ∈ rs) (hy : r.cells[i]? = some y) :
    w.objects.slot (r.base+i*T.sizeofT) = some y := by
  have hlt : i+1 ≤ r.cells.length := (List.getElem?_eq_some_iff.mp hy).1
  have hmul := (Nat.mul_le_mul_right T.sizeofT hlt).trans (h.whole r hr)
  have hsz := T.sizeof_pos
  rw [Nat.succ_mul] at hmul
  rw [h.slot_eq hsz hr (by omega), hy]

/-- The objects once those from slot `i` to slot `stop` of the row at `p` have been destroyed. -/
structure Emptied (T : ElementType V) (p i stop : ℕ) (o o' : Objects V) : Prop where
  accounted : o'.Accounted
  gone : ∀ j, i ≤ j → j < stop → o'.slot (p+j*T.sizeofT) = none
  kept : ∀ q, (∀ j, i ≤ j → j < stop → q ≠ p+j*T.sizeofT) → o'.slot q = o.slot q

theorem ends_destroyRange {left : ℕ} (hacc : w.objects.Accounted)
    (hslots : ∀ j, i ≤ j → j < i+left → ∃ y, w.objects.slot (p+j*T.sizeofT) = some y) :
    (destroyRange T p i left).Ends w
      (fun _ w' => ∃ o, w' = { w with objects := o } ∧ Emptied T p i (i+left) w.objects o) E := by
  induction left generalizing i w with
  | zero => exact ends_pure ⟨w.objects, rfl, hacc, fun j h1 h2 => by omega, fun q _ => rfl⟩
  | succ left ih =>
    obtain ⟨y, hy⟩ := hslots i le_rfl (by omega)
    unfold destroyRange
    refine (ends_destroyAt hy).bind fun _ w' hw => ?_
    subst hw
    have hne : ∀ j, i+1 ≤ j → p+j*T.sizeofT ≠ p+i*T.sizeofT := fun j hj => by
      have hlt := Nat.mul_lt_mul_of_pos_right hj T.sizeof_pos
      omega
    have hrest : ∀ j, i+1 ≤ j → j < i+1+left → ∃ y, (w.objects.remove (p+i*T.sizeofT)).slot (p+j*T.sizeofT) = some y := by
      intro j h1 h2
      obtain ⟨z, hz⟩ := hslots j (by omega) (by omega)
      exact ⟨z, (Function.update_of_ne (hne j h1) _ _).trans hz⟩
    refine (ih (hacc.remove hy) hrest).mono (fun _ w' hw => ?_) fun _ _ he => he
    obtain ⟨o, rfl, ho, hgone, hkept⟩ := hw
    refine ⟨o, rfl, ho, fun j h1 h2 => ?_, fun q hq => ?_⟩
    · rcases Nat.eq_or_lt_of_le h1 with rfl | hlt
      · rw [hkept _ fun j hj _ => (hne j hj).symm]
        exact Function.update_self ..
      · exact hgone j hlt (by omega)
    · rw [hkept q fun j h1 h2 => hq j (by omega) (by omega)]
      exact Function.update_of_ne (hq i le_rfl (by omega)) _ _

/-- The elements of a region from slot `n` on have been destroyed. -/
theorem stored_emptied {o : Objects V} (h : w.Stores T (r :: rs)) (he : Emptied T r.base n r.cells.length w.objects o) :
    StoredExactly T.sizeofT w.heap o ({ r with cells := r.cells.take n } :: rs) := by
  have hsz := T.sizeof_pos
  have hwhole := h.whole r List.mem_cons_self
  have hin : ∀ j, j < r.cells.length → r.base+j*T.sizeofT < r.base+r.bytes := fun j hj => by
    have hmul := (Nat.mul_le_mul_right T.sizeofT (show j+1 ≤ r.cells.length from hj)).trans hwhole
    rw [Nat.succ_mul] at hmul
    omega
  have hother : ∀ r' ∈ rs, ∀ q, r'.base ≤ q → q < r'.base+r'.bytes → o.slot q = w.objects.slot q := by
    intro r' hm q h1 h2
    refine he.kept q ?_
    rintro j - hj rfl
    have hne : r'.base ≠ r.base := fun heq => (List.nodup_cons.mp h.distinct).1 (heq ▸ List.mem_map_of_mem hm)
    have := h.apart List.mem_cons_self (List.mem_cons_of_mem _ hm) hne
    have := hin j hj
    omega
  -- what is alive now was alive before
  have hold : ∀ q y, o.slot q = some y → w.objects.slot q = some y := by
    intro q y hq
    by_cases hrow : ∃ j, n ≤ j ∧ j < r.cells.length ∧ q = r.base+j*T.sizeofT
    · obtain ⟨j, h1, h2, rfl⟩ := hrow
      rw [he.gone j h1 h2] at hq
      cases hq
    · rwa [← he.kept q fun j h1 h2 heq => hrow ⟨j, h1, h2, heq⟩]
  refine h.refill ⟨h.heap, fun r' hm => ?_, h.distinct, fun r' hm => ?_, fun r' hm => ?_, fun q y hq => ?_, he.accounted⟩
  · rcases List.mem_cons.mp hm with rfl | hm
    · exact h.live r List.mem_cons_self
    · exact h.live r' (List.mem_cons_of_mem _ hm)
  · rcases List.mem_cons.mp hm with rfl | hm
    · exact (Nat.mul_le_mul_right _ (List.length_take_le' n r.cells)).trans hwhole
    · exact h.whole r' (List.mem_cons_of_mem _ hm)
  · rcases List.mem_cons.mp hm with rfl | hm
    · intro q h1 h2
      by_cases hrow : ∃ j, q = r.base+j*T.sizeofT
      · obtain ⟨j, rfl⟩ := hrow
        rw [cellAt_slot hsz, List.getElem?_take]
        by_cases hj : n ≤ j ∧ j < r.cells.length
        · rw [he.gone j hj.1 hj.2, if_neg (by omega)]
        · have hkept : o.slot (r.base+j*T.sizeofT) = w.objects.slot (r.base+j*T.sizeofT) := by
            refine he.kept _ fun k hk1 hk2 heq => hj ?_
            obtain rfl : j = k := Nat.eq_of_mul_eq_mul_right hsz (by omega)
            exact ⟨hk1, hk2⟩
          rw [hkept, h.filled r List.mem_cons_self _ h1 h2, cellAt_slot hsz]
          by_cases hjn : j < n
          · rw [if_pos hjn]
          · rw [if_neg hjn, List.getElem?_eq_none (by omega)]
      · have hoff : ∀ j, q ≠ r.base+j*T.sizeofT := fun j hj => hrow ⟨j, hj⟩
        rw [he.kept q fun j _ _ => hoff j, h.filled r List.mem_cons_self q h1 h2, cellAt_between hoff, cellAt_between hoff]
    · exact (h.filled r' (List.mem_cons_of_mem _ hm)).congr (hother r' hm)
  · obtain ⟨r', hm, hin'⟩ := h.outside q y (hold q y hq)
    rcases List.mem_cons.mp hm with rfl | hm
    · exact ⟨_, List.mem_cons_self, hin'⟩
    · exact ⟨r', List.mem_cons_of_mem _ hm, hin'⟩

theorem Emptied.shift {o o' : Objects V} (h : Emptied T (p+n*T.sizeofT) 0 i o o') : Emptied T p n (n+i) o o' := by
  have hslot : ∀ j, p+n*T.sizeofT+j*T.sizeofT = p+(n+j)*T.sizeofT := fun j => by rw [Nat.add_mul, Nat.add_assoc]
  refine ⟨h.accounted, fun j h1 h2 => ?_, fun q hq => h.kept q fun j _ h2 => ?_⟩
  · have hgone := h.gone (j-n) (Nat.zero_le _) (by omega)
    rwa [hslot, Nat.add_sub_cancel' h1] at hgone
  · rw [hslot]
    exact hq (n+j) (by omega) (by omega)

/-- `destroy_range` over the elements of a region from slot `n` on. -/
theorem ends_destroyFrom (h : w.Stores T (r :: rs)) (hn : n ≤ r.cells.length) :
    (destroyRange T (r.base+n*T.sizeofT) 0 (r.cells.length-n)).Ends w
      (fun _ w' => w'.Stores T ({ r with cells := r.cells.take n } :: rs) ∧ SameVecs w w') E := by
  have hslots : ∀ j, 0 ≤ j → j < 0+(r.cells.length-n) →
      ∃ y, w.objects.slot (r.base+n*T.sizeofT+j*T.sizeofT) = some y := by
    intro j _ hj
    rw [Nat.add_assoc, ← Nat.add_mul]
    exact ⟨_, slot_of_cell h List.mem_cons_self (List.getElem?_eq_getElem (by omega))⟩
  refine (ends_destroyRange h.accounted hslots).mono (fun _ w' hw => ?_) fun _ _ he => he
  obtain ⟨o, rfl, he⟩ := hw
  rw [Nat.zero_add] at he
  have hst := he.shift
  rw [Nat.add_sub_cancel' hn] at hst
  have hleft := stored_emptied h hst
  exact ⟨hleft, rfl, rfl⟩

theorem ends_destroyAll (h : w.Stores T (r :: rs)) :
    (destroyRange T r.base 0 r.cells.length).Ends w
      (fun _ w' => w'.Stores T ({ r with cells := [] } :: rs) ∧ SameVecs w w') E := by
  have hall := ends_destroyFrom (E := E) h (Nat.zero_le _)
  rwa [Nat.zero_mul] at hall

/-- A handler that gives up storage under construction. -/
theorem ends_giveUp (h : w.Stores T (r :: rs)) (hi : r.cells.length = i) :
    (do
      destroyRange T r.base 0 i
      deallocate T r.base).Ends w (fun _ w' => w'.Stores T rs ∧ SameVecs w w') E := by
  subst hi
  refine (ends_destroyAll h).bind fun _ w' hw => ?_
  obtain ⟨hst, hsame⟩ := hw
  exact (ends_deallocate hst rfl).mono (fun _ _ hw => ⟨hw.1, hsame.trans hw.2⟩) fun _ _ he => he

/-- `x` is a vector object over the storage `own`, with the elements `ys`. -/
inductive Owns (T : ElementType V) : SharedMemoryVector → List (Region V) → List (ℕ × V) → Prop
  | null : Owns T SharedMemoryVector.null [] []
  | storage {p cap : ℕ} {ys : List (ℕ × V)} (hp : p ≠ 0) (hcap : 0 < cap) (hle : ys.length ≤ cap) :
      Owns T ⟨p, p+ys.length*T.sizeofT, p+cap*T.sizeofT⟩ [⟨p, cap*T.sizeofT, ys⟩] ys

theorem size_storage {p q k : ℕ} (hp : p ≠ 0) : size T ⟨p, p+k*T.sizeofT, q⟩ = k := by
  unfold size
  rw [if_pos hp]
  dsimp only
  rw [Nat.add_sub_cancel_left, Nat.mul_div_cancel _ T.sizeof_pos]

theorem capacity_storage {p q k : ℕ} (hp : p ≠ 0) : capacity T ⟨p, q, p+k*T.sizeofT⟩ = k := by
  unfold capacity
  rw [if_pos hp]
  dsimp only
  rw [Nat.add_sub_cancel_left, Nat.mul_div_cancel _ T.sizeof_pos]

theorem size_null : size T SharedMemoryVector.null = 0 := rfl

theorem capacity_null : capacity T SharedMemoryVector.null = 0 := rfl

theorem Owns.size_eq (h : Owns T (w.vec v) own ys) : size T (w.vec v) = ys.length := by
  generalize w.vec v = x at h
  cases h with
  | null => rfl
  | storage hp _ _ => exact size_storage hp

/-- Only the vector object `v` has changed. -/
structure Beside (v : ℕ) (w w' : VectorWorld V) : Prop where
  vec_eq : ∀ u, u ≠ v → w'.vec u = w.vec u
  names_eq : w'.names = w.names

theorem Beside.refl (v : ℕ) (w : VectorWorld V) : Beside v w w := ⟨fun _ _ => rfl, rfl⟩

theorem Beside.trans (h : Beside v w w') (h' : Beside v w' t) : Beside v w t :=
  ⟨fun u hu => (h'.vec_eq u hu).trans (h.vec_eq u hu), h'.names_eq.trans h.names_eq⟩

theorem beside_of_same (h : SameVecs w w') (v : ℕ) : Beside v w w' :=
  ⟨fun _ _ => congrFun h.vec_eq _, h.names_eq⟩

/-! Stores into the vector object. -/

theorem ends_modify {f : SharedMemoryVector → SharedMemoryVector} {Q : Unit → VectorWorld V → Prop}
    (h : Q () { w with vec := Function.update w.vec v (f (w.vec v)) }) : (modify v f).Ends w Q E := h

theorem ends_setAll {a b c : ℕ} (hc : c < 2^64) {Q : Unit → VectorWorld V → Prop}
    (h : Q () { w with vec := Function.update w.vec v ⟨a, b, c⟩ }) :
    (do
      setStart v a
      setFinish v b
      setEndOfStorage v c).Ends w Q E := by
  apply ends_store_bind
  apply ends_store_bind
  apply ends_modify
  simpa only [Function.update_self, Function.update_idem, Nat.mod_eq_of_lt hc] using h

theorem ends_setNull {Q : Unit → VectorWorld V → Prop}
    (h : Q () { w with vec := Function.update w.vec v .null }) : (setNull v).Ends w Q E := ends_setAll (Nat.two_pow_pos 64) h

theorem ends_setBack {a b c d e : ℕ} (hv : w.vec v = ⟨a, b, c⟩) (he : e < 2^64) {Q : Unit → VectorWorld V → Prop}
    (h : Q () { w with vec := Function.update w.vec v ⟨a, d, e⟩ }) :
    (do
      setFinish v d
      setEndOfStorage v e).Ends w Q E := by
  apply ends_store_bind
  apply ends_modify
  simpa only [Function.update_self, Function.update_idem, hv, Nat.mod_eq_of_lt he] using h

theorem beside_update (w : VectorWorld V) (v : ℕ) (x : SharedMemoryVector) :
    Beside v w { w with vec := Function.update w.vec v x } :=
  ⟨fun _ hu => Function.update_of_ne hu _ _, rfl⟩

/-! `pop_back` and what is built from it. -/

/-- What holds of a vector that owns the storage `[p, p+cap)` with the elements `ys`. -/
structure Holding (T : ElementType V) (w : VectorWorld V) (v p cap : ℕ) (ys : List (ℕ × V)) (rest : List (Region V)) : Prop where
  stores : w.Stores T (⟨p, cap*T.sizeofT, ys⟩ :: rest)
  vec_eq : w.vec v = ⟨p, p+ys.length*T.sizeofT, p+cap*T.sizeofT⟩
  cap_pos : 0 < cap

namespace Holding
variable {cap : ℕ}

theorem ne_zero (h : Holding T w v p cap ys rest) : p ≠ 0 := (h.stores.bounds List.mem_cons_self).1.ne'

theorem length_le (h : Holding T w v p cap ys rest) : ys.length ≤ cap :=
  Nat.le_of_mul_le_mul_right (h.stores.whole _ List.mem_cons_self) T.sizeof_pos

theorem owns (h : Holding T w v p cap ys rest) : Owns T (w.vec v) [⟨p, cap*T.sizeofT, ys⟩] ys := by
  rw [h.vec_eq]
  exact .storage h.ne_zero h.cap_pos h.length_le

theorem size_eq (h : Holding T w v p cap ys rest) : size T (w.vec v) = ys.length := by
  rw [h.vec_eq, size_storage h.ne_zero]

theorem capacity_eq (h : Holding T w v p cap ys rest) : capacity T (w.vec v) = cap := by
  rw [h.vec_eq, capacity_storage h.ne_zero]

end Holding

variable {cap : ℕ}

theorem ends_popBack {y : ℕ × V} (h : Holding T w v p cap (ys ++ [y]) rest) :
    (popBack T v).Ends w (fun _ w' => Holding T w' v p cap ys rest ∧ Beside v w w') E := by
  have hlen : (ys ++ [y]).length = ys.length+1 := by simp
  have hsize := h.size_eq
  have hfinish : (w.vec v).finish-T.sizeofT = p+ys.length*T.sizeofT := by
    rw [h.vec_eq, hlen, Nat.succ_mul]
    dsimp only
    omega
  have hcell : (⟨p, cap*T.sizeofT, ys ++ [y]⟩ : Region V).cells[ys.length]? = some y := by
    rw [getElem?_push, if_pos rfl]
  have hslot := slot_of_cell h.stores List.mem_cons_self hcell
  unfold popBack
  apply ends_get_bind
  rw [if_neg (by omega), hfinish]
  have hdestroy : ∀ u : VectorWorld V, u.objects = w.objects → (destroyAt (p+ys.length*T.sizeofT)).Ends u
      (fun _ w' => w' = { u with objects := u.objects.remove (p+ys.length*T.sizeofT) }) E :=
    fun u hu => ends_destroyAt (hu ▸ hslot)
  apply ends_store_bind
  refine Ends.mono (hdestroy _ rfl) (fun _ w' hw => ?_) fun _ _ he => he
  subst hw
  refine ⟨⟨h.stores.pop T.sizeof_pos rfl, ?_, h.cap_pos⟩, fun _ hu => Function.update_of_ne hu _ _, rfl⟩
  change Function.update w.vec v _ v = _
  rw [Function.update_self, h.vec_eq]

theorem ends_popWhile {fuel : ℕ} (h : Holding T w v p cap ys rest) (hn : n ≤ ys.length) (hfuel : ys.length ≤ fuel+n) :
    (popWhile T v n fuel).Ends w (fun _ w' => Holding T w' v p cap (ys.take n) rest ∧ Beside v w w') E := by
  have hstop : n = ys.length → Holding T w v p cap (ys.take n) rest ∧ Beside v w w := by
    rintro rfl
    rw [List.take_length]
    exact ⟨h, .refl v w⟩
  induction fuel generalizing w ys with
  | zero =>
    unfold popWhile
    apply ends_get_bind
    rw [h.size_eq, if_neg (by omega)]
    exact ends_pure (hstop (by omega))
  | succ fuel ih =>
    unfold popWhile
    apply ends_get_bind
    rw [h.size_eq]
    by_cases hlt : n < ys.length
    · rw [if_pos hlt]
      obtain ⟨zs, y, rfl⟩ := (List.eq_nil_or_concat ys).resolve_left (by rintro rfl; exact absurd hlt (Nat.not_lt_zero _))
      rw [List.concat_eq_append] at *
      rw [List.length_append, List.length_singleton] at hlt hfuel
      refine (ends_popBack h).bind fun _ w' hw => ?_
      obtain ⟨hw', hb⟩ := hw
      have htake : (zs ++ [y]).take n = zs.take n := List.take_append_of_le_length (by omega)
      rw [htake]
      refine (ih hw' (by omega) (by omega) fun hz => ?_).mono (fun _ t ht => ⟨ht.1, hb.trans ht.2⟩) fun _ _ he => he
      rw [hz, List.take_length]
      exact ⟨hw', .refl v w'⟩
    · rw [if_neg hlt]
      exact ends_pure (hstop (by omega))

theorem ends_clear (h : Holding T w v p cap ys rest) :
    (clear T v).Ends w (fun _ w' => Holding T w' v p cap [] rest ∧ Beside v w w') E := by
  unfold clear
  apply ends_get_bind
  exact ends_popWhile h (Nat.zero_le _) (by rw [h.size_eq]; omega)

/-- `release_storage`: the vector is null, and its storage has gone back to the segment. -/
theorem ends_releaseStorage (h : w.Stores T (own ++ rest)) (ho : Owns T (w.vec v) own ys) :
    (releaseStorage T v).Ends w (fun _ w' => w'.Stores T rest ∧ w'.vec v = .null ∧ Beside v w w') E := by
  unfold releaseStorage
  apply ends_get_bind
  generalize hx : w.vec v = x at ho
  cases ho with
  | null =>
    rw [if_neg (show ¬ SharedMemoryVector.null.start ≠ 0 from fun hne => hne rfl)]
    exact ends_pure ⟨h, hx, .refl v w⟩
  | @storage p cap _ hp hcap hle =>
    rw [if_pos hp]
    have hold : Holding T w v p cap ys rest := ⟨h, hx, hcap⟩
    refine (ends_clear hold).bind fun _ w₁ hw₁ => ?_
    obtain ⟨h₁, hb₁⟩ := hw₁
    apply ends_get_bind
    rw [h₁.vec_eq]
    refine (ends_deallocate h₁.stores rfl).bind fun _ w₂ hw₂ => ?_
    obtain ⟨h₂, hs₂⟩ := hw₂
    apply ends_setNull
    refine ⟨h₂, Function.update_self .., hb₁.trans ((beside_of_same hs₂ v).trans (beside_update _ _ _))⟩

/-! Moving and copying elements into new storage. -/

theorem ends_constructMoved {y : ℕ × V} (h : w.Stores T (new :: old :: rs))
    (hroom : (new.cells.length+1)*T.sizeofT ≤ new.bytes) (hy : old.cells[i]? = some y) :
    (constructMoved T (new.base+new.cells.length*T.sizeofT) (old.base+i*T.sizeofT)).Ends w
      (fun _ w' => (SameVecs w w' ∧ w'.objects.calls = w.objects.calls+1 ∧
          ¬(T.nothrowMove = false ∧ T.throws w.objects.calls = true)) ∧
        ∃ id, w'.Stores T ({ new with cells := new.cells ++ [(id, y.2)] } ::
          { old with cells := if T.nothrowMove then old.cells.set i (y.1, T.movedFrom y.2) else old.cells } :: rs))
      fun _ w' => w'.Stores T (new :: old :: rs) ∧ SameVecs w w' ∧
        T.nothrowMove = false ∧ T.throws w.objects.calls = true := by
  have hslot := slot_of_cell h (by simp) hy
  unfold constructMoved
  refine (ends_elementAt hslot).bind fun x w' hx => ?_
  obtain ⟨rfl, rfl⟩ := hx
  refine (ends_push h hroom).bind fun _ w₁ hw₁ => ?_
  obtain ⟨h₁, hs₁, hcalls, hno⟩ := hw₁
  by_cases hmove : T.nothrowMove = true
  · rw [if_pos hmove, if_pos hmove]
    have hswap := h₁.perm (List.Perm.swap _ _ _)
    refine (ends_assignAt (slot_of_cell hswap List.mem_cons_self hy)).mono (fun _ w₂ hw₂ => ?_) fun _ _ he => he
    subst hw₂
    have h₂ := (hswap.assign T.sizeof_pos hy (T.movedFrom y.2)).perm (List.Perm.swap _ _ _)
    exact ⟨⟨⟨hs₁.vec_eq, hs₁.names_eq⟩, hcalls, hno⟩, _, h₂⟩
  · rw [if_neg hmove, if_neg hmove]
    exact ends_pure ⟨⟨hs₁, hcalls, hno⟩, _, h₁⟩

/-- One of the first `k` constructor calls of a move that may throw does. -/
def MovesThrow (T : ElementType V) (w : VectorWorld V) (k : ℕ) : Prop :=
  T.nothrowMove = false ∧ ∃ j < k, T.throws (w.objects.calls+j) = true

/-- The loop of `reallocate`: the new storage gets the values, in order; a throw gives it up. -/
theorem ends_moveLoop (h : w.Stores T (⟨n, i, []⟩ :: old :: rs)) (hroom : old.cells.length*T.sizeofT ≤ i) :
    (Prog.tryLoop (fun j => constructMoved T (n+j*T.sizeofT) (old.base+j*T.sizeofT))
      (fun j => do
        destroyRange T n 0 j
        deallocate T n) 0 old.cells.length).Ends w
      (fun _ w' => (SameVecs w w' ∧ ¬MovesThrow T w old.cells.length) ∧
        ∃ zs ys, w'.Stores T (⟨n, i, zs⟩ :: { old with cells := ys } :: rs) ∧
          zs.map Prod.snd = old.cells.map Prod.snd ∧ ys.length = old.cells.length)
      fun _ w' => w'.Stores T (old :: rs) ∧ SameVecs w w' ∧ MovesThrow T w old.cells.length := by
  -- before step `j` the first `j` elements are there, and from `j` on the old storage is as it was;
  -- where elements are copied (`move_if_noexcept`) all of the old storage is, which is what the handler needs
  have hloop := @ends_tryLoop (VectorWorld V) VectorThrown w
    (fun j => constructMoved T (n+j*T.sizeofT) (old.base+j*T.sizeofT))
    (fun j => do
      destroyRange T n 0 j
      deallocate T n)
    (fun j w' => (SameVecs w w' ∧ w'.objects.calls = w.objects.calls+j ∧ ¬MovesThrow T w j) ∧
      ∃ zs ys, w'.Stores T (⟨n, i, zs⟩ :: { old with cells := ys } :: rs) ∧
        zs.map Prod.snd = (old.cells.map Prod.snd).take j ∧ zs.length = j ∧ ys.length = old.cells.length ∧
        (∀ k, j ≤ k → ys[k]? = old.cells[k]?) ∧ (T.nothrowMove = false → ys = old.cells))
    (fun j w' => (SameVecs w w' ∧ MovesThrow T w old.cells.length) ∧
      ∃ zs, w'.Stores T (⟨n, i, zs⟩ :: old :: rs) ∧ zs.length = j)
    (fun _ w' => w'.Stores T (old :: rs) ∧ SameVecs w w' ∧ MovesThrow T w old.cells.length) 0 old.cells.length ?_ ?_ ?_
  · refine hloop.mono (fun _ w' hw' => ?_) fun _ _ he => he
    obtain ⟨⟨hs, -, hno⟩, zs, ys, hst, hzs, -, hys, -⟩ := hw'
    rw [Nat.zero_add, List.take_of_length_le (by rw [List.length_map])] at hzs
    rw [Nat.zero_add] at hno
    exact ⟨⟨hs, hno⟩, zs, ys, hst, hzs, hys⟩
  · rintro j w' - hj ⟨⟨hs, hcalls, hno⟩, zs, ys, hst, hzs, hlen, hys, hrest, hcopy⟩
    rw [Nat.zero_add] at hj
    have hy : ys[j]? = some old.cells[j] := (hrest j le_rfl).trans (List.getElem?_eq_getElem hj)
    have hfit : (zs.length+1)*T.sizeofT ≤ i := (Nat.mul_le_mul_right _ (by omega)).trans hroom
    have hstep := ends_constructMoved hst hfit hy
    dsimp only at hstep
    rw [hlen, hcalls] at hstep
    refine hstep.mono (fun _ t ht => ?_) fun _ t ht => ?_
    · obtain ⟨⟨hs', hcalls', hno'⟩, id, hst'⟩ := ht
      refine ⟨⟨hs.trans hs', hcalls', ?_⟩, _, _, hst', ?_, by simp [hlen], ?_, fun k hk => ?_, fun hmove => ?_⟩
      · rintro ⟨hmove, k, hk, hthrow⟩
        rcases Nat.lt_succ_iff_lt_or_eq.mp hk with hlt | rfl
        · exact hno ⟨hmove, k, hlt, hthrow⟩
        · exact hno' ⟨hmove, hthrow⟩
      · rw [List.map_append, hzs, List.take_add_one, List.getElem?_map, List.getElem?_eq_getElem hj]
        rfl
      · split
        · rw [List.length_set, hys]
        · exact hys
      · split
        · rw [List.getElem?_set_ne (by omega)]
          exact hrest k (by omega)
        · exact hrest k (by omega)
      · rw [if_neg (by simp [hmove])]
        exact hcopy hmove
    · obtain ⟨hst', hs', hmove, hthrow⟩ := ht
      rw [hcopy hmove] at hst'
      exact ⟨⟨hs.trans hs', hmove, j, hj, hthrow⟩, zs, hst', hlen⟩
  · -- the handler takes back what is constructed and returns the new block
    rintro j w' e - - ⟨⟨hs, hthrow⟩, zs, hst, hlen⟩
    exact (ends_giveUp hst hlen).mono (fun _ t ht => ⟨ht.1, hs.trans ht.2, hthrow⟩) fun _ _ he => he
  · refine ⟨⟨.refl w, rfl, ?_⟩, [], old.cells, h, by simp, rfl, rfl, fun _ _ => rfl, fun _ => rfl⟩
    rintro ⟨-, k, hk, -⟩
    exact Nat.not_lt_zero k hk

/-! Growth. -/

/-- The elements of `v` go to other storage: that of `v` cannot be expanded, a block is found, and no element throws on the way. -/
def Relocates (T : ElementType V) (w : VectorWorld V) (v n : ℕ) : Prop :=
  ¬ExpandsStorage T w (w.vec v).start n ∧ FindsStorage T w n ∧ ¬MovesThrow T w (size T (w.vec v))

instance (T : ElementType V) (w : VectorWorld V) (v n : ℕ) : Decidable (Relocates T w v n) :=
  inferInstanceAs (Decidable (¬ (_ ∧ ∃ A ∈ normalizeAlignment _, CanExpand _ _ _ _ A) ∧
    (_ ∧ ∃ A ∈ normalizeAlignment _, ∃ r ∈ scanChain _ _ _ _ _, Prod.snd r ≠ 0) ∧ ¬ (_ ∧ ∃ j < _, T.throws _ = true)))

/-- Nothing is alive in storage that has been given back. -/
theorem slot_none_of_apart (h : w.Stores T rs) (hi : i < n)
    (hapart : ∀ r ∈ rs, p+n*T.sizeofT ≤ r.base ∨ r.base+r.bytes ≤ p) : w.objects.slot (p+i*T.sizeofT) = none := by
  by_contra hcon
  obtain ⟨y, hy⟩ := Option.ne_none_iff_exists'.mp hcon
  obtain ⟨r, hr, h1, h2⟩ := h.outside _ y hy
  have hlt := Nat.mul_lt_mul_of_pos_right hi T.sizeof_pos
  have := hapart r hr
  omega

/-- The way out of `reallocate` when the storage cannot be expanded. -/
theorem ends_move (h : Holding T w v p cap ys rest) (hn : cap < n)
    (hfits : n ≤ (2^64-1)/T.sizeofT → AllocateFits w.heap.alloc (n*T.sizeofT) T.alignofT) :
    (do
      let newData ← allocate T n
      Prog.tryLoop (fun i => constructMoved T (newData+i*T.sizeofT) (p+i*T.sizeofT))
        (fun i => do
          destroyRange T newData 0 i
          deallocate T newData) 0 ys.length
      destroyRange T p 0 ys.length
      if p ≠ 0 then deallocate T p else pure ()
      setStart v newData
      setFinish v (newData+ys.length*T.sizeofT)
      setEndOfStorage v (newData+n*T.sizeofT)).Ends w
      (fun _ w' => (∃ q zs, Holding T w' v q n zs rest ∧ zs.map Prod.snd = ys.map Prod.snd ∧ Beside v w w') ∧
        (FindsStorage T w n ∧ ¬MovesThrow T w ys.length) ∧ ∀ i < ys.length, w'.objects.slot (p+i*T.sizeofT) = none)
      fun _ w' => Holding T w' v p cap ys rest ∧ Beside v w w' ∧ ¬(FindsStorage T w n ∧ ¬MovesThrow T w ys.length) := by
  have hlen := h.length_le
  have hback : ∀ w', w'.Stores T (⟨p, cap*T.sizeofT, ys⟩ :: rest) → SameVecs w w' →
      ¬(FindsStorage T w n ∧ ¬MovesThrow T w ys.length) →
      Holding T w' v p cap ys rest ∧ Beside v w w' ∧ ¬(FindsStorage T w n ∧ ¬MovesThrow T w ys.length) := by
    intro w' hst hs hno
    refine ⟨⟨hst, ?_, h.cap_pos⟩, beside_of_same hs v, hno⟩
    rw [hs.vec_eq, h.vec_eq]
  refine ((ends_allocate h.stores (by omega) hfits).mono (fun _ _ hq => hq)
    fun _ w' he => hback w' he.1 he.2.1 fun hmoves => he.2.2 hmoves.1).bind ?_
  rintro q w₁ ⟨-, h₁, hs₁, hcalls, hfinds⟩
  have hroom : ys.length*T.sizeofT ≤ n*T.sizeofT := Nat.mul_le_mul_right _ (by omega)
  have hthrow : MovesThrow T w₁ ys.length ↔ MovesThrow T w ys.length := by
    unfold MovesThrow
    rw [hcalls]
  refine ((ends_moveLoop h₁ hroom).mono (fun _ _ hq => hq)
    fun _ w' he => hback w' he.1 (hs₁.trans he.2.1) fun hmoves => hmoves.2 (hthrow.mp he.2.2)).bind ?_
  rintro _ w₂ ⟨⟨hs₂, hno⟩, zs, ys', h₂, hzs, hys'⟩
  have hzlen : zs.length = ys.length := by
    have := congrArg List.length hzs
    simpa using this
  have hdestroy := ends_destroyAll (h₂.perm (List.Perm.swap _ _ _))
    (E := fun _ w' => Holding T w' v p cap ys rest ∧ Beside v w w' ∧ ¬(FindsStorage T w n ∧ ¬MovesThrow T w ys.length))
  dsimp only at hdestroy hys'
  rw [hys'] at hdestroy
  refine hdestroy.bind ?_
  rintro _ w₃ ⟨h₃, hs₃⟩
  rw [if_pos h.ne_zero]
  refine (ends_deallocate h₃ rfl).bind ?_
  rintro _ w₄ ⟨h₄, hs₄⟩
  apply ends_setAll (h₄.end_lt List.mem_cons_self)
  refine ⟨⟨q, zs, ⟨h₄, ?_, by omega⟩, hzs, ?_⟩, ⟨hfinds, fun hmove => hno (hthrow.mpr hmove)⟩, fun i hi => ?_⟩
  · rw [hzlen]
    exact Function.update_self ..
  · exact (beside_of_same (hs₁.trans (hs₂.trans (hs₃.trans hs₄))) v).trans (beside_update _ _ _)
  · -- the old storage was apart from what is left while it was there
    refine slot_none_of_apart h₄ hi fun r hr => ?_
    have hne : r.base ≠ p := by
      intro heq
      have hmem := List.mem_map_of_mem (f := Region.base) hr
      rw [heq] at hmem
      exact (List.nodup_cons.mp h₃.distinct).1 hmem
    have hapart := h₃.apart List.mem_cons_self (List.mem_cons_of_mem _ hr) hne
    have hwhole := Nat.mul_le_mul_right T.sizeofT hlen
    dsimp only at hapart
    omega

/-- `reallocate` for a vector with storage: it is expanded, or its elements go elsewhere. -/
theorem ends_reallocate_storage (h : Holding T w v p cap ys rest) (hn : cap < n) (hfits : CapacityFits T w p n) :
    (reallocate T v n).Ends w
      (fun _ w' => (∃ q zs, Holding T w' v q n zs rest ∧ zs.map Prod.snd = ys.map Prod.snd ∧ Beside v w w') ∧
        if Relocates T w v n then ∀ i < ys.length, w'.objects.slot (p+i*T.sizeofT) = none else Holding T w' v p n ys rest)
      fun _ w' => Holding T w' v p cap ys rest ∧ Beside v w w' ∧ ¬Relocates T w v n := by
  unfold reallocate
  apply ends_get_bind
  have hstart : (w.vec v).start = p := by rw [h.vec_eq]
  have hrelocates : Relocates T w v n ↔ ¬ExpandsStorage T w p n ∧ FindsStorage T w n ∧ ¬MovesThrow T w ys.length := by
    unfold Relocates
    rw [hstart, h.size_eq]
  dsimp only
  rw [h.capacity_eq, h.size_eq, hstart, if_pos ⟨h.ne_zero, hn⟩]
  have hgrow : cap*T.sizeofT ≤ n*T.sizeofT := Nat.mul_le_mul_right _ hn.le
  -- `try_expand` is asked first: where it accepts, the elements stay where they are
  refine (ends_tryExpand h.stores (by omega) hgrow fun hmax => (hfits hmax).2 h.ne_zero).bind ?_
  rintro b w₁ ⟨⟨hs₁, hcalls, hexp⟩, h₁⟩
  have hv₁ : w₁.vec v = ⟨p, p+ys.length*T.sizeofT, p+cap*T.sizeofT⟩ := by rw [hs₁.vec_eq, h.vec_eq]
  cases b with
  | true =>
    rw [if_pos rfl] at h₁ ⊢
    apply ends_setBack hv₁ (h₁.end_lt List.mem_cons_self)
    have hw' : Holding T { w₁ with vec := Function.update w₁.vec v ⟨p, p+ys.length*T.sizeofT, p+n*T.sizeofT⟩ } v p n ys rest :=
      ⟨h₁, Function.update_self .., by omega⟩
    rw [if_neg fun hrel => (hrelocates.mp hrel).1 (hexp.mp rfl)]
    exact ⟨⟨p, ys, hw', rfl, (beside_of_same hs₁ v).trans (beside_update _ _ _)⟩, hw'⟩
  | false =>
    rw [if_neg Bool.false_ne_true] at h₁ ⊢
    obtain ⟨h₁, k, hk⟩ := h₁
    -- a refusal only counts, so that what decides the move has not changed
    have hno : ¬ExpandsStorage T w p n := fun hcan => Bool.false_ne_true (hexp.mpr hcan)
    have hmoves : FindsStorage T w₁ n ∧ ¬MovesThrow T w₁ ys.length ↔ FindsStorage T w n ∧ ¬MovesThrow T w ys.length := by
      unfold FindsStorage MovesThrow FindsBlock
      rw [hcalls, hk]
      exact Iff.rfl
    have hfits' : n ≤ (2^64-1)/T.sizeofT → AllocateFits w₁.heap.alloc (n*T.sizeofT) T.alignofT := by
      rw [hk]
      exact fun hmax => (hfits hmax).1
    refine (ends_move ⟨h₁, hv₁, h.cap_pos⟩ hn hfits').mono ?_ ?_
    · rintro _ w' ⟨⟨q, zs, hw', hzs, hb⟩, hmove, hgone⟩
      rw [if_pos (hrelocates.mpr ⟨hno, hmoves.mp hmove⟩)]
      exact ⟨⟨q, zs, hw', hzs, (beside_of_same hs₁ v).trans hb⟩, hgone⟩
    · rintro _ w' ⟨hw', hb, hmove⟩
      exact ⟨hw', (beside_of_same hs₁ v).trans hb, fun hrel => hmove (hmoves.mpr (hrelocates.mp hrel).2)⟩

theorem ends_reallocate (h : w.Stores T (own ++ rest)) (ho : Owns T (w.vec v) own ys) (hn : capacity T (w.vec v) < n)
    (hfits : CapacityFits T w (w.vec v).start n) :
    (reallocate T v n).Ends w
      (fun _ w' => ∃ q zs, Holding T w' v q n zs rest ∧ zs.map Prod.snd = ys.map Prod.snd ∧ Beside v w w')
      fun _ w' => w'.Stores T (own ++ rest) ∧ Owns T (w'.vec v) own ys ∧ Beside v w w' := by
  generalize hx : w.vec v = x at ho hn hfits
  cases ho with
  | null =>
    unfold reallocate
    apply ends_get_bind
    dsimp only
    have hcond : ¬(SharedMemoryVector.null.start ≠ 0 ∧ capacity T .null < n) := fun hcon => hcon.1 rfl
    rw [hx, if_neg hcond, size_null]
    -- there is nothing to move, and nothing to give back
    apply ends_pure_bind
    rw [if_neg Bool.false_ne_true]
    have hkeep : ∀ w', w'.Stores T rest → SameVecs w w' → w'.Stores T ([] ++ rest) ∧ Owns T (w'.vec v) [] [] ∧ Beside v w w' := by
      intro w' hst hs
      refine ⟨hst, ?_, beside_of_same hs v⟩
      rw [hs.vec_eq, hx]
      exact .null
    have hpos : 0 < n := by
      rw [capacity_null] at hn
      exact hn
    refine ((ends_allocate h hpos fun hmax => (hfits hmax).1).mono (fun _ _ hq => hq)
      fun _ w' he => hkeep w' he.1 he.2.1).bind ?_
    rintro q w₁ ⟨-, h₁, hs₁, -⟩
    apply ends_pure_bind
    apply ends_pure_bind
    rw [if_neg (show ¬ SharedMemoryVector.null.start ≠ 0 from fun hne => hne rfl)]
    apply ends_pure_bind
    apply ends_setAll (h₁.end_lt List.mem_cons_self)
    refine ⟨q, [], ⟨h₁, ?_, hpos⟩, rfl, (beside_of_same hs₁ v).trans (beside_update _ _ _)⟩
    exact Function.update_self ..
  | @storage p cap _ hp hcap hle =>
    have hold : Holding T w v p cap ys rest := ⟨h, hx, hcap⟩
    rw [capacity_storage hp] at hn
    refine (ends_reallocate_storage hold hn hfits).mono ?_ ?_
    · exact fun _ w' hw' => hw'.1
    · exact fun _ w' hw' => ⟨hw'.1.stores, hw'.1.owns, hw'.2.1⟩

/-- The vector `v` holds the values `xs`, in storage apart from `rest`. -/
def Contains (T : ElementType V) (w : VectorWorld V) (v : ℕ) (rest : List (Region V)) (xs : List V) : Prop :=
  ∃ own ys, w.Stores T (own ++ rest) ∧ Owns T (w.vec v) own ys ∧ ys.map Prod.snd = xs

theorem Holding.contains (h : Holding T w v p cap ys rest) : Contains T w v rest (ys.map Prod.snd) :=
  ⟨_, ys, h.stores, h.owns, rfl⟩

theorem Contains.cases (h : Contains T w v rest xs) :
    (w.vec v = .null ∧ w.Stores T rest ∧ xs = []) ∨ ∃ p cap ys, Holding T w v p cap ys rest ∧ ys.map Prod.snd = xs := by
  obtain ⟨own, ys, hst, ho, rfl⟩ := h
  generalize hx : w.vec v = x at ho
  cases ho with
  | null => exact Or.inl ⟨rfl, hst, rfl⟩
  | @storage p cap _ hp hcap hle => exact Or.inr ⟨p, cap, ys, ⟨hst, hx, hcap⟩, rfl⟩

theorem contains_null (hv : w.vec v = .null) (h : w.Stores T rest) : Contains T w v rest [] :=
  ⟨[], [], h, hv ▸ .null, rfl⟩

/-- `reallocate` for more than the capacity gives room and keeps the values. -/
theorem ends_grow (h : Contains T w v rest xs) (hn : capacity T (w.vec v) < n) (hfits : CapacityFits T w (w.vec v).start n) :
    (reallocate T v n).Ends w (fun _ w' => ∃ q zs, Holding T w' v q n zs rest ∧ zs.map Prod.snd = xs ∧ Beside v w w')
      fun _ w' => Contains T w' v rest xs ∧ Beside v w w' := by
  obtain ⟨own, ys, hst, ho, rfl⟩ := h
  exact (ends_reallocate hst ho hn hfits).mono (fun _ _ hq => hq) fun _ w' ⟨h1, h2, h3⟩ => ⟨⟨own, ys, h1, h2, rfl⟩, h3⟩

theorem ends_reserve (h : Contains T w v rest xs)
    (hfits : capacity T (w.vec v) < n → CapacityFits T w (w.vec v).start n) :
    (reserve T v n).Ends w (fun _ w' => Contains T w' v rest xs ∧ Beside v w w')
      fun _ w' => Contains T w' v rest xs ∧ Beside v w w' := by
  unfold reserve
  apply ends_get_bind
  by_cases hn : capacity T (w.vec v) < n
  · rw [if_pos hn]
    refine (ends_grow h hn (hfits hn)).mono ?_ fun _ _ he => he
    rintro _ w' ⟨q, zs, hw', rfl, hb⟩
    exact ⟨hw'.contains, hb⟩
  · rw [if_neg hn]
    exact ends_pure ⟨h, .refl v w⟩

/-- The capacity that `push_back` asks for. -/
def pushCapacity (T : ElementType V) (x : SharedMemoryVector) : ℕ :=
  if capacity T x = 0 then 1 else capacity T x*2%2^64

theorem Contains.capacity_lt (h : Contains T w v rest xs) : capacity T (w.vec v) < pushCapacity T (w.vec v) := by
  unfold pushCapacity
  rcases h.cases with ⟨hv, -, -⟩ | ⟨p, cap, ys, hw, -⟩
  · rw [hv, capacity_null]
    exact Nat.one_pos
  · rw [hw.capacity_eq, if_neg hw.cap_pos.ne']
    have hb := hw.stores.bounds List.mem_cons_self
    have hle : cap ≤ cap*T.sizeofT := Nat.le_mul_of_pos_right _ T.sizeof_pos
    have hpos := hw.cap_pos
    dsimp only at hb
    omega

/-- The new element behind the last, where there is room; `value` reads `x`. -/
theorem ends_constructBack {value : VectorOp V V} (h : Holding T w v p cap ys rest) (hroom : ys.length < cap)
    (hvalue : value.Ends w (fun y w' => y = x ∧ w' = w) fun _ _ => False) :
    (do
      let w ← Prog.get
      let x ← value
      constructAt T false (w.vec v).finish x
      setFinish v ((w.vec v).finish+T.sizeofT)).Ends w
      (fun _ w' => Contains T w' v rest (ys.map Prod.snd ++ [x]) ∧ Beside v w w')
      fun _ w' => Contains T w' v rest (ys.map Prod.snd) ∧ Beside v w w' := by
  apply ends_get_bind
  refine (hvalue.mono (fun _ _ hq => hq) fun _ _ he => he.elim).bind ?_
  rintro y t ⟨hy, ht⟩
  subst hy ht
  have hfit : (ys.length+1)*T.sizeofT ≤ cap*T.sizeofT := Nat.mul_le_mul_right _ hroom
  rw [h.vec_eq]
  refine ((ends_push h.stores hfit).mono (fun _ _ hq => hq) ?_).bind ?_
  · rintro _ w' ⟨hst, hs, -⟩
    have hv : w'.vec v = ⟨p, p+ys.length*T.sizeofT, p+cap*T.sizeofT⟩ := by rw [hs.vec_eq, h.vec_eq]
    exact ⟨Holding.contains ⟨hst, hv, h.cap_pos⟩, beside_of_same hs v⟩
  · rintro _ w' ⟨hst, hs, -⟩
    apply ends_modify
    have hw' : Holding T { w' with vec := Function.update w'.vec v ⟨p, p+ys.length*T.sizeofT+T.sizeofT, p+cap*T.sizeofT⟩ }
        v p cap (ys ++ [(t.objects.made, y)]) rest := by
      refine ⟨hst, ?_, h.cap_pos⟩
      rw [List.length_append, List.length_singleton, Nat.succ_mul, ← Nat.add_assoc]
      exact Function.update_self ..
    have hv : w'.vec v = ⟨p, p+ys.length*T.sizeofT, p+cap*T.sizeofT⟩ := by rw [hs.vec_eq, h.vec_eq]
    rw [hv]
    refine ⟨?_, (beside_of_same hs v).trans (beside_update _ _ _)⟩
    have hcon := hw'.contains
    rwa [List.map_append] at hcon

theorem ends_pushBack (h : Contains T w v rest xs)
    (hfits : (w.vec v).finish = (w.vec v).endOfStorage → CapacityFits T w (w.vec v).start (pushCapacity T (w.vec v))) :
    (pushBack T v x).Ends w (fun _ w' => Contains T w' v rest (xs ++ [x]) ∧ Beside v w w')
      fun _ w' => Contains T w' v rest xs ∧ Beside v w w' := by
  unfold pushBack pushBackOf
  apply ends_get_bind
  by_cases hfull : (w.vec v).finish = (w.vec v).endOfStorage
  · rw [if_pos hfull]
    have hlt := h.capacity_lt
    have hlen : xs.length ≤ capacity T (w.vec v) := by
      rcases h.cases with ⟨-, -, rfl⟩ | ⟨p, cap, ys, hw, rfl⟩
      · exact Nat.zero_le _
      · rw [hw.capacity_eq, List.length_map]
        exact hw.length_le
    refine (ends_grow h hlt (hfits hfull)).bind ?_
    rintro _ w₁ ⟨q, zs, h₁, rfl, hb₁⟩
    rw [List.length_map] at hlen
    refine (ends_constructBack h₁ (by omega) (ends_pure ⟨rfl, rfl⟩)).mono ?_ ?_
    · exact fun _ w' hw' => ⟨hw'.1, hb₁.trans hw'.2⟩
    · exact fun _ w' hw' => ⟨hw'.1, hb₁.trans hw'.2⟩
  · rw [if_neg hfull]
    rcases h.cases with ⟨hv, -, -⟩ | ⟨p, cap, ys, hw, rfl⟩
    · exact absurd (by rw [hv]; rfl) hfull
    · apply ends_pure_bind
      refine ends_constructBack hw (Nat.lt_of_le_of_ne hw.length_le ?_) (ends_pure ⟨rfl, rfl⟩)
      rintro rfl
      exact hfull (by rw [hw.vec_eq])

/-! Fewer elements. -/

theorem ends_popBack_contains (h : Contains T w v rest xs) :
    (popBack T v).Ends w (fun _ w' => Contains T w' v rest xs.dropLast ∧ Beside v w w') E := by
  rcases h.cases with ⟨hv, hst, rfl⟩ | ⟨p, cap, ys, hw, rfl⟩
  · unfold popBack
    apply ends_get_bind
    rw [hv, if_pos size_null]
    exact ends_pure ⟨contains_null hv hst, .refl v w⟩
  · rcases List.eq_nil_or_concat ys with rfl | ⟨zs, y, rfl⟩
    · unfold popBack
      apply ends_get_bind
      rw [if_pos (show size T (w.vec v) = 0 from hw.size_eq)]
      exact ends_pure ⟨hw.contains, .refl v w⟩
    · rw [List.concat_eq_append] at *
      refine (ends_popBack hw).mono (fun _ w' hw' => ⟨?_, hw'.2⟩) fun _ _ he => he
      rw [List.map_append, List.map_singleton, List.dropLast_concat]
      exact hw'.1.contains

theorem ends_clear_null (hv : w.vec v = .null) : (clear T v).Ends w (fun _ w' => w = w') E := by
  unfold clear
  apply ends_get_bind
  rw [hv, size_null]
  unfold popWhile
  apply ends_get_bind
  rw [hv, size_null, if_neg (lt_irrefl 0)]
  exact ends_pure rfl

theorem ends_clear_contains (h : Contains T w v rest xs) :
    (clear T v).Ends w (fun _ w' => Contains T w' v rest [] ∧ Beside v w w') E := by
  rcases h.cases with ⟨hv, hst, rfl⟩ | ⟨p, cap, ys, hw, rfl⟩
  · refine (ends_clear_null hv).mono ?_ fun _ _ he => he
    rintro _ _ rfl
    exact ⟨h, .refl v w⟩
  · exact (ends_clear hw).mono (fun _ w' hw' => ⟨hw'.1.contains, hw'.2⟩) fun _ _ he => he

theorem ends_destroyTail (h : Holding T w v p cap ys rest) (hn : n ≤ ys.length) :
    (destroyTail T v n).Ends w (fun _ w' => Contains T w' v rest ((ys.map Prod.snd).take n) ∧ Beside v w w') E := by
  unfold destroyTail
  apply ends_get_bind
  refine (ends_popWhile h hn (by rw [h.size_eq]; omega)).mono (fun _ w' hw' => ⟨?_, hw'.2⟩) fun _ _ he => he
  rw [← List.map_take]
  exact hw'.1.contains

/-! More elements. -/

/-- The loop of `construct_fill_tail`; a throw takes back what it has constructed. `value` reads
`x` for as long as the elements there have been are in place. -/
theorem ends_constructTail {value : VectorOp V V} (h : Holding T w v p cap ys rest) (hn : ys.length ≤ n) (hroom : n ≤ cap)
    (hvalue : ∀ t zs, t.Stores T (⟨p, cap*T.sizeofT, zs⟩ :: rest) → zs.take ys.length = ys →
      value.Ends t (fun y t' => y = x ∧ t' = t) fun _ _ => False) :
    (constructTail T v ys.length n value).Ends w
      (fun _ w' => Contains T w' v rest (ys.map Prod.snd ++ List.replicate (n-ys.length) x) ∧ Beside v w w')
      fun _ w' => Contains T w' v rest (ys.map Prod.snd) ∧ Beside v w w' := by
  unfold constructTail
  apply ends_get_bind
  dsimp only
  rw [h.vec_eq]
  dsimp only
  -- the elements there have been are untouched, so that an argument among them may still be read
  have hloop := @ends_tryLoop (VectorWorld V) VectorThrown w
    (fun i => do
      let x ← value
      constructAt T false (p+i*T.sizeofT) x)
    (fun i => do
      destroyRange T (p+ys.length*T.sizeofT) 0 (i-ys.length)
      setFinish v (p+ys.length*T.sizeofT))
    (fun j w' => SameVecs w w' ∧ ∃ zs, w'.Stores T (⟨p, cap*T.sizeofT, zs⟩ :: rest) ∧ zs.length = j ∧
      zs.take ys.length = ys ∧ zs.map Prod.snd = ys.map Prod.snd ++ List.replicate (j-ys.length) x)
    (fun j w' => SameVecs w w' ∧ ∃ zs, w'.Stores T (⟨p, cap*T.sizeofT, zs⟩ :: rest) ∧ zs.length = j ∧
      zs.take ys.length = ys)
    (fun _ w' => Contains T w' v rest (ys.map Prod.snd) ∧ Beside v w w') ys.length (n-ys.length) ?_ ?_ ?_
  · refine hloop.bind ?_
    rintro _ w₁ ⟨hs₁, zs, h₁, hlen, -, hzs⟩
    rw [Nat.add_sub_cancel' hn] at hlen hzs
    apply ends_modify
    have hw₁ : Holding T { w₁ with vec := Function.update w₁.vec v ⟨p, p+n*T.sizeofT, p+cap*T.sizeofT⟩ } v p cap zs rest := by
      refine ⟨h₁, ?_, h.cap_pos⟩
      rw [hlen]
      exact Function.update_self ..
    have hv : w₁.vec v = ⟨p, p+ys.length*T.sizeofT, p+cap*T.sizeofT⟩ := by rw [hs₁.vec_eq, h.vec_eq]
    rw [hv, ← hzs]
    exact ⟨hw₁.contains, (beside_of_same hs₁ v).trans (beside_update _ _ _)⟩
  · rintro j w₁ hj hj' ⟨hs₁, zs, h₁, rfl, htake, hzs⟩
    rw [Nat.add_sub_cancel' hn] at hj'
    have hfit : (zs.length+1)*T.sizeofT ≤ cap*T.sizeofT := Nat.mul_le_mul_right _ (by omega)
    refine ((hvalue w₁ zs h₁ htake).mono (fun _ _ hq => hq) fun _ _ he => he.elim).bind ?_
    rintro _ _ ⟨rfl, rfl⟩
    refine (ends_push h₁ hfit).mono ?_ ?_
    · rintro _ w₂ ⟨h₂, hs₂, -⟩
      refine ⟨hs₁.trans hs₂, _, h₂, by simp, ?_, ?_⟩
      · rw [List.take_append_of_le_length hj, htake]
      · rw [List.map_append, hzs, List.append_assoc, List.map_singleton, ← List.replicate_succ',
          show zs.length-ys.length+1 = zs.length+1-ys.length from by omega]
    · rintro _ w₂ ⟨h₂, hs₂, -⟩
      exact ⟨hs₁.trans hs₂, zs, h₂, rfl, htake⟩
  · rintro j w₁ e hj - ⟨hs₁, zs, h₁, rfl, htake⟩
    refine (ends_destroyFrom h₁ hj).bind ?_
    rintro _ w₂ ⟨h₂, hs₂⟩
    dsimp only at h₂
    rw [htake] at h₂
    apply ends_modify
    have hv : w₂.vec v = ⟨p, p+ys.length*T.sizeofT, p+cap*T.sizeofT⟩ := by rw [hs₂.vec_eq, hs₁.vec_eq, h.vec_eq]
    rw [hv]
    refine ⟨Holding.contains ⟨h₂, Function.update_self .., h.cap_pos⟩, ?_⟩
    exact (beside_of_same (hs₁.trans hs₂) v).trans (beside_update _ _ _)
  · refine ⟨.refl w, ys, h.stores, rfl, List.take_length, ?_⟩
    rw [Nat.sub_self, List.replicate_zero, List.append_nil]

/-- `resize`: the first `n` values, filled up with `x`. -/
def resizedTo (n : ℕ) (x : V) (xs : List V) : List V := xs.take n ++ List.replicate (n-xs.length) x

theorem ends_resizeFill (h : Contains T w v rest xs)
    (hfits : capacity T (w.vec v) < n → CapacityFits T w (w.vec v).start n) :
    (resizeFill T v n x).Ends w (fun _ w' => Contains T w' v rest (resizedTo n x xs) ∧ Beside v w w')
      fun _ w' => Contains T w' v rest xs ∧ Beside v w w' := by
  have hsize : size T (w.vec v) = xs.length := by
    rcases h.cases with ⟨hv, -, rfl⟩ | ⟨p, cap, ys, hw, rfl⟩
    · rw [hv]
      rfl
    · rw [hw.size_eq, List.length_map]
  unfold resizeFill resizeFillOf resizedTo
  apply ends_get_bind
  dsimp only
  rw [hsize]
  rcases Nat.lt_trichotomy n xs.length with hlt | rfl | hgt
  · rw [if_pos hlt, Nat.sub_eq_zero_of_le hlt.le, List.replicate_zero, List.append_nil]
    rcases h.cases with ⟨-, -, rfl⟩ | ⟨p, cap, ys, hw, rfl⟩
    · exact absurd hlt (Nat.not_lt_zero n)
    · exact ends_destroyTail hw (by rw [List.length_map] at hlt; omega)
  · rw [if_neg (lt_irrefl _), if_pos rfl, List.take_length, Nat.sub_self, List.replicate_zero, List.append_nil]
    exact ends_pure ⟨h, .refl v w⟩
  rw [if_neg (by omega), if_neg (by omega), List.take_of_length_le hgt.le]
  by_cases hcap : capacity T (w.vec v) < n
  · rw [if_pos hcap]
    refine (ends_grow h hcap (hfits hcap)).bind ?_
    rintro _ w₁ ⟨q, zs, h₁, rfl, hb₁⟩
    rw [List.length_map] at hgt ⊢
    refine (ends_constructTail h₁ hgt.le le_rfl fun _ _ _ _ => ends_pure ⟨rfl, rfl⟩).mono ?_ ?_
    · exact fun _ w' hw' => ⟨hw'.1, hb₁.trans hw'.2⟩
    · exact fun _ w' hw' => ⟨hw'.1, hb₁.trans hw'.2⟩
  · rw [if_neg hcap]
    apply ends_pure_bind
    rcases h.cases with ⟨hv, -, -⟩ | ⟨p, cap, ys, hw, rfl⟩
    · rw [hv, capacity_null] at hcap
      omega
    · rw [hw.capacity_eq] at hcap
      rw [List.length_map] at hgt ⊢
      exact ends_constructTail hw hgt.le (by omega) fun _ _ _ _ => ends_pure ⟨rfl, rfl⟩

/-! Erasing. -/

/-- One round of the loop: the element at `k+1` moves down, and what is left of it goes with it. -/
theorem eraseIdx_shift {l : List V} {k : ℕ} {a b : V} (ha : l[k+1]? = some a) :
    ((l.set k a).set (k+1) b).eraseIdx (k+1) = l.eraseIdx k := by
  have hlt := (List.getElem?_eq_some_iff.mp ha).1
  apply List.ext_getElem?
  intro j
  simp only [List.getElem?_eraseIdx, List.getElem?_set, List.length_set]
  rcases Nat.lt_trichotomy j k with hj | rfl | hj
  · rw [if_pos (by omega), if_neg (by omega), if_neg (by omega), if_pos hj]
  · rw [if_pos (by omega), if_neg (by omega), if_pos rfl, if_pos (by omega), if_neg (lt_irrefl _), ha]
  · rw [if_neg (by omega), if_neg (by omega), if_neg (by omega), if_neg (by omega)]

theorem ends_moveAssign {y z : ℕ × V} {k : ℕ} (h : w.Stores T (r :: rs)) (hy : r.cells[k]? = some y) (hz : r.cells[k+1]? = some z) :
    (moveAssign T (r.base+k*T.sizeofT) (r.base+k*T.sizeofT+T.sizeofT)).Ends w
      (fun _ w' => SameVecs w w' ∧ w'.Stores T
        ({ r with cells := (r.cells.set k (y.1, z.2)).set (k+1) (z.1, T.movedFrom z.2) } :: rs)) E := by
  have hnext : r.base+k*T.sizeofT+T.sizeofT = r.base+(k+1)*T.sizeofT := by rw [Nat.succ_mul, Nat.add_assoc]
  rw [hnext]
  unfold moveAssign
  refine (ends_elementAt (slot_of_cell h List.mem_cons_self hz)).bind ?_
  rintro _ _ ⟨rfl, rfl⟩
  refine (ends_assignAt (slot_of_cell h List.mem_cons_self hy)).bind ?_
  rintro _ w₁ rfl
  have h₁ := h.assign T.sizeof_pos hy z.2
  have hz₁ : (r.cells.set k (y.1, z.2))[k+1]? = some z := by rw [List.getElem?_set_ne (by omega), hz]
  have hslot : (w.objects.assign (r.base+k*T.sizeofT) z.2).slot (r.base+(k+1)*T.sizeofT) = some z :=
    slot_of_cell (w := { w with objects := w.objects.assign (r.base+k*T.sizeofT) z.2 })
      (r := { r with cells := r.cells.set k (y.1, z.2) }) h₁ List.mem_cons_self hz₁
  refine Ends.mono (ends_assignAt hslot) ?_ fun _ _ he => he
  rintro _ w₂ rfl
  have h₂ := h₁.assign T.sizeof_pos hz₁ (T.movedFrom z.2)
  exact ⟨⟨rfl, rfl⟩, h₂⟩

theorem ends_eraseLoop {fuel k m : ℕ} (h : w.Stores T (⟨p, n, ys⟩ :: rest)) (hm : ys.length = m) (hk : k < m) (hfuel : m ≤ fuel+k+1) :
    (eraseLoop T (p+m*T.sizeofT) fuel (p+k*T.sizeofT)).Ends w
      (fun _ w' => SameVecs w w' ∧ ∃ zs, w'.Stores T (⟨p, n, zs⟩ :: rest) ∧ zs.length = m ∧
        (zs.map Prod.snd).dropLast = (ys.map Prod.snd).eraseIdx k) E := by
  have hnext : ∀ k, p+k*T.sizeofT+T.sizeofT = p+(k+1)*T.sizeofT := fun k => by rw [Nat.succ_mul, Nat.add_assoc]
  have hlast : ∀ k, p+k*T.sizeofT+T.sizeofT = p+m*T.sizeofT ↔ k+1 = m := fun k => by
    rw [hnext]
    exact ⟨fun heq => Nat.eq_of_mul_eq_mul_right T.sizeof_pos (by omega), fun heq => by rw [heq]⟩
  have hdone : ∀ {ys : List (ℕ × V)} {k : ℕ}, ys.length = m → k+1 = m → (ys.map Prod.snd).dropLast = (ys.map Prod.snd).eraseIdx k := by
    intro ys k hm heq
    rw [← List.eraseIdx_length_sub_one, List.length_map, hm, ← heq, Nat.add_sub_cancel]
  induction fuel generalizing w ys k with
  | zero =>
    unfold eraseLoop
    rw [if_pos ((hlast k).mpr (by omega))]
    exact ends_pure ⟨.refl w, ys, h, hm, hdone hm (by omega)⟩
  | succ fuel ih =>
    unfold eraseLoop
    by_cases heq : k+1 = m
    · rw [if_pos ((hlast k).mpr heq)]
      exact ends_pure ⟨.refl w, ys, h, hm, hdone hm heq⟩
    rw [if_neg (fun hcon => heq ((hlast k).mp hcon))]
    have hy : ys[k]? = some ys[k] := List.getElem?_eq_getElem (by omega)
    have hz : ys[k+1]? = some ys[k+1] := List.getElem?_eq_getElem (by omega)
    refine (ends_moveAssign h hy hz).bind ?_
    rintro _ w₁ ⟨hs₁, h₁⟩
    have hlen : ((ys.set k (ys[k].1, ys[k+1].2)).set (k+1) (ys[k+1].1, T.movedFrom ys[k+1].2)).length = m := by
      rw [List.length_set, List.length_set, hm]
    have hvals : (((ys.set k (ys[k].1, ys[k+1].2)).set (k+1) (ys[k+1].1, T.movedFrom ys[k+1].2)).map Prod.snd).eraseIdx (k+1) =
        (ys.map Prod.snd).eraseIdx k := by
      rw [List.map_set, List.map_set]
      exact eraseIdx_shift (by rw [List.getElem?_map, hz]; rfl)
    rw [hnext]
    refine (ih h₁ hlen (by omega) (by omega)).mono ?_ fun _ _ he => he
    rintro _ t ⟨hs, zs, ht, hzs, hval⟩
    exact ⟨hs₁.trans hs, zs, ht, hzs, hval.trans hvals⟩

theorem ends_erase (h : Contains T w v rest xs) (hi : i ≤ xs.length) :
    (erase T v i).Ends w (fun _ w' => Contains T w' v rest (xs.eraseIdx i) ∧ Beside v w w') E := by
  unfold erase
  apply ends_get_bind
  dsimp only
  rcases h.cases with ⟨hv, hst, rfl⟩ | ⟨p, cap, ys, hw, rfl⟩
  · obtain rfl : i = 0 := by simpa using hi
    rw [hv, if_pos (show SharedMemoryVector.null.start+0*T.sizeofT = SharedMemoryVector.null.finish by rw [Nat.zero_mul]; rfl)]
    exact ends_pure ⟨contains_null hv hst, .refl v w⟩
  rw [List.length_map] at hi
  rw [hw.size_eq, hw.vec_eq]
  dsimp only
  by_cases hend : i = ys.length
  · rw [if_pos (by rw [hend]), List.eraseIdx_of_length_le (by rw [List.length_map]; omega)]
    exact ends_pure ⟨hw.contains, .refl v w⟩
  rw [if_neg fun hcon => hend (Nat.eq_of_mul_eq_mul_right T.sizeof_pos (by omega))]
  refine (ends_eraseLoop hw.stores rfl (by omega) (by omega)).bind ?_
  rintro _ w₁ ⟨hs₁, zs, h₁, hlen, hzs⟩
  -- the last element goes as in `pop_back`
  obtain ⟨us, y, rfl⟩ := (List.eq_nil_or_concat zs).resolve_left (by rintro rfl; simp at hlen; omega)
  rw [List.concat_eq_append] at *
  rw [List.map_append, List.map_singleton, List.dropLast_concat] at hzs
  rw [← hlen, List.length_append, List.length_singleton, Nat.succ_mul,
    show p+(us.length*T.sizeofT+T.sizeofT)-T.sizeofT = p+us.length*T.sizeofT from by omega]
  have hcell : (⟨p, cap*T.sizeofT, us ++ [y]⟩ : Region V).cells[us.length]? = some y := by rw [getElem?_push, if_pos rfl]
  have hslot := slot_of_cell h₁ List.mem_cons_self hcell
  have hdestroy : ∀ u : VectorWorld V, u.objects = w₁.objects → (destroyAt (p+us.length*T.sizeofT)).Ends u
      (fun _ w' => w' = { u with objects := u.objects.remove (p+us.length*T.sizeofT) }) E :=
    fun u hu => ends_destroyAt (hu ▸ hslot)
  apply ends_store_bind
  refine Ends.mono (hdestroy _ rfl) (fun _ w' hw' => ?_) fun _ _ he => he
  subst hw'
  have hv : w₁.vec v = ⟨p, p+ys.length*T.sizeofT, p+cap*T.sizeofT⟩ := by rw [hs₁.vec_eq, hw.vec_eq]
  rw [← hzs]
  refine ⟨Holding.contains ⟨h₁.pop T.sizeof_pos rfl, ?_, hw.cap_pos⟩, fun u hu => ?_, hs₁.names_eq⟩
  · change Function.update w₁.vec v _ v = _
    rw [Function.update_self, hv]
  · exact (Function.update_of_ne hu _ _).trans (congrFun hs₁.vec_eq u)

/-! Copies and moves. -/

/-- The vector `other` holds `xs` in storage that is part of `rest`. -/
def Reads (T : ElementType V) (w : VectorWorld V) (other : ℕ) (rest : List (Region V)) (xs : List V) : Prop :=
  ∃ own ys, Owns T (w.vec other) own ys ∧ (∀ r ∈ own, r ∈ rest) ∧ ys.map Prod.snd = xs

theorem Reads.size_eq (h : Reads T w other rest xs) : size T (w.vec other) = xs.length := by
  obtain ⟨own, ys, ho, -, rfl⟩ := h
  rw [ho.size_eq, List.length_map]

/-- Where there is a value to read, it is read from a slot of `rest`. -/
theorem Reads.source (h : Reads T w other rest xs) (hne : xs ≠ []) :
    ∃ src ∈ rest, src.base = (w.vec other).start ∧ src.cells.map Prod.snd = xs := by
  obtain ⟨own, ys, ho, hin, rfl⟩ := h
  generalize w.vec other = x at ho
  cases ho with
  | null => exact absurd rfl hne
  | storage => exact ⟨_, hin _ List.mem_cons_self, rfl, rfl⟩

/-- The copying loops: the elements of `src` are constructed again in the storage at `q`. What a
throw leaves there is up to the handler. -/
theorem ends_copyLoop {q bytes : ℕ} {src : Region V} {handler : ℕ → VectorOp V Unit}
    (h : w.Stores T (⟨q, bytes, []⟩ :: rs)) (hsrc : src ∈ rs) (hroom : src.cells.length*T.sizeofT ≤ bytes)
    (hhandler : ∀ j t zs e, t.Stores T (⟨q, bytes, zs⟩ :: rs) → zs.length = j → SameVecs w t → (handler j).Ends t (fun _ t' => E e t') E) :
    (Prog.tryLoop (fun i => do
      let x ← elementAt (src.base+i*T.sizeofT)
      constructAt T false (q+i*T.sizeofT) x) handler 0 src.cells.length).Ends w
      (fun _ w' => SameVecs w w' ∧ ∃ zs, w'.Stores T (⟨q, bytes, zs⟩ :: rs) ∧ zs.map Prod.snd = src.cells.map Prod.snd) E := by
  have hloop := @ends_tryLoop (VectorWorld V) VectorThrown w
    (fun i => do
      let x ← elementAt (src.base+i*T.sizeofT)
      constructAt T false (q+i*T.sizeofT) x) handler
    (fun j w' => SameVecs w w' ∧ ∃ zs, w'.Stores T (⟨q, bytes, zs⟩ :: rs) ∧ zs.length = j ∧
      zs.map Prod.snd = (src.cells.map Prod.snd).take j)
    (fun j w' => SameVecs w w' ∧ ∃ zs, w'.Stores T (⟨q, bytes, zs⟩ :: rs) ∧ zs.length = j) E 0 src.cells.length ?_ ?_ ?_
  · refine hloop.mono ?_ fun _ _ he => he
    rintro _ w' ⟨hs, zs, hst, hlen, hzs⟩
    rw [Nat.zero_add, List.take_of_length_le (by rw [List.length_map])] at hzs
    exact ⟨hs, zs, hst, hzs⟩
  · rintro j w₁ - hj ⟨hs₁, zs, h₁, rfl, hzs⟩
    rw [Nat.zero_add] at hj
    have hy : src.cells[zs.length]? = some src.cells[zs.length] := List.getElem?_eq_getElem hj
    refine (ends_elementAt (slot_of_cell h₁ (List.mem_cons_of_mem _ hsrc) hy)).bind ?_
    rintro _ _ ⟨rfl, rfl⟩
    have hfit : (zs.length+1)*T.sizeofT ≤ bytes := (Nat.mul_le_mul_right _ hj).trans hroom
    refine (ends_push h₁ hfit).mono ?_ ?_
    · rintro _ w₂ ⟨h₂, hs₂, -⟩
      refine ⟨hs₁.trans hs₂, _, h₂, by simp, ?_⟩
      rw [List.map_append, hzs, List.take_add_one, List.getElem?_map, hy]
      rfl
    · rintro _ w₂ ⟨h₂, hs₂, -⟩
      exact ⟨hs₁.trans hs₂, zs, h₂, rfl⟩
  · rintro j w₁ e - - ⟨hs₁, zs, h₁, hlen⟩
    exact hhandler j w₁ zs e h₁ hlen hs₁
  · exact ⟨.refl w, [], h, rfl, rfl⟩

theorem ends_assignFrom (h : Contains T w v rest xs) {zs : List V} (hr : Reads T w other rest zs)
    (hfits : CapacityFits T w 0 zs.length) :
    (assignFrom T v other).Ends w (fun _ w' => Contains T w' v rest zs ∧ Beside v w w')
      fun _ w' => Contains T w' v rest xs ∧ Beside v w w' := by
  obtain ⟨own, ys, hst, ho, rfl⟩ := h
  unfold assignFrom
  apply ends_get_bind
  dsimp only
  rw [hr.size_eq]
  -- the source is empty: nothing is allocated, and what the vector has is given back
  by_cases hn : zs.length = 0
  · rw [if_pos hn]
    obtain rfl := List.length_eq_zero_iff.mp hn
    refine (ends_releaseStorage hst ho).mono ?_ fun _ _ he => he
    exact fun _ w' ⟨h₁, hv, hb⟩ => ⟨contains_null hv h₁, hb⟩
  rw [if_neg hn]
  -- until the copy is complete the old storage is the one of the vector
  have hback : ∀ w', w'.Stores T (own ++ rest) → SameVecs w w' → Contains T w' v rest (ys.map Prod.snd) ∧ Beside v w w' := by
    intro w' hst' hs
    exact ⟨⟨own, ys, hst', by rw [hs.vec_eq]; exact ho, rfl⟩, beside_of_same hs v⟩
  refine ((ends_allocate hst (by omega) fun hmax => (hfits hmax).1).mono (fun _ _ hq => hq)
    fun _ w' he => hback w' he.1 he.2.1).bind ?_
  rintro q w₁ ⟨-, h₁, hs₁, -⟩
  obtain ⟨src, hsrc, hbase, hcells⟩ := hr.source (List.ne_nil_of_length_pos (by omega))
  have hlen : src.cells.length = zs.length := by rw [← hcells, List.length_map]
  rw [← hbase, ← hlen]
  refine (ends_copyLoop h₁ (List.mem_append_right _ hsrc) (by rw [hlen]) ?_).bind ?_
  · intro j t cs e hst' hlen' hs'
    refine (ends_giveUp (E := fun _ _ => False) hst' hlen').mono ?_ fun _ _ he => he.elim
    exact fun _ t' ⟨h₂, hs₂⟩ => hback t' h₂ (hs₁.trans (hs'.trans hs₂))
  rintro _ w₂ ⟨hs₂, cs, h₂, hcs⟩
  have hperm : (⟨q, zs.length*T.sizeofT, cs⟩ :: (own ++ rest)).Perm (own ++ ⟨q, zs.length*T.sizeofT, cs⟩ :: rest) :=
    List.perm_middle.symm
  have ho₂ : Owns T (w₂.vec v) own ys := by
    rw [hs₂.vec_eq, hs₁.vec_eq]
    exact ho
  refine (ends_releaseStorage (h₂.perm hperm) ho₂).bind ?_
  -- the old storage is gone, and from here nothing throws
  rintro _ w₃ ⟨h₃, -, hb₃⟩
  apply ends_setAll (hlen ▸ h₃.end_lt List.mem_cons_self)
  have hcslen : cs.length = src.cells.length := by
    have := congrArg List.length hcs
    simpa using this
  have hold : Holding T { w₃ with vec := Function.update w₃.vec v ⟨q, q+src.cells.length*T.sizeofT, q+src.cells.length*T.sizeofT⟩ }
      v q src.cells.length cs rest := by
    refine ⟨by rw [hlen]; exact h₃, ?_, by omega⟩
    rw [hcslen]
    exact Function.update_self ..
  have hcon := hold.contains
  rw [hcs, hcells] at hcon
  exact ⟨hcon, (beside_of_same (hs₁.trans hs₂) v).trans (hb₃.trans (beside_update _ _ _))⟩

/-- The members of `other` come to `v` with what they own. -/
theorem ends_takeFrom (h : w.Stores T (own ++ rest)) (ho : Owns T (w.vec other) own ys) (hne : other ≠ v) :
    (takeFrom v other).Ends w (fun _ w' => w'.Stores T (own ++ rest) ∧ Owns T (w'.vec v) own ys ∧ w'.vec other = .null ∧
      (∀ u, u ≠ v → u ≠ other → w'.vec u = w.vec u) ∧ w'.names = w.names) E := by
  unfold takeFrom
  apply ends_get_bind
  apply ends_store_bind
  apply ends_setNull
  refine ⟨h, ?_, Function.update_self .., fun u hu hu' => ?_, rfl⟩
  · dsimp only
    rw [Function.update_of_ne hne.symm, Function.update_self]
    exact ho
  · dsimp only
    rw [Function.update_of_ne hu', Function.update_of_ne hu]

theorem ends_reallocateExact (h : w.Stores T rest) (hv : w.vec v = .null) (hn : 0 < n)
    (hfits : n ≤ (2^64-1)/T.sizeofT → AllocateFits w.heap.alloc (n*T.sizeofT) T.alignofT) :
    (reallocateExact T v n).Ends w
      (fun _ w' => ∃ q, w'.Stores T (⟨q, n*T.sizeofT, []⟩ :: rest) ∧ w'.vec v = ⟨q, q, q+n*T.sizeofT⟩ ∧ Beside v w w')
      fun _ w' => w'.Stores T rest ∧ Beside v w w' := by
  unfold reallocateExact
  apply ends_get_bind
  rw [hv, if_neg (show ¬ SharedMemoryVector.null.start ≠ 0 from fun hcon => hcon rfl)]
  apply ends_pure_bind
  refine ((ends_allocate h hn hfits).mono (fun _ _ hq => hq) ?_).bind ?_
  · exact fun _ w' ⟨h₁, hs₁, _⟩ => ⟨h₁, beside_of_same hs₁ v⟩
  · rintro q w₁ ⟨-, h₁, hs₁, -⟩
    apply ends_setAll (h₁.end_lt List.mem_cons_self)
    exact ⟨q, h₁, Function.update_self .., (beside_of_same hs₁ v).trans (beside_update _ _ _)⟩

/-- On a throw there is no vector `v`, and nothing else has changed. -/
theorem ends_copyConstruct {zs : List V} (h : w.Stores T rest) (hr : Reads T w other rest zs) (hne : other ≠ v)
    (hfits : CapacityFits T w 0 zs.length) :
    (copyConstruct T v other).Ends w
      (fun _ w' => Contains T w' v rest zs ∧ (∀ u, u ≠ v → w'.vec u = w.vec u) ∧ w'.names = v :: w.names)
      fun _ w' => w'.Stores T rest ∧ Beside v w w' := by
  unfold copyConstruct
  refine (ends_setNull (Q := fun _ w' => w'.Stores T rest ∧ w'.vec v = .null ∧ Beside v w w' ∧ w'.heap = w.heap)
    ⟨h, Function.update_self .., beside_update _ _ _, rfl⟩).bind ?_
  rintro _ w₁ ⟨h₁, hv₁, hb₁, hheap₁⟩
  have hreads : ∀ {t}, Beside v w t → Reads T t other rest zs := by
    intro t hb
    obtain ⟨own, ys, ho, hin, hz⟩ := hr
    exact ⟨own, ys, by rw [hb.vec_eq other hne]; exact ho, hin, hz⟩
  have hborn : ∀ {t}, Contains T t v rest zs → Beside v w t → (born v : VectorOp V Unit).Ends t
      (fun _ w' => Contains T w' v rest zs ∧ (∀ u, u ≠ v → w'.vec u = w.vec u) ∧ w'.names = v :: w.names)
      fun _ w' => w'.Stores T rest ∧ Beside v w w' :=
    fun hc hb => ends_store ⟨hc, hb.vec_eq, congrArg _ hb.names_eq⟩
  apply ends_get_bind
  dsimp only
  rw [(hreads hb₁).size_eq]
  by_cases hn : zs.length = 0
  · rw [if_neg (not_not.mpr hn)]
    obtain rfl := List.length_eq_zero_iff.mp hn
    apply ends_pure_bind
    exact hborn (contains_null hv₁ h₁) hb₁
  rw [if_pos hn]
  have hexact := ends_reallocateExact (n := zs.length) h₁ hv₁ (by omega) fun hmax => by
    rw [hheap₁]
    exact (hfits hmax).1
  refine (hexact.mono (fun _ _ hq => hq) fun _ w' ⟨h₂, hb₂⟩ => ⟨h₂, hb₁.trans hb₂⟩).bind ?_
  rintro _ w₂ ⟨q, h₂, hv₂, hb₂⟩
  apply ends_get_bind
  obtain ⟨src, hsrc, hbase, hcells⟩ := (hreads (hb₁.trans hb₂)).source (List.ne_nil_of_length_pos (by omega))
  have hlen : src.cells.length = zs.length := by rw [← hcells, List.length_map]
  rw [← hbase, ← hlen, hv₂]
  refine (ends_copyLoop h₂ hsrc (by rw [hlen]) ?_).bind ?_
  · intro j t cs e hst hlen' hs
    subst hlen'
    refine (ends_destroyAll hst).bind ?_
    rintro _ t₁ ⟨ht₁, hs₁⟩
    refine (ends_deallocate ht₁ rfl).bind ?_
    rintro _ t₂ ⟨ht₂, hs₂⟩
    apply ends_setNull
    exact ⟨ht₂, hb₁.trans (hb₂.trans ((beside_of_same (hs.trans (hs₁.trans hs₂)) v).trans (beside_update _ _ _)))⟩
  rintro _ w₃ ⟨hs₃, cs, h₃, hcs⟩
  apply ends_store_bind
  have hcslen : cs.length = src.cells.length := by
    have := congrArg List.length hcs
    simpa using this
  have hold : Holding T { w₃ with vec := Function.update w₃.vec v ⟨q, q+src.cells.length*T.sizeofT, q+src.cells.length*T.sizeofT⟩ }
      v q src.cells.length cs rest := by
    refine ⟨by rw [hlen]; exact h₃, ?_, by omega⟩
    rw [hcslen]
    exact Function.update_self ..
  have hcon := hold.contains
  rw [hcs, hcells] at hcon
  have hv₃ : w₃.vec v = ⟨q, q, q+zs.length*T.sizeofT⟩ := by rw [hs₃.vec_eq, hv₂]
  rw [hv₃]
  dsimp only
  rw [← hlen]
  exact hborn hcon (hb₁.trans (hb₂.trans ((beside_of_same hs₃ v).trans (beside_update _ _ _))))

theorem ends_destruct (h : Contains T w v rest xs) :
    (destruct T v).Ends w (fun _ w' => w'.Stores T rest ∧ (∀ u, u ≠ v → w'.vec u = w.vec u) ∧ w'.names = w.names.erase v) E := by
  unfold destruct
  rcases h.cases with ⟨hv, hst, rfl⟩ | ⟨p, cap, ys, hw, rfl⟩
  · refine (ends_clear_null hv).bind ?_
    rintro _ _ rfl
    apply ends_get_bind
    rw [hv, if_neg (show ¬ SharedMemoryVector.null.start ≠ 0 from fun hcon => hcon rfl)]
    apply ends_pure_bind
    exact ends_store ⟨hst, fun _ _ => rfl, rfl⟩
  · refine (ends_clear hw).bind ?_
    rintro _ w₁ ⟨h₁, hb₁⟩
    apply ends_get_bind
    rw [h₁.vec_eq, if_pos h₁.ne_zero]
    refine (ends_deallocate h₁.stores rfl).bind ?_
    rintro _ w₂ ⟨h₂, hs₂⟩
    apply ends_store
    have hb := hb₁.trans (beside_of_same hs₂ v)
    exact ⟨h₂, hb.vec_eq, congrArg (fun l => List.erase l v) hb.names_eq⟩

end SharedMemoryVector

end ShmNext
