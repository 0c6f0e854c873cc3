import ShmNext.SharedString
import ShmNext.VectorOps
import ShmNext.HeldBlocks

/-! What the members of the string do to the segment and to their string: characters that are written and read,
buffers that are obtained and given back, growth, and assignment. -/
namespace ShmNext
open Prog

section
variable {α : Type} {xs ys zs : List α} {i : ℕ} {x : α}

/-- `xs` has been written over `ys` from place `i` on. -/
def overwritten (ys : List α) (i : ℕ) (xs : List α) : List α := ys.take i ++ xs ++ ys.drop (i+xs.length)

@[simp] theorem overwritten_nil (ys : List α) (i : ℕ) : overwritten ys i [] = ys := by
  unfold overwritten
  rw [List.append_nil, List.length_nil, Nat.add_zero, List.take_append_drop]

theorem overwritten_cons (hi : i ≤ ys.length) : overwritten (overwritten ys i [x]) (i+1) xs = overwritten ys i (x :: xs) := by
  have hlen : (ys.take i ++ [x]).length = i+1 := by
    rw [List.length_append, List.length_take, Nat.min_eq_left hi]
    rfl
  have htake : (overwritten ys i [x]).take (i+1) = ys.take i ++ [x] := List.take_left' hlen
  have hdrop : (overwritten ys i [x]).drop (i+1+xs.length) = ys.drop (i+1+xs.length) := by
    unfold overwritten
    rw [← List.drop_drop, List.drop_left' hlen, List.drop_drop]
    rfl
  calc
    overwritten (overwritten ys i [x]) (i+1) xs = ys.take i ++ [x] ++ xs ++ ys.drop (i+1+xs.length) := by
      rw [← hdrop, ← htake]
      rfl
    _ = overwritten ys i (x :: xs) := by
      unfold overwritten
      rw [List.length_cons, Nat.add_right_comm i 1 xs.length, Nat.add_assoc i xs.length 1, List.append_assoc (ys.take i) [x] xs]
      rfl

theorem length_overwritten (hi : i ≤ ys.length) : (overwritten ys i xs).length = max ys.length (i+xs.length) := by
  unfold overwritten
  simp only [List.length_append, List.length_take, List.length_drop]
  omega

/-- What is written behind `xs` follows it. -/
theorem overwritten_append (xs ys zs : List α) : overwritten (xs ++ ys) xs.length zs = xs ++ zs ++ ys.drop zs.length := by
  unfold overwritten
  rw [List.take_left' rfl, ← List.drop_drop, List.drop_left' rfl]

end

variable {C : Type} {T : CharType C} {w w' t : VectorWorld C} {r : Region C} {rs rest : List (Region C)} {ys : List (ℕ × C)}
  {xs : List C} {s : CharSource C} {v other p q n i k cap : ℕ} {x : C} {E : VectorThrown → VectorWorld C → Prop}

namespace SharedMemoryString

/-- The segment lies where it lay. -/
structure SamePlace (w w' : VectorWorld C) : Prop where
  place_eq : w'.heap.alloc.place = w.heap.alloc.place
  size_eq : w'.heap.alloc.segmentSize = w.heap.alloc.segmentSize

namespace SamePlace

theorem refl (w : VectorWorld C) : SamePlace w w := ⟨rfl, rfl⟩

theorem of_heap (h : w'.heap = w.heap) : SamePlace w w' := by
  constructor <;> rw [h]

theorem trans (h : SamePlace w w') (h' : SamePlace w' t) : SamePlace w t :=
  ⟨h'.place_eq.trans h.place_eq, h'.size_eq.trans h.size_eq⟩

theorem room (h : SamePlace w w') {al : ℕ} (hroom : AddressRoom w.heap n al) : AddressRoom w'.heap n al := by
  intro A hA
  rw [(ShmNext.place_eq h.place_eq).2, h.size_eq]
  exact hroom A hA

end SamePlace

theorem keeps_allocateElements {γ : Type} {φ : Allocator → γ} (h : ReadsFields φ) (sz al n : ℕ) : (allocateElements sz al n).Keeps φ := by
  unfold allocateElements
  split
  · exact keeps_throw _
  · refine (h.allocate _ _).bind fun p => ?_
    split
    · exact keeps_throw _
    · exact keeps_pure p

/-- An allocator call that keeps the place of the segment. -/
theorem samePlace_callAllocator {α : Type} {call : Op α} {after : α → Allocator → Heap → Heap} {Q : α → VectorWorld C → Prop}
    (h : (callAllocator T.toElementType call after).Ends w Q E)
    (hplace : call.Keeps Allocator.place) (hsize : call.Keeps Allocator.segmentSize)
    (hafter : ∀ a c g, (after a c g).alloc = c) :
    (callAllocator T.toElementType call after).Ends w (fun a w' => Q a w' ∧ SamePlace w w') fun e w' => E e w' ∧ SamePlace w w' := by
  have hrun : (callAllocator T.toElementType call after).run w = _ := run_read _ w
  have hp := hplace w.heap.alloc
  have hs := hsize w.heap.alloc
  rcases hc : call.run w.heap.alloc with ⟨a | e | _, c⟩ <;> rw [hc] at hrun hp hs <;> unfold Ends at h ⊢ <;> rw [hrun] at h ⊢
  · refine ⟨h, ?_, ?_⟩
    · change (after a c w.heap).alloc.place = _
      rw [hafter a c w.heap]
      exact hp
    · change (after a c w.heap).alloc.segmentSize = _
      rw [hafter a c w.heap]
      exact hs
  · exact ⟨h, hp, hs⟩
  · exact h

/-! Characters. -/

/-- The call is given the characters `xs`. -/
def ReadsAs (T : CharType C) (w : VectorWorld C) (xs : List C) : CharSource C → Prop
  | .outside chars => chars = xs
  | .inside p n => n = xs.length ∧ ∀ i x, xs[i]? = some x → (w.objects.slot (p+i*T.sizeofT)).map Prod.snd = some x

/-- The range has no slot among those of the row at `p` from slot `lo` on. -/
def AvoidsRow (T : CharType C) (p lo hi : ℕ) : CharSource C → Prop
  | .outside _ => True
  | .inside q n => ∀ j < n, ∀ k, lo ≤ k → k < hi → q+j*T.sizeofT ≠ p+k*T.sizeofT

theorem ReadsAs.length_eq (h : ReadsAs T w xs s) : s.length = xs.length := by
  cases s with
  | outside chars => exact congrArg List.length h
  | inside p n => exact h.1

theorem ends_charAt (h : (w.objects.slot p).map Prod.snd = some x) : (charAt p).Ends w (fun y w' => y = x ∧ w' = w) E := by
  obtain ⟨y, hy, rfl⟩ := Option.map_eq_some_iff.mp h
  exact (ends_elementAt hy).mono (fun _ _ hq => ⟨hq.1, hq.2.symm⟩) fun _ _ he => he

theorem ends_sourceAt (h : ReadsAs T w xs s) (hx : xs[i]? = some x) : (sourceAt T s i).Ends w (fun y w' => y = x ∧ w' = w) E := by
  cases s with
  | outside chars =>
    obtain rfl := h
    unfold sourceAt
    dsimp only
    rw [hx]
    exact ends_pure ⟨rfl, rfl⟩
  | inside p n => exact ends_charAt (h.2 i x hx)

/-- One character of a buffer is written, for the first time or anew. -/
theorem ends_setChar (h : w.Stores T.toElementType (r :: rs)) (hi : i ≤ r.cells.length) (hroom : (i+1)*T.sizeofT ≤ r.bytes) (x : C) :
    (setChar T (r.base+i*T.sizeofT) x).Ends w
      (fun _ w' => w' = { w with objects := w'.objects } ∧ (∀ q, q ≠ r.base+i*T.sizeofT → w'.objects.slot q = w.objects.slot q) ∧
        ∃ ys, w'.Stores T.toElementType ({ r with cells := ys } :: rs) ∧
          ys.map Prod.snd = overwritten (r.cells.map Prod.snd) i [x]) E := by
  have hsz := T.sizeof_pos
  have hlt : i*T.sizeofT < r.bytes := by
    rw [Nat.succ_mul] at hroom
    omega
  have hin : InAllocation T w.heap (r.base+i*T.sizeofT) := by
    obtain ⟨a, ha, hbase, hbytes⟩ := h.live r List.mem_cons_self
    rw [Nat.succ_mul] at hroom
    exact ⟨a, ha, by omega, by omega⟩
  have hslot := h.slot_eq hsz List.mem_cons_self hlt
  have hrun : (setChar T (r.base+i*T.sizeofT) x).run w = (if (w.objects.slot (r.base+i*T.sizeofT)).isSome
      then assignAt (r.base+i*T.sizeofT) x else constructAt T.toElementType true (r.base+i*T.sizeofT) x : StringOp C Unit).run w := by
    change (if InAllocation T w.heap (r.base+i*T.sizeofT) then _ else _ : StringOp C Unit).run w = _
    rw [if_pos hin]
  have hprog : ∀ {Q : Unit → VectorWorld C → Prop}, (if (w.objects.slot (r.base+i*T.sizeofT)).isSome
      then assignAt (r.base+i*T.sizeofT) x else constructAt T.toElementType true (r.base+i*T.sizeofT) x : StringOp C Unit).Ends w Q E →
      (setChar T (r.base+i*T.sizeofT) x).Ends w Q E := by
    intro Q hQ
    unfold Ends at hQ ⊢
    rwa [hrun]
  apply hprog
  rcases Nat.eq_or_lt_of_le hi with rfl | hlt'
  · -- the slot behind the last
    have hnone : w.objects.slot (r.base+r.cells.length*T.sizeofT) = none := hslot.trans (List.getElem?_eq_none le_rfl)
    rw [hnone, if_neg (by simp)]
    refine (ends_constructAt hnone).mono (fun _ w' hw => ?_) fun _ w' hw => absurd hw.2.1 (by simp)
    obtain ⟨rfl, -⟩ := hw
    refine ⟨rfl, fun q hq => Function.update_of_ne hq _ _, _, h.push hsz hroom x, ?_⟩
    have happend := overwritten_append (r.cells.map Prod.snd) [] [x]
    rw [List.append_nil, List.length_map] at happend
    rw [happend, List.map_append]
    exact (List.append_nil _).symm
  · have hy := hslot.trans (List.getElem?_eq_getElem hlt')
    rw [hy, if_pos Option.isSome_some]
    refine (ends_assignAt hy).mono (fun _ w' hw => ?_) fun _ _ he => he
    obtain rfl := hw
    refine ⟨rfl, fun q hq => Function.update_of_ne hq _ _, _, h.assign hsz (List.getElem?_eq_getElem hlt') x, ?_⟩
    unfold overwritten
    rw [List.map_set, List.set_eq_take_append_cons_drop, if_pos (by rwa [List.length_map]), List.append_assoc]
    rfl

theorem ReadsAs.of_avoids {lo hi : ℕ} (h : ReadsAs T w xs s) (havoid : AvoidsRow T p lo hi s)
    (hframe : ∀ q, (∀ k, lo ≤ k → k < hi → q ≠ p+k*T.sizeofT) → w'.objects.slot q = w.objects.slot q) : ReadsAs T w' xs s := by
  cases s with
  | outside chars => exact h
  | inside q n =>
    refine ⟨h.1, fun i x hx => ?_⟩
    have hlt : i < n := h.1 ▸ (List.getElem?_eq_some_iff.mp hx).1
    rw [hframe _ (havoid i hlt)]
    exact h.2 i x hx

/-- `Traits::copy` into a buffer, from slot `k` on, of characters that lie elsewhere. -/
theorem ends_copyChars (left : ℕ) (h : w.Stores T.toElementType (r :: rs)) (hs : ReadsAs T w xs s) (hlen : i+left = xs.length)
    (havoid : AvoidsRow T r.base k (k+xs.length) s) (hk : k+i ≤ r.cells.length) (hroom : (k+xs.length)*T.sizeofT ≤ r.bytes) :
    (copyChars T (r.base+k*T.sizeofT) s i left).Ends w
      (fun _ w' => w' = { w with objects := w'.objects } ∧ ∃ ys, w'.Stores T.toElementType ({ r with cells := ys } :: rs) ∧
        ys.map Prod.snd = overwritten (r.cells.map Prod.snd) (k+i) (xs.drop i)) E := by
  induction left generalizing i w r with
  | zero =>
    refine ends_pure ⟨rfl, r.cells, h, ?_⟩
    rw [List.drop_eq_nil_of_le (by omega), overwritten_nil]
  | succ left ih =>
    have hi : i < xs.length := by omega
    have hx := List.getElem?_eq_getElem hi
    have hend : (k+i+1)*T.sizeofT ≤ r.bytes := (Nat.mul_le_mul_right _ (by omega)).trans hroom
    unfold copyChars
    refine (ends_sourceAt hs hx).bind fun _ t ht => ?_
    obtain ⟨rfl, rfl⟩ := ht
    rw [Nat.add_assoc, ← Nat.add_mul]
    refine (ends_setChar h hk hend _).bind fun _ u hu => ?_
    obtain ⟨hobj, hframe, zs, hst, hzs⟩ := hu
    have hzlen : zs.length = max r.cells.length (k+i+1) := by
      have := congrArg List.length hzs
      rw [List.length_map, length_overwritten (by rwa [List.length_map]), List.length_map] at this
      exact this
    have hs' : ReadsAs T u xs s := hs.of_avoids havoid fun q hq => hframe q (hq (k+i) (by omega) (by omega))
    refine (ih hst hs' (by omega) havoid (by dsimp only; omega) hroom).mono (fun _ w' hw => ?_) fun _ _ he => he
    obtain ⟨hobj', zs', hst', hzs'⟩ := hw
    refine ⟨?_, zs', hst', ?_⟩
    · rw [hobj', hobj]
    · dsimp only at hzs'
      rw [hzs', hzs, ← Nat.add_assoc, overwritten_cons (by rwa [List.length_map]), List.drop_eq_getElem_cons hi]

/-! Buffers. -/

theorem ends_endChars {left : ℕ} (hacc : w.objects.Accounted) :
    (endChars T p i left).Ends w
      (fun _ w' => ∃ o, w' = { w with objects := o } ∧ SharedMemoryVector.Emptied T.toElementType p i (i+left) w.objects o) E := by
  induction left generalizing i w with
  | zero => exact ends_pure ⟨w.objects, rfl, hacc, fun j h1 h2 => by omega, fun q _ => rfl⟩
  | succ left ih =>
    have hne : ∀ j, i+1 ≤ j → p+j*T.sizeofT ≠ p+i*T.sizeofT := fun j hj => by
      have hlt := Nat.mul_lt_mul_of_pos_right hj T.sizeof_pos
      omega
    -- one slot is empty afterwards, whether it was before or not
    have hround : ∀ o : Objects C, o.Accounted → (∀ q, q ≠ p+i*T.sizeofT → o.slot q = w.objects.slot q) →
        o.slot (p+i*T.sizeofT) = none → (endChars T p (i+1) left).Ends { w with objects := o }
          (fun _ w' => ∃ o, w' = { w with objects := o } ∧
            SharedMemoryVector.Emptied T.toElementType p i (i+(left+1)) w.objects o) E := by
      intro o ho hsame hnone
      refine (ih ho).mono (fun _ w' hw => ?_) fun _ _ he => he
      obtain ⟨o', rfl, hacc', hgone, hkept⟩ := hw
      refine ⟨o', rfl, hacc', fun j h1 h2 => ?_, fun q hq => ?_⟩
      · rcases Nat.eq_or_lt_of_le h1 with rfl | hlt
        · rw [hkept _ fun j hj _ => (hne j hj).symm]
          exact hnone
        · exact hgone j hlt (by omega)
      · rw [hkept q fun j h1 h2 => hq j (by omega) (by omega)]
        exact hsame q (hq i le_rfl (by omega))
    unfold endChars
    apply ends_get_bind
    cases hy : w.objects.slot (p+i*T.sizeofT) with
    | none =>
      rw [if_neg (by simp)]
      exact ends_pure_bind (hround w.objects hacc (fun _ _ => rfl) hy)
    | some y =>
      rw [if_pos Option.isSome_some]
      refine (ends_destroyAt hy).bind fun _ t ht => ?_
      obtain rfl := ht
      exact hround _ (hacc.remove hy) (fun q hq => Function.update_of_ne hq _ _) (Function.update_self ..)

/-- A buffer is given back, with the characters in it. -/
theorem ends_deallocateChars (h : w.Stores T.toElementType (r :: rs)) (hn : r.bytes = n*T.sizeofT) :
    (deallocateChars T r.base n).Ends w
      (fun _ w' => w'.Stores T.toElementType rs ∧ SameVecs w w' ∧ SamePlace w w') E := by
  have hsz := T.sizeof_pos
  have hwhole := h.whole r List.mem_cons_self
  have hle : r.cells.length ≤ n := Nat.le_of_mul_le_mul_right (hn ▸ hwhole) hsz
  obtain ⟨a, ha, hbase, -⟩ := h.live r List.mem_cons_self
  unfold deallocateChars
  apply ends_get_bind
  rw [if_pos ⟨a, ha, hbase⟩]
  refine (ends_endChars h.accounted).bind fun _ t ht => ?_
  obtain ⟨o, rfl, he⟩ := ht
  rw [Nat.zero_add] at he
  -- the slots behind the last character were empty
  have hemptied : SharedMemoryVector.Emptied T.toElementType r.base 0 r.cells.length w.objects o := by
    refine ⟨he.accounted, fun j h1 h2 => he.gone j h1 (by omega), fun q hq => ?_⟩
    by_cases hrow : ∃ j < n, q = r.base+j*T.sizeofT
    · obtain ⟨j, hj, rfl⟩ := hrow
      have hlt := Nat.mul_lt_mul_of_pos_right hj hsz
      rw [he.gone j (Nat.zero_le _) hj, h.slot_eq hsz List.mem_cons_self (by omega), List.getElem?_eq_none]
      exact Nat.le_of_not_lt fun hlt => hq j (Nat.zero_le _) hlt rfl
    · exact he.kept q fun j _ h2 heq => hrow ⟨j, h2, heq⟩
  have hst := SharedMemoryVector.stored_emptied h hemptied
  rw [List.take_zero] at hst
  have hstores : ({ w with objects := o } : VectorWorld C).Stores T.toElementType (⟨r.base, r.bytes, []⟩ :: rs) := hst
  obtain ⟨c, hrun, hst'⟩ := hstores.deallocate rfl
  unfold SharedMemoryVector.deallocate
  rw [if_neg (h.bounds List.mem_cons_self).1.ne']
  refine callAllocator_ok hrun ⟨hst', ⟨rfl, rfl⟩, ?_, ?_⟩
  · have hp := readsFields_place.deallocate r.base w.heap.alloc
    rw [hrun] at hp
    exact hp
  · have hs := readsFields_size.deallocate r.base w.heap.alloc
    rw [hrun] at hs
    exact hs

/-- The layout of a buffer for `n` characters does not wrap, wherever in the segment it lies. -/
def Fits (T : CharType C) (w : VectorWorld C) (n : ℕ) : Prop :=
  n+1 < 2^64 ∧ (n+1 ≤ (2^64-1)/T.sizeofT → AddressRoom w.heap ((n+1)*T.sizeofT) T.alignofT)

instance (T : CharType C) (w : VectorWorld C) (n : ℕ) : Decidable (Fits T w n) := inferInstanceAs (Decidable (_ ∧ (_ → _)))

theorem SamePlace.fits (h : SamePlace w w') (hfits : Fits T w n) : Fits T w' n := ⟨hfits.1, fun hmax => h.room (hfits.2 hmax)⟩

/-- A buffer for `n` characters. -/
theorem ends_allocateChars (h : w.Stores T.toElementType rs) (hfits : Fits T w n) :
    (SharedMemoryVector.allocate T.toElementType ((n+1)%2^64)).Ends w
      (fun p w' => (p ≠ 0 ∧ w'.Stores T.toElementType (⟨p, (n+1)*T.sizeofT, []⟩ :: rs) ∧ SameVecs w w' ∧
        SharedMemoryVector.FindsStorage T.toElementType w (n+1)) ∧ SamePlace w w')
      fun _ w' => (w'.Stores T.toElementType rs ∧ SameVecs w w' ∧ ¬SharedMemoryVector.FindsStorage T.toElementType w (n+1)) ∧
        SamePlace w w' := by
  rw [Nat.mod_eq_of_lt hfits.1]
  obtain ⟨bs, l, hinv⟩ := h.heap
  have hends := SharedMemoryVector.ends_allocate (n := n+1) h (Nat.succ_pos n) fun hmax => hinv.allocateFits_of_room (hfits.2 hmax)
  have hboth := samePlace_callAllocator hends (keeps_allocateElements readsFields_place _ _ _)
    (keeps_allocateElements readsFields_size _ _ _) fun _ _ _ => rfl
  exact hboth.mono (fun _ _ hq => ⟨⟨hq.1.1, hq.1.2.1, hq.1.2.2.1, hq.1.2.2.2.2⟩, hq.2⟩) fun _ _ he => he

/-- A buffer is made longer, in its place. -/
theorem ends_expandChars (h : w.Stores T.toElementType (r :: rs)) (hgrow : r.bytes ≤ (n+1)*T.sizeofT) (hfits : Fits T w n) :
    (SharedMemoryVector.tryExpand T.toElementType r.base ((n+1)%2^64)).Ends w
      (fun b w' => SameVecs w w' ∧ SamePlace w w' ∧ (b = true ↔ SharedMemoryVector.ExpandsStorage T.toElementType w r.base (n+1)) ∧
        if b then w'.Stores T.toElementType ({ r with bytes := (n+1)*T.sizeofT } :: rs)
        else w'.Stores T.toElementType (r :: rs) ∧ CountersOnly w.heap.alloc w'.heap.alloc) E := by
  rw [Nat.mod_eq_of_lt hfits.1]
  obtain ⟨bs, l, hinv⟩ := h.heap
  obtain ⟨a, ha, hbase, -⟩ := h.live r List.mem_cons_self
  have hroom := fun hmax => hinv.expandFits_of_room ha (hfits.2 hmax)
  rw [hbase] at hroom
  have hends := SharedMemoryVector.ends_tryExpand (n := n+1) (E := E) h (Nat.succ_pos n) hgrow hroom
  unfold SharedMemoryVector.tryExpand at hends ⊢
  by_cases hmax : (2^64-1)/T.sizeofT < n+1
  · rw [if_pos hmax] at hends ⊢
    exact ends_pure ⟨hends.1.1, .refl w, hends.1.2.2, hends.2⟩
  · rw [if_neg hmax] at hends ⊢
    have hboth := samePlace_callAllocator hends (readsFields_place.tryExpand _ _ _) (readsFields_size.tryExpand _ _ _)
      fun _ _ _ => rfl
    exact hboth.mono (fun _ _ hq => ⟨hq.1.1.1, hq.2, hq.1.1.2.2, hq.1.2⟩) fun _ _ he => he.1

/-- Characters are read where they are. -/
theorem readsAs_of_cells (us : List C) {zs : List C} (h : w.Stores T.toElementType rs) (hr : r ∈ rs) (hvals : r.cells.map Prod.snd = us ++ (xs ++ zs)) :
    ReadsAs T w xs (.inside (r.base+us.length*T.sizeofT) xs.length) := by
  refine ⟨rfl, fun i x hx => ?_⟩
  have hlt := (List.getElem?_eq_some_iff.mp hx).1
  have hy : (r.cells.map Prod.snd)[us.length+i]? = some x := by
    rw [hvals, List.getElem?_append_right (Nat.le_add_right _ _), Nat.add_sub_cancel_left, List.getElem?_append_left hlt]
    exact hx
  rw [List.getElem?_map] at hy
  obtain ⟨y, hcell, rfl⟩ := Option.map_eq_some_iff.mp hy
  have hslot := SharedMemoryVector.slot_of_cell h hr hcell
  rw [Nat.add_mul, ← Nat.add_assoc] at hslot
  exact congrArg (Option.map Prod.snd) hslot

/-- Rows of different buffers share no slot. -/
theorem avoidsRow_of_apart (lo : ℕ) {r' : Region C} {hi : ℕ} (h : w.Stores T.toElementType rs) (hr : r ∈ rs) (hr' : r' ∈ rs)
    (hne : r'.base ≠ r.base) (hn : (k+n)*T.sizeofT ≤ r'.bytes) (hhi : hi*T.sizeofT ≤ r.bytes) :
    AvoidsRow T r.base lo hi (.inside (r'.base+k*T.sizeofT) n) := by
  intro j hj m _ hm heq
  have hsz := T.sizeof_pos
  have hj' : (k+j+1)*T.sizeofT ≤ r'.bytes := (Nat.mul_le_mul_right _ (by omega)).trans hn
  have hm' : (m+1)*T.sizeofT ≤ r.bytes := (Nat.mul_le_mul_right _ (by omega)).trans hhi
  rw [Nat.succ_mul] at hm'
  rw [Nat.succ_mul, Nat.add_mul] at hj'
  have hapart := h.apart hr hr' hne
  omega

/-! Growth. -/

/-- The string `v` has its buffer at `p`, with room for `cap` characters and the terminator. It begins with `xs`
and the terminator; what lies behind is left over from earlier. -/
structure Held (T : CharType C) (w : VectorWorld C) (v p cap : ℕ) (xs : List C) (rest : List (Region C)) : Prop where
  stores : ∃ ys zs, w.Stores T.toElementType (⟨p, (cap+1)*T.sizeofT, ys⟩ :: rest) ∧ ys.map Prod.snd = xs ++ T.zero :: zs
  vec_eq : w.vec v = ⟨p, p+xs.length*T.sizeofT, p+cap*T.sizeofT⟩
  length_le : xs.length ≤ cap

namespace Held

theorem ne_zero (h : Held T w v p cap xs rest) : p ≠ 0 := by
  obtain ⟨ys, zs, hst, -⟩ := h.stores
  exact (hst.bounds List.mem_cons_self).1.ne'

theorem size_eq (h : Held T w v p cap xs rest) : size T (w.vec v) = xs.length := by
  rw [h.vec_eq]
  exact SharedMemoryVector.size_storage h.ne_zero

theorem capacity_eq (h : Held T w v p cap xs rest) : capacity T (w.vec v) = cap := by
  rw [h.vec_eq]
  exact SharedMemoryVector.capacity_storage h.ne_zero

/-- The characters of the string are read where they are. -/
theorem readsAs (h : Held T w v p cap xs rest) : ReadsAs T w xs (.inside p xs.length) := by
  obtain ⟨ys, zs, hst, hvals⟩ := h.stores
  have hreads := readsAs_of_cells [] hst List.mem_cons_self hvals
  rwa [List.length_nil, Nat.zero_mul, Nat.add_zero] at hreads

/-- Behind them is the terminator. -/
theorem terminated (h : Held T w v p cap xs rest) : (w.objects.slot (w.vec v).finish).map Prod.snd = some T.zero := by
  obtain ⟨ys, zs, hst, hvals⟩ := h.stores
  have hy : (ys.map Prod.snd)[xs.length]? = some T.zero := by
    rw [hvals, List.getElem?_append_right le_rfl, Nat.sub_self]
    rfl
  rw [List.getElem?_map] at hy
  obtain ⟨y, hcell, hzero⟩ := Option.map_eq_some_iff.mp hy
  have hslot := SharedMemoryVector.slot_of_cell hst List.mem_cons_self hcell
  rw [h.vec_eq, ← hzero]
  exact congrArg (Option.map Prod.snd) hslot

end Held

theorem ends_terminate (cap : ℕ) (xs : List C) {zs : List C} (h : w.Stores T.toElementType (⟨p, (cap+1)*T.sizeofT, ys⟩ :: rest))
    (hvals : ys.map Prod.snd = xs ++ zs) (hv : w.vec v = ⟨p, p+xs.length*T.sizeofT, p+cap*T.sizeofT⟩) (hle : xs.length ≤ cap) :
    (terminate T v).Ends w (fun _ w' => Held T w' v p cap xs rest ∧ SameVecs w w' ∧ SamePlace w w') E := by
  have hlen : xs.length ≤ ys.length := by
    have := congrArg List.length hvals
    rw [List.length_map, List.length_append] at this
    omega
  unfold terminate
  apply ends_get_bind
  rw [hv]
  refine (ends_setChar h hlen (Nat.mul_le_mul_right _ (by omega)) T.zero).mono (fun _ w' hw => ?_) fun _ _ he => he
  obtain ⟨hobj, -, ys', hst, hys'⟩ := hw
  refine ⟨⟨⟨ys', zs.drop 1, hst, ?_⟩, ?_, hle⟩, ⟨?_, ?_⟩, .of_heap ?_⟩
  · dsimp only at hys'
    rw [hys', hvals, overwritten_append]
    simp
  · rw [hobj]
    exact hv
  · rw [hobj]
  · rw [hobj]
  · rw [hobj]

/-- `finish = start+n; *finish = CharT(0);` behind the characters that have been written. -/
theorem ends_finishAt {zs : List C} (h : w.Stores T.toElementType (⟨p, (cap+1)*T.sizeofT, ys⟩ :: rest))
    (hvals : ys.map Prod.snd = xs ++ zs) (hv : w.vec v = ⟨p, q, p+cap*T.sizeofT⟩) (hle : xs.length ≤ cap) :
    (finishAt T v xs.length).Ends w (fun _ w' => Held T w' v p cap xs rest ∧ SharedMemoryVector.Beside v w w' ∧ SamePlace w w') E := by
  unfold finishAt
  refine ends_get_bind (ends_store_bind ?_)
  refine Ends.mono (ends_terminate cap xs (p := p) h hvals ?_ hle) (fun _ w' hw => ?_) fun _ _ he => he
  · dsimp only
    rw [Function.update_self, hv]
  · obtain ⟨hheld, hs, hr⟩ := hw
    exact ⟨hheld, (SharedMemoryVector.beside_update _ _ _).trans (SharedMemoryVector.beside_of_same hs v),
      hr.place_eq, hr.size_eq⟩

/-- The characters of `v` go to another buffer: its own cannot be expanded, and another is found. -/
def Relocates (T : CharType C) (w : VectorWorld C) (v n : ℕ) : Prop :=
  ¬SharedMemoryVector.ExpandsStorage T.toElementType w (w.vec v).start (n+1) ∧ SharedMemoryVector.FindsStorage T.toElementType w (n+1)

instance (T : CharType C) (w : VectorWorld C) (v n : ℕ) : Decidable (Relocates T w v n) :=
  inferInstanceAs (Decidable (¬ (_ ∧ ∃ A ∈ normalizeAlignment _, CanExpand _ _ _ _ A) ∧
    (_ ∧ ∃ A ∈ normalizeAlignment _, ∃ r ∈ scanChain _ _ _ _ _, Prod.snd r ≠ 0)))

/-- The three stores and the terminator that `reallocate` ends with. -/
theorem ends_setBuffer (xs : List C) {zs : List C} (h : w.Stores T.toElementType (⟨p, (n+1)*T.sizeofT, ys⟩ :: rest))
    (hvals : ys.map Prod.snd = xs ++ zs) (hle : xs.length ≤ n) :
    (do
      SharedMemoryVector.setStart v p
      SharedMemoryVector.setFinish v (p+xs.length*T.sizeofT)
      SharedMemoryVector.setEndOfStorage v (p+n*T.sizeofT)
      terminate T v).Ends w
      (fun _ w' => Held T w' v p n xs rest ∧ SharedMemoryVector.Beside v w w' ∧ SamePlace w w') E := by
  have hend := h.end_lt List.mem_cons_self
  dsimp only at hend
  rw [Nat.succ_mul] at hend
  refine ends_store_bind (ends_store_bind (ends_store_bind ?_))
  simp only [Function.update_self, Function.update_idem, Nat.mod_eq_of_lt (by omega : p+n*T.sizeofT < 2^64)]
  refine Ends.mono (ends_terminate n xs (p := p) h hvals (Function.update_self ..) hle) (fun _ w' hw => ?_) fun _ _ he => he
  obtain ⟨hheld, hs, hr⟩ := hw
  exact ⟨hheld, (SharedMemoryVector.beside_update _ _ _).trans (SharedMemoryVector.beside_of_same hs v),
    hr.place_eq, hr.size_eq⟩

/-- `reallocate` for a string without storage: an empty string with room for `n` characters. -/
theorem ends_reallocate_null (h : w.Stores T.toElementType rest) (hv : w.vec v = .null) (hfits : Fits T w n) :
    (reallocate T v n).Ends w
      (fun _ w' => (∃ p, Held T w' v p n [] rest) ∧ SharedMemoryVector.Beside v w w' ∧ SamePlace w w')
      fun _ w' => w'.Stores T.toElementType rest ∧ SameVecs w w' ∧ SamePlace w w' := by
  unfold reallocate
  apply ends_get_bind
  dsimp only
  have hcond : ¬((w.vec v).start ≠ 0 ∧ capacity T (w.vec v) < n) := by
    rw [hv]
    exact fun hcon => hcon.1 rfl
  rw [if_neg hcond]
  apply ends_pure_bind
  rw [if_neg Bool.false_ne_true]
  refine ((ends_allocateChars h hfits).mono (fun _ _ hq => hq) fun _ _ he => ⟨he.1.1, he.1.2.1, he.2⟩).bind fun p t ht => ?_
  obtain ⟨⟨-, hst, hs, -⟩, hr⟩ := ht
  have hstart : ¬(w.vec v).start ≠ 0 := by
    rw [hv]
    exact fun hne => hne rfl
  have hsize : size T (w.vec v) = 0 := by
    rw [hv]
    rfl
  rw [if_neg hstart, hsize]
  apply ends_pure_bind
  refine (ends_setBuffer [] hst rfl (Nat.zero_le n)).mono (fun _ w' hw => ?_) fun _ _ he => he
  obtain ⟨hheld, hb, hr'⟩ := hw
  exact ⟨⟨p, hheld⟩, (SharedMemoryVector.beside_of_same hs v).trans hb, hr.trans hr'⟩

/-- `reallocate` beyond the capacity: in place, or into another buffer, or not at all. -/
theorem ends_reallocate_held (h : Held T w v p cap xs rest) (hn : cap < n) (hfits : Fits T w n) :
    (reallocate T v n).Ends w
      (fun _ w' => ∃ q, Held T w' v q n xs rest ∧ SharedMemoryVector.Beside v w w' ∧
        if Relocates T w v n then q ≠ p ∧ SamePlace w w' ∧ ∀ i < cap+1, w'.objects.slot (p+i*T.sizeofT) = none
        else q = p ∧ SamePlace w w')
      fun _ w' => Held T w' v p cap xs rest ∧ SameVecs w w' ∧ SamePlace w w' ∧ ¬Relocates T w v n := by
  have hp := h.ne_zero
  have hsz := T.sizeof_pos
  have hstart : (w.vec v).start = p := by rw [h.vec_eq]
  have hrelocates : Relocates T w v n ↔ ¬SharedMemoryVector.ExpandsStorage T.toElementType w p (n+1) ∧
      SharedMemoryVector.FindsStorage T.toElementType w (n+1) := by
    unfold Relocates
    rw [hstart]
  obtain ⟨ys, zs, hst, hvals⟩ := h.stores
  unfold reallocate
  apply ends_get_bind
  dsimp only
  rw [hstart, h.size_eq, h.capacity_eq, if_pos ⟨hp, hn⟩]
  have hgrow : (cap+1)*T.sizeofT ≤ (n+1)*T.sizeofT := Nat.mul_le_mul_right _ (by omega)
  refine (ends_expandChars hst hgrow hfits).bind fun b t ht => ?_
  obtain ⟨hs, hr, hexp, ht⟩ := ht
  have hvt : t.vec v = ⟨p, p+xs.length*T.sizeofT, p+cap*T.sizeofT⟩ := by rw [hs.vec_eq, h.vec_eq]
  have hle := h.length_le
  cases b with
  | true =>
    rw [if_pos rfl] at ht ⊢
    have hno : ¬Relocates T w v n := fun hrel => (hrelocates.mp hrel).1 (hexp.mp rfl)
    have hend := ht.end_lt List.mem_cons_self
    dsimp only at hend
    rw [Nat.succ_mul] at hend
    refine ends_store_bind (ends_store_bind ?_)
    simp only [Function.update_self, Function.update_idem, hvt, Nat.mod_eq_of_lt (by omega : p+n*T.sizeofT < 2^64)]
    refine Ends.mono (ends_terminate n xs (p := p) ht hvals (Function.update_self ..) (by omega)) (fun _ w' hw => ?_)
      fun _ _ he => he
    obtain ⟨hheld, hs', hr'⟩ := hw
    refine ⟨p, hheld, (SharedMemoryVector.beside_of_same hs v).trans ((SharedMemoryVector.beside_update _ _ _).trans
      (SharedMemoryVector.beside_of_same hs' v)), ?_⟩
    rw [if_neg hno]
    exact ⟨rfl, hr'.place_eq.trans hr.place_eq, hr'.size_eq.trans hr.size_eq⟩
  | false =>
    rw [if_neg Bool.false_ne_true] at ht ⊢
    obtain ⟨ht, m, hm⟩ := ht
    have hno : ¬SharedMemoryVector.ExpandsStorage T.toElementType w p (n+1) := fun hcan => Bool.false_ne_true (hexp.mpr hcan)
    have hfinds : SharedMemoryVector.FindsStorage T.toElementType t (n+1) ↔ SharedMemoryVector.FindsStorage T.toElementType w (n+1) := by
      unfold SharedMemoryVector.FindsStorage FindsBlock
      rw [hm]
      exact Iff.rfl
    refine ((ends_allocateChars ht (hr.fits hfits)).mono (fun _ _ hq => hq) fun _ w' he => ?_).bind fun q u hu => ?_
    · obtain ⟨⟨hst', hs', hnone⟩, hr'⟩ := he
      refine ⟨⟨⟨ys, zs, hst', hvals⟩, ?_, hle⟩, hs.trans hs', hr.trans hr', fun hrel => hnone (hfinds.mpr (hrelocates.mp hrel).2)⟩
      rw [hs'.vec_eq, hvt]
    obtain ⟨⟨-, hstu, hsu, hfound⟩, hru⟩ := hu
    rw [if_pos hp]
    have hrel : Relocates T w v n := hrelocates.mpr ⟨hno, hfinds.mp hfound⟩
    have hqp : q ≠ p := by
      have hnd := hstu.distinct
      simp only [List.map_cons, List.nodup_cons, List.mem_cons, not_or] at hnd
      exact hnd.1.1
    -- the characters are copied while both buffers are there
    have hreads := readsAs_of_cells [] hstu (List.mem_cons_of_mem _ List.mem_cons_self) hvals
    rw [List.length_nil, Nat.zero_mul, Nat.add_zero] at hreads
    have hroom : xs.length*T.sizeofT ≤ (n+1)*T.sizeofT := Nat.mul_le_mul_right _ (by omega)
    have havoid := avoidsRow_of_apart 0 (k := 0) (n := xs.length) hstu List.mem_cons_self (List.mem_cons_of_mem _ List.mem_cons_self)
      hqp.symm (by rw [Nat.zero_add]; exact Nat.mul_le_mul_right _ (by omega)) hroom
    rw [Nat.zero_mul, Nat.add_zero] at havoid
    have hcopy := ends_copyChars xs.length (i := 0) (k := 0) (E := fun _ w' => Held T w' v p cap xs rest ∧ SameVecs w w' ∧
      SamePlace w w' ∧ ¬Relocates T w v n) hstu hreads (Nat.zero_add _) (by rwa [Nat.zero_add]) (Nat.zero_le _) (by rwa [Nat.zero_add])
    dsimp only at hcopy
    rw [Nat.zero_mul, Nat.add_zero] at hcopy
    refine hcopy.bind fun _ u' hu' => ?_
    obtain ⟨hobj, ys', hst', hys'⟩ := hu'
    have hys : ys'.map Prod.snd = xs ++ [] := by
      rw [hys']
      unfold overwritten
      simp
    refine (ends_deallocateChars (hst'.perm (List.Perm.swap _ _ _)) rfl).bind fun _ w₁ hw₁ => ?_
    obtain ⟨hst₁, hs₁, hr₁⟩ := hw₁
    refine (ends_setBuffer xs hst₁ hys (by omega)).mono (fun _ w' hw => ?_) fun _ _ he => he
    obtain ⟨hheld, hb, hr'⟩ := hw
    have hsu' : SameVecs u u' := by
      rw [hobj]
      exact ⟨rfl, rfl⟩
    refine ⟨q, hheld, (SharedMemoryVector.beside_of_same (hs.trans (hsu.trans (hsu'.trans hs₁))) v).trans hb, ?_⟩
    rw [if_pos hrel]
    refine ⟨hqp, ?_, fun i hi => ?_⟩
    · have hru' : SamePlace u u' := .of_heap (by rw [hobj])
      exact hr.trans (hru.trans (hru'.trans (hr₁.trans hr')))
    · -- the old buffer was apart from what is left while it was there
      obtain ⟨ys₂, zs₂, hst₂, -⟩ := hheld.stores
      refine SharedMemoryVector.slot_none_of_apart hst₂ hi fun r hr => ?_
      rcases List.mem_cons.mp hr with rfl | hr
      · have hapart := hst'.apart (List.mem_cons_of_mem _ List.mem_cons_self) List.mem_cons_self hqp
        exact hapart
      · have hne : r.base ≠ p := by
          intro heq
          have hnd := (List.nodup_cons.mp hst.distinct).1
          exact hnd (List.mem_map.mpr ⟨r, hr, heq⟩)
        exact hst.apart List.mem_cons_self (List.mem_cons_of_mem _ hr) hne

end SharedMemoryString

end ShmNext
