import Mathlib.Data.List.Destutter
import ShmNext.ListLoops

/-! The members that drop, keep or replace elements. -/
namespace ShmNext
open Prog NodeOp SharedMemoryList

variable {E : Type} {T : ListType E} {w w' t : ListWorld E} {v n fuel : ℕ} {x : E} {F : NodeThrown → ListWorld E → Prop}
  {A : ℕ → List (ℕ × E)} {own : ℕ → List ℕ} {others : List (ℕ × ℕ)} {as bs cs ds : List (ℕ × E)} {values : List E} {tidy : Prop}
  {a b : ℕ × E}

theorem Receives.after (h : ListsAre T tidy w (Function.update A v cs) others t)
    (h' : Receives T tidy t (Function.update A v cs) others v as bs values w') : Receives T tidy w A others v as bs values w' := by
  obtain ⟨new, hnew, hare⟩ := h'
  rw [Function.update_idem] at hare
  exact ⟨new, hnew, h.trans hare⟩

theorem ReceivesSome.after (h : ListsAre T tidy w (Function.update A v cs) others t)
    (h' : ReceivesSome T tidy t (Function.update A v cs) others v as bs values w') :
    ReceivesSome T tidy w A others v as bs values w' := by
  obtain ⟨new, hnew, hkept⟩ := h'
  rw [Function.update_idem] at hkept
  exact ⟨new, hnew, h.kept hkept⟩

namespace ListsHold

theorem ends_clear_are (h : ListsHold T tidy w A own others) (hv : v ∈ w.names) :
    (clear v).Ends w (fun _ w' => ListsAre T tidy w (Function.update A v []) others w') F := by
  refine (h.ends_clear hv).mono (fun _ t ht => ?_) fun _ _ he => he
  obtain ⟨hhold, hnames, hroom, hfreed⟩ := ht
  exact ⟨⟨_, hhold⟩, hnames, hroom, hfreed⟩

theorem ends_resizeFill (h : ListsHold T tidy w A own others) (hv : v ∈ w.names) (hroom : AddressRoom w.heap T.sizeofNode T.alignofNode) (n : ℕ) (x : E) :
    (resizeFill T v n x).Ends w
      (fun _ w' => Receives T tidy w A others v ((A v).take n) [] (List.replicate (n-(A v).length) x) w')
      fun _ w' => ReceivesSome T tidy w A others v ((A v).take n) [] (List.replicate (n-(A v).length) x) w' := by
  unfold resizeFill
  refine (h.ends_dropTo hv (h.length_lt hv).le).bind fun _ t ht => ?_
  obtain ⟨own', ht'⟩ := ht.hold
  have hmid : Function.update A v ((A v).take n) v = (A v).take n := Function.update_self ..
  have hleft : n-((A v).take n).length = n-(A v).length := by
    rw [List.length_take]
    omega
  have hgrow := ht'.ends_growTo (x := x) (n := n) (ht.mem hv) (ht.room _ _ hroom) (Nat.sub_le _ _)
  rw [hmid, hleft] at hgrow
  exact hgrow.mono (fun _ _ hr => .after ht hr) fun _ _ he => .after ht he

theorem ends_resize (h : ListsHold T tidy w A own others) (hv : v ∈ w.names) (hroom : AddressRoom w.heap T.sizeofNode T.alignofNode) (n : ℕ) :
    (resize T v n).Ends w
      (fun _ w' => Receives T tidy w A others v ((A v).take n) [] (List.replicate (n-(A v).length) T.default) w')
      fun _ w' => ReceivesSome T tidy w A others v ((A v).take n) [] (List.replicate (n-(A v).length) T.default) w' :=
  h.ends_resizeFill hv hroom n T.default

/-- What is inserted into an emptied list is all there is in it. -/
theorem ends_refill {α : Type} {insertion : BaseNode → ListOp E α} (h : ListsHold T tidy w A own others) (hv : v ∈ w.names)
    (hroom : AddressRoom w.heap T.sizeofNode T.alignofNode)
    (hinsert : ∀ {t A own}, ListsHold T tidy t A own others → v ∈ t.names → A v = [] ++ [] → AddressRoom t.heap T.sizeofNode T.alignofNode →
      (insertion (positionAt v ([] : List (ℕ × E)))).Ends t (fun _ w' => Receives T tidy t A others v [] [] values w')
        fun _ w' => ReceivesSome T tidy t A others v [] [] values w') :
    (do
      clear v
      let first ← begin' v
      let _ ← insertion first : ListOp E Unit).Ends w (fun _ w' => Receives T tidy w A others v [] [] values w')
      fun _ w' => ReceivesSome T tidy w A others v [] [] values w' := by
  refine (h.ends_clear_are hv).bind fun _ t ht => ?_
  obtain ⟨own', ht'⟩ := ht.hold
  have hnil : Function.update A v [] v = [] := Function.update_self ..
  have hfirst := ht'.first_eq (ht.mem hv)
  rw [hnil] at hfirst
  unfold begin'
  refine ends_readPtr_bind NodeWorld.valid_sentinel ?_
  rw [hfirst]
  refine ((hinsert ht' (ht.mem hv) hnil (ht.room _ _ hroom)).mono (fun _ _ hr => hr) fun _ _ he => .after ht he).bind fun _ _ hr => ends_pure ?_
  exact .after ht hr

theorem ends_assignFill (h : ListsHold T tidy w A own others) (hv : v ∈ w.names) (hroom : AddressRoom w.heap T.sizeofNode T.alignofNode) (n : ℕ) (x : E) :
    (assignFill T v n x).Ends w (fun _ w' => Receives T tidy w A others v [] [] (List.replicate n x) w')
      fun _ w' => ReceivesSome T tidy w A others v [] [] (List.replicate n x) w' :=
  h.ends_refill hv hroom fun ht hv hA hroom => ht.ends_insertFill hv hA hroom n x

theorem ends_assignRange (h : ListsHold T tidy w A own others) (hv : v ∈ w.names) (hroom : AddressRoom w.heap T.sizeofNode T.alignofNode)
    (values : List E) :
    (assignRange T v values).Ends w (fun _ w' => Receives T tidy w A others v [] [] values w')
      fun _ w' => ReceivesSome T tidy w A others v [] [] values w' :=
  h.ends_refill hv hroom fun ht hv hA hroom => ht.ends_insertRange hv hA hroom values

/-- Each round of `remove_if` decides on the first of `ds`; what it kept before is in `as`. -/
theorem ends_removeIfFrom {predicate : E → Bool} (h : ListsHold T tidy w A own others) (hv : v ∈ w.names) (hA : A v = as ++ ds)
    (hfuel : ds.length ≤ fuel) :
    (removeIfFrom v predicate fuel (positionAt v ds)).Ends w
      (fun _ w' => ListsAre T tidy w (Function.update A v (as ++ ds.filter fun a => !predicate a.2)) others w') F := by
  induction ds generalizing w A own as fuel with
  | nil =>
    unfold removeIfFrom
    rw [if_pos (by rfl)]
    refine ends_pure ?_
    rw [List.filter_nil, ← hA, Function.update_eq_self]
    exact h.are
  | cons d ds ih =>
    obtain ⟨fuel, rfl⟩ : ∃ k, fuel = k+1 := ⟨fuel-1, by rw [List.length_cons] at hfuel; omega⟩
    have hfirst : positionAt v (d :: ds) = .node d.1 := rfl
    unfold removeIfFrom
    rw [hfirst, if_neg (by simp)]
    refine ends_readValue_bind (h.elem_eq hv hA) ?_
    cases hd : predicate d.2 with
    | true =>
      rw [if_pos rfl, List.filter_cons_of_neg (by simp [hd])]
      refine (h.ends_erase hv hA).bind fun _ t ht => ?_
      obtain ⟨rfl, ht⟩ := ht
      obtain ⟨own', ht'⟩ := ht.hold
      refine (ih ht' (ht.mem hv) (Function.update_self ..) (Nat.le_of_succ_le_succ hfuel)).mono (fun _ _ hr => ?_) fun _ _ he => he
      rw [Function.update_idem] at hr
      exact ht.trans hr
    | false =>
      rw [if_neg (by simp), List.filter_cons_of_pos (by simp [hd])]
      refine ends_readPtr_bind (h.node_valid hv hA) ?_
      rw [h.next_eq hv hA, List.append_cons]
      exact ih h hv (hA.trans (List.append_cons ..)) (Nat.le_of_succ_le_succ hfuel)

theorem ends_removeIf {predicate : E → Bool} (h : ListsHold T tidy w A own others) (hv : v ∈ w.names) :
    (removeIf v predicate).Ends w
      (fun _ w' => ListsAre T tidy w (Function.update A v ((A v).filter fun a => !predicate a.2)) others w') F := by
  unfold removeIf begin'
  refine ends_readPtr_bind NodeWorld.valid_sentinel ?_
  rw [h.first_eq hv]
  have hA : A v = [] ++ A v := rfl
  exact h.ends_removeIfFrom hv hA (h.length_lt hv).le

/-- Each round of `unique` compares the last node that it kept, `a`, to the first of `ds`. -/
theorem ends_uniqueFrom {predicate : E → E → Bool} (h : ListsHold T tidy w A own others) (hv : v ∈ w.names) (hA : A v = as ++ a :: ds)
    (hfuel : ds.length ≤ fuel) :
    (uniqueFrom v predicate fuel (.node a.1) (positionAt v ds)).Ends w
      (fun _ w' => ListsAre T tidy w (Function.update A v (as ++ ds.destutter' (fun x y => ¬predicate x.2 y.2) a)) others w') F := by
  induction ds generalizing w A own as a fuel with
  | nil =>
    unfold uniqueFrom
    rw [if_pos (by rfl)]
    refine ends_pure ?_
    rw [List.destutter'_nil, ← hA, Function.update_eq_self]
    exact h.are
  | cons d ds ih =>
    obtain ⟨fuel, rfl⟩ : ∃ k, fuel = k+1 := ⟨fuel-1, by rw [List.length_cons] at hfuel; omega⟩
    have hA' : A v = (as ++ [a]) ++ d :: ds := hA.trans (List.append_cons ..)
    have hfirst : positionAt v (d :: ds) = .node d.1 := rfl
    unfold uniqueFrom
    rw [hfirst, if_neg (by simp)]
    refine ends_readValue_bind (h.elem_eq hv hA) (ends_readValue_bind (h.elem_eq hv hA') ?_)
    by_cases hd : predicate a.2 d.2 = true
    · rw [if_pos hd, List.destutter'_cons_neg _ (not_not.mpr hd)]
      refine (h.ends_erase hv hA').bind fun _ t ht => ?_
      obtain ⟨rfl, ht⟩ := ht
      obtain ⟨own', ht'⟩ := ht.hold
      have hrest : Function.update A v ((as ++ [a]) ++ ds) v = as ++ a :: ds := by
        rw [Function.update_self, List.append_assoc]
        rfl
      refine (ih ht' (ht.mem hv) hrest (Nat.le_of_succ_le_succ hfuel)).mono (fun _ _ hr => ?_) fun _ _ he => he
      rw [Function.update_idem] at hr
      exact ht.trans hr
    · rw [if_neg hd, List.destutter'_cons_pos _ hd, List.append_cons]
      refine ends_readPtr_bind (h.node_valid hv hA') ?_
      rw [h.next_eq hv hA']
      exact ih h hv hA' (Nat.le_of_succ_le_succ hfuel)

theorem ends_unique {predicate : E → E → Bool} (h : ListsHold T tidy w A own others) (hv : v ∈ w.names) :
    (unique v predicate).Ends w
      (fun _ w' => ListsAre T tidy w (Function.update A v ((A v).destutter fun x y => ¬predicate x.2 y.2)) others w') F := by
  unfold unique
  apply ends_get_bind
  rw [(h.list v hv).size_eq]
  have hshort : (A v).length < 2 → (A v).destutter (fun x y => ¬predicate x.2 y.2) = A v := by
    intro hlt
    match A v, hlt with
    | [], _ => rfl
    | [_], _ => rfl
  by_cases hlt : (A v).length < 2
  · rw [if_pos hlt, hshort hlt, Function.update_eq_self]
    exact ends_pure h.are
  · rw [if_neg hlt]
    cases hA : A v with
    | nil => simp [hA] at hlt
    | cons a ds =>
      have hA' : A v = [] ++ a :: ds := hA
      have hfirst : w.ptr .next (.sentinel v) = .node a.1 := by
        rw [h.first_eq hv, hA]
        rfl
      unfold begin'
      refine ends_readPtr_bind NodeWorld.valid_sentinel ?_
      rw [hfirst]
      refine ends_readPtr_bind (h.node_valid hv hA') ?_
      rw [h.next_eq hv hA', List.destutter_cons']
      have hlen := h.length_lt hv
      rw [hA, List.length_cons] at hlen
      exact h.ends_uniqueFrom hv hA' (by omega)

end ListsHold

end ShmNext
