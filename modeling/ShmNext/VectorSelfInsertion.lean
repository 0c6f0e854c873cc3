import ShmNext.VectorRefinement

/-! Elements of the vector itself as arguments. The reference is read after the storage has
grown, and by then the element it names may be gone. -/
namespace ShmNext
open Prog SharedMemoryVector

variable {V : Type} {T : ElementType V} {w w' : VectorWorld V} {A : ℕ → Option (List V)} {rest : List (Region V)}
  {ys : List (ℕ × V)} {y : ℕ × V} {xs : List V} {v p cap i n : ℕ} {x : V}

/-- A reference to the element `i` of `v`, bound before the call. -/
def elementRef (T : ElementType V) (w : VectorWorld V) (v i : ℕ) : VectorOp V V := elementAt ((w.vec v).start+i*T.sizeofT)

/-- `push_back(v[i])`, `emplace_back(v[i])` and `resize(count, v[i])`. -/
inductive ElementCall where
  | pushBack (v i : ℕ)
  | emplaceBack (v i : ℕ)
  | resize (v count i : ℕ)

namespace ElementCall

def perform (T : ElementType V) : ElementCall → VectorOp V Unit
  | pushBack v i | emplaceBack v i => do
    let w ← Prog.get
    pushBackOf T v (elementRef T w v i)
  | resize v count i => do
    let w ← Prog.get
    resizeFillOf T v count (elementRef T w v i)

def vector : ElementCall → ℕ
  | pushBack v _ | emplaceBack v _ | resize v _ _ => v

def index : ElementCall → ℕ
  | pushBack _ i | emplaceBack _ i | resize _ _ i => i

/-- How many elements come to the vector. -/
def added (T : ElementType V) (w : VectorWorld V) : ElementCall → ℕ
  | pushBack _ _ | emplaceBack _ _ => 1
  | resize v count _ => count-size T (w.vec v)

/-- The capacity asked for, where the present one is exhausted. -/
def growsTo (T : ElementType V) (w : VectorWorld V) : ElementCall → Option ℕ
  | pushBack v _ | emplaceBack v _ =>
    if (w.vec v).finish = (w.vec v).endOfStorage then some (pushCapacity T (w.vec v)) else none
  | resize v count _ => if capacity T (w.vec v) < count then some count else none

/-- The vector exists and has the element, `resize` makes it larger, and the layout of the storage
asked for does not wrap. -/
def Admissible (T : ElementType V) (w : VectorWorld V) (call : ElementCall) : Prop :=
  call.vector ∈ w.names ∧ call.index < size T (w.vec call.vector) ∧ 0 < call.added T w ∧
    ∀ n ∈ call.growsTo T w, CapacityFits T w (w.vec call.vector).start n

instance (T : ElementType V) (w : VectorWorld V) (call : ElementCall) : Decidable (call.Admissible T w) :=
  inferInstanceAs (Decidable (_ ∧ _ ∧ _ ∧ ∀ n ∈ call.growsTo T w, _))

/-- No element is read that is gone, and where the call returns, the vector has its old contents
with copies of the old value behind them. -/
def Right (T : ElementType V) (w : VectorWorld V) (call : ElementCall) : Prop :=
  match (call.perform T).run w with
  | (.ok _, w') => elements T w' call.vector = elements T w call.vector ++
      List.replicate (call.added T w) ((elements T w call.vector)[call.index]?.getD none)
  | (.error _, _) => True
  | (.hang, _) => False

end ElementCall

/-- The reference reads the element for as long as it is in its place. -/
theorem ends_elementRef {t : VectorWorld V} (h : SharedMemoryVector.Holding T w v p cap ys rest)
    (hslot : t.objects.slot (p+i*T.sizeofT) = some y) :
    (elementRef T w v i).Ends t (fun x t' => x = y.2 ∧ t' = t) fun _ _ => False := by
  unfold elementRef
  rw [h.vec_eq]
  exact (ends_elementAt hslot).mono (fun _ _ hq => ⟨hq.1, hq.2.symm⟩) fun _ _ he => he

theorem hangs_elementRef {t : VectorWorld V} (h : SharedMemoryVector.Holding T w v p cap ys rest)
    (hslot : t.objects.slot (p+i*T.sizeofT) = none) : (elementRef T w v i).Hangs t := by
  unfold elementRef Hangs
  rw [h.vec_eq]
  change ((elementAt (p+i*T.sizeofT)).run t).1 = _
  unfold elementAt
  rw [run_read, hslot]
  rfl

section
variable (h : SharedMemoryVector.Holding T w v p cap ys rest) (hy : ys[i]? = some y)
include h hy

/-- In the same place a larger row still has the element. -/
theorem ends_elementRef_kept {t : VectorWorld V} {bytes : ℕ} {zs : List (ℕ × V)} (ht : t.Stores T (⟨p, bytes, zs⟩ :: rest))
    (htake : zs.take ys.length = ys) : (elementRef T w v i).Ends t (fun x t' => x = y.2 ∧ t' = t) fun _ _ => False := by
  have hlt := (List.getElem?_eq_some_iff.mp hy).1
  have hz : zs[i]? = some y := by
    rw [← htake, List.getElem?_take, if_pos hlt] at hy
    exact hy
  exact ends_elementRef h (slot_of_cell ht List.mem_cons_self hz)

theorem ends_pushElement (hfits : (w.vec v).finish = (w.vec v).endOfStorage → CapacityFits T w p (pushCapacity T (w.vec v)))
    (hstays : (w.vec v).finish = (w.vec v).endOfStorage → ¬Relocates T w v (pushCapacity T (w.vec v))) :
    (pushBackOf T v (elementRef T w v i)).Ends w (fun _ w' => Contains T w' v rest (ys.map Prod.snd ++ [y.2]))
      fun _ _ => True := by
  unfold pushBackOf
  apply ends_get_bind
  by_cases hfull : (w.vec v).finish = (w.vec v).endOfStorage
  · rw [if_pos hfull]
    have hlt := h.contains.capacity_lt
    rw [h.capacity_eq] at hlt
    have hgrown := (ends_reallocate_storage h hlt (hfits hfull)).mono (F := fun _ _ => True) (fun _ _ hq => hq)
      fun _ _ _ => trivial
    refine hgrown.bind ?_
    rintro _ w₁ ⟨-, h₁⟩
    rw [if_neg (hstays hfull)] at h₁
    have hlen := h.length_le
    exact (ends_constructBack h₁ (by omega) (ends_elementRef_kept h hy h₁.stores List.take_length)).mono
      (fun _ _ hq => hq.1) fun _ _ _ => trivial
  · rw [if_neg hfull]
    apply ends_pure_bind
    have hroom : ys.length < cap := by
      refine Nat.lt_of_le_of_ne h.length_le ?_
      rintro rfl
      exact hfull (by rw [h.vec_eq])
    exact (ends_constructBack h hroom (ends_elementRef_kept h hy h.stores List.take_length)).mono
      (fun _ _ hq => hq.1) fun _ _ _ => trivial

/-- The elements have gone elsewhere: the reference names none of them. -/
theorem hangs_pushElement (hfits : CapacityFits T w p (pushCapacity T (w.vec v))) (hfull : (w.vec v).finish = (w.vec v).endOfStorage)
    (hmoves : Relocates T w v (pushCapacity T (w.vec v))) : (pushBackOf T v (elementRef T w v i)).Hangs w := by
  have hlt := h.contains.capacity_lt
  rw [h.capacity_eq] at hlt
  unfold pushBackOf
  apply hangs_get_bind
  rw [if_pos hfull]
  have hgrown := (ends_reallocate_storage h hlt hfits).mono (fun _ _ hq => hq) fun _ _ he => he.2.2 hmoves
  refine hgrown.bind_hangs ?_
  rintro _ w₁ ⟨-, h₁⟩
  rw [if_pos hmoves] at h₁
  apply hangs_get_bind
  exact (hangs_elementRef h (h₁ i (List.getElem?_eq_some_iff.mp hy).1)).bind _

theorem ends_resizeElement (hn : ys.length < n) (hfits : cap < n → CapacityFits T w p n) (hstays : cap < n → ¬Relocates T w v n) :
    (resizeFillOf T v n (elementRef T w v i)).Ends w
      (fun _ w' => Contains T w' v rest (ys.map Prod.snd ++ List.replicate (n-ys.length) y.2)) fun _ _ => True := by
  unfold resizeFillOf
  apply ends_get_bind
  dsimp only
  rw [h.size_eq, h.capacity_eq, if_neg (by omega), if_neg (by omega)]
  by_cases hcap : cap < n
  · rw [if_pos hcap]
    have hgrown := (ends_reallocate_storage h hcap (hfits hcap)).mono (F := fun _ _ => True) (fun _ _ hq => hq)
      fun _ _ _ => trivial
    refine hgrown.bind ?_
    rintro _ w₁ ⟨-, h₁⟩
    rw [if_neg (hstays hcap)] at h₁
    exact (ends_constructTail h₁ hn.le le_rfl fun t zs ht htake => ends_elementRef_kept h hy ht htake).mono
      (fun _ _ hq => hq.1) fun _ _ _ => trivial
  · rw [if_neg hcap]
    apply ends_pure_bind
    exact (ends_constructTail h hn.le (by omega) fun t zs ht htake => ends_elementRef_kept h hy ht htake).mono
      (fun _ _ hq => hq.1) fun _ _ _ => trivial

theorem hangs_resizeElement (hn : ys.length < n) (hcap : cap < n) (hfits : CapacityFits T w p n) (hmoves : Relocates T w v n) :
    (resizeFillOf T v n (elementRef T w v i)).Hangs w := by
  unfold resizeFillOf
  apply hangs_get_bind
  dsimp only
  rw [h.size_eq, h.capacity_eq, if_neg (by omega), if_neg (by omega), if_pos hcap]
  have hgrown := (ends_reallocate_storage h hcap hfits).mono (fun _ _ hq => hq) fun _ _ he => he.2.2 hmoves
  refine hgrown.bind_hangs ?_
  rintro _ w₁ ⟨-, h₁⟩
  rw [if_pos hmoves] at h₁
  unfold constructTail
  apply hangs_get_bind
  apply Hangs.bind
  apply hangs_tryLoop (by omega)
  exact (hangs_elementRef h (h₁ i (List.getElem?_eq_some_iff.mp hy).1)).bind _

end

namespace ElementCall
variable {call : ElementCall}

theorem right_of_ends (hends : (call.perform T).Ends w (fun _ w' => elements T w' call.vector = elements T w call.vector ++
      List.replicate (call.added T w) ((elements T w call.vector)[call.index]?.getD none)) fun _ _ => True) : call.Right T w := by
  unfold Right
  rcases hends.cases with ⟨_, w', hr, hq⟩ | ⟨_, w', hr, -⟩
  · rw [hr]
    exact hq
  · rw [hr]
    trivial

theorem not_right_of_hangs (h : (call.perform T).Hangs w) : ¬call.Right T w := by
  unfold Hangs at h
  unfold Right
  generalize (call.perform T).run w = r at h ⊢
  obtain ⟨r, w'⟩ := r
  subst h
  exact id

/-- Both directions for a vector with storage. -/
theorem right_iff (h : SharedMemoryVector.Holding T w call.vector p cap ys rest) (hadm : call.Admissible T w) :
    call.Right T w ↔ ∀ n ∈ call.growsTo T w, ¬Relocates T w call.vector n := by
  obtain ⟨-, hindex, hadded, hfits⟩ := hadm
  rw [h.size_eq] at hindex
  have hy : ys[call.index]? = some ys[call.index] := List.getElem?_eq_getElem hindex
  have hstart : (w.vec call.vector).start = p := by rw [h.vec_eq]
  have hold := h.contains.elements_eq
  have hvalue : (elements T w call.vector)[call.index]?.getD none = some ys[call.index].2 := by
    rw [hold, List.getElem?_map, List.getElem?_map, hy]
    rfl
  -- what a call that returns leaves, read as elements
  have hnew : ∀ {w' : VectorWorld V} {k : ℕ},
      Contains T w' call.vector rest (ys.map Prod.snd ++ List.replicate k ys[call.index].2) →
      elements T w' call.vector = elements T w call.vector ++
        List.replicate k ((elements T w call.vector)[call.index]?.getD none) := by
    intro w' k hc
    rw [hc.elements_eq, hvalue, hold, List.map_append, List.map_replicate]
  rw [hstart] at hfits
  cases call with
  | pushBack v i | emplaceBack v i =>
    dsimp only [growsTo] at hfits ⊢
    by_cases hfull : (w.vec v).finish = (w.vec v).endOfStorage
    · rw [if_pos hfull] at hfits ⊢
      by_cases hmoves : Relocates T w v (pushCapacity T (w.vec v))
      · have hhangs := hangs_pushElement h hy (hfits _ rfl) hfull hmoves
        exact ⟨fun hright => absurd hright (not_right_of_hangs hhangs), fun hno => absurd hmoves (hno _ rfl)⟩
      · refine ⟨fun _ n hn => Option.some.inj hn ▸ hmoves, fun _ => right_of_ends ?_⟩
        exact (ends_pushElement h hy (fun _ => hfits _ rfl) fun _ => hmoves).mono (fun _ _ hc => hnew hc) fun _ _ he => he
    · rw [if_neg hfull]
      refine ⟨fun _ n hn => (by cases hn), fun _ => right_of_ends ?_⟩
      exact (ends_pushElement h hy (fun hcon => absurd hcon hfull) fun hcon => absurd hcon hfull).mono
        (fun _ _ hc => hnew hc) fun _ _ he => he
  | resize v n i =>
    have hcapacity : capacity T (w.vec v) = cap := h.capacity_eq
    dsimp only [growsTo, vector] at hfits ⊢
    rw [hcapacity] at hfits ⊢
    have hadd : (resize v n i).added T w = n-ys.length := congrArg (n - ·) h.size_eq
    rw [hadd] at hadded
    have hn : ys.length < n := by omega
    by_cases hcap : cap < n
    · rw [if_pos hcap] at hfits ⊢
      by_cases hmoves : Relocates T w v n
      · have hhangs := hangs_resizeElement h hy hn hcap (hfits _ rfl) hmoves
        exact ⟨fun hright => absurd hright (not_right_of_hangs hhangs), fun hno => absurd hmoves (hno _ rfl)⟩
      · refine ⟨fun _ m hm => Option.some.inj hm ▸ hmoves, fun _ => right_of_ends ?_⟩
        rw [hadd]
        exact (ends_resizeElement h hy hn (fun _ => hfits _ rfl) fun _ => hmoves).mono (fun _ _ hc => hnew hc) fun _ _ he => he
    · rw [if_neg hcap]
      refine ⟨fun _ m hm => (by cases hm), fun _ => right_of_ends ?_⟩
      rw [hadd]
      exact (ends_resizeElement h hy hn (fun hcon => absurd hcon hcap) fun hcon => absurd hcon hcap).mono
        (fun _ _ hc => hnew hc) fun _ _ he => he

end ElementCall

/-- An element of the vector itself is a good argument except where the capacity is exhausted and the
elements go to other storage: there the reference is read after the element is gone. -/
theorem element_argument_exact {call : ElementCall} (h : VectorRun T w A) (hadm : call.Admissible T w) :
    call.Right T w ↔ ∀ n ∈ call.growsTo T w, ¬Relocates T w call.vector n := by
  obtain ⟨own, others, hw⟩ := h.hold
  obtain ⟨xs, -, hc⟩ := hw.focus hadm.1
  rcases hc.cases with ⟨hnull, -, -⟩ | ⟨p, cap, ys, hold, -⟩
  · have hindex := hadm.2.1
    rw [hnull, size_null] at hindex
    exact absurd hindex (Nat.not_lt_zero _)
  · exact call.right_iff hold hadm

/-- Words whose constructors never throw. -/
def calmWordType : ElementType ℕ := ⟨8, 8, 0, id, true, fun _ => false, word_pos, word_align⟩

/-- A full vector of two words, with free bytes behind its storage. -/
def calmWords : VectorWorld ℕ := afterCalls calmWordType [.construct 0, .pushBack 0 5, .pushBack 0 6] wordWorld

theorem calmWords_run : ∃ A, VectorRun calmWordType calmWords A := by
  have h₀ : VectorRun calmWordType wordWorld fun _ => none := .start smallHeap_reachable
  have h₁ := h₀.perform (.construct 0) (by decide +kernel) (by decide +kernel)
  have h₂ := h₁.perform (.pushBack 0 5) (by decide +kernel) (by decide +kernel)
  exact ⟨_, h₂.perform (.pushBack 0 6) (by decide +kernel) (by decide +kernel)⟩

/-- The vector grows in place, and the copy of its last element comes behind it. -/
theorem element_argument_exact_calmWords : ∃ w', ((ElementCall.pushBack 0 1).perform calmWordType).run calmWords = (.ok (), w') ∧
    elements calmWordType w' 0 = [some 5, some 6, some 6] := by
  obtain ⟨A, hrun⟩ := calmWords_run
  have hright := (element_argument_exact hrun (by decide +kernel : (ElementCall.pushBack 0 1).Admissible calmWordType calmWords)).mpr
    (by decide +kernel)
  have hok : (((ElementCall.pushBack 0 1).perform calmWordType).run calmWords).1 = .ok () := by decide +kernel
  have hbefore : elements calmWordType calmWords 0 = [some 5, some 6] := by decide +kernel
  refine ⟨_, Prod.ext hok rfl, ?_⟩
  unfold ElementCall.Right at hright
  rw [show ((ElementCall.pushBack 0 1).perform calmWordType).run calmWords = (.ok (), _) from Prod.ext hok rfl] at hright
  exact hright.trans (by rw [ElementCall.vector, hbefore]; rfl)

/-- The vector of two words, full, with an allocation right behind its storage. -/
def hemmedWords : VectorWorld ℕ := twoWords.withHeap wordType ((twoWords.heap.exec (.allocate 16 16)).getD twoWords.heap)

theorem hemmedWords_run : ∃ A, VectorRun wordType hemmedWords A := by
  obtain ⟨A, hrun, -⟩ := twoWords_run
  have hsome : (twoWords.heap.exec (.allocate 16 16)).isSome = true := by decide +kernel
  obtain ⟨g, hg⟩ := Option.isSome_iff_exists.mp hsome
  have hnext := hrun.elsewhere (.allocate 16 16) (by decide +kernel) trivial hg
  refine ⟨A, ?_⟩
  unfold hemmedWords
  rw [hg]
  exact hnext

/-- `push_back(v[0])` reads an element that has been moved and destroyed. -/
theorem push_back_of_own_element_fails : (∃ A, VectorRun wordType hemmedWords A) ∧
    (ElementCall.pushBack 0 0).Admissible wordType hemmedWords ∧ ¬(ElementCall.pushBack 0 0).Right wordType hemmedWords := by
  refine ⟨hemmedWords_run, by decide +kernel, ElementCall.not_right_of_hangs ?_⟩
  unfold Hangs
  decide +kernel

end ShmNext
