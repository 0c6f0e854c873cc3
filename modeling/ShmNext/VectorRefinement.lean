import ShmNext.VectorOps

/-! Any number of vectors over one segment, next to the sequences they stand for. -/
namespace ShmNext
open Prog

variable {V : Type} {T : ElementType V} {w w' : VectorWorld V} {A : ℕ → Option (List V)} {own : ℕ → List (Region V)}
  {others others' : List (Region V)} {v other n : ℕ} {xs : List V} {g : Heap} {L : List ℕ}

/-- The calls of the class. `emplaceBack` has the value that its arguments construct. -/
inductive VectorCall (V : Type) where
  | construct (v : ℕ)
  | copyConstruct (v other : ℕ)
  | moveConstruct (v other : ℕ)
  | destruct (v : ℕ)
  | pushBack (v : ℕ) (x : V)
  | emplaceBack (v : ℕ) (x : V)
  | popBack (v : ℕ)
  | resize (v count : ℕ)
  | resizeFill (v count : ℕ) (x : V)
  | reserve (v newCapacity : ℕ)
  | clear (v : ℕ)
  | erase (v i : ℕ)
  | copyAssign (v other : ℕ)
  | moveAssign (v other : ℕ)

namespace VectorCall

def perform (T : ElementType V) : VectorCall V → VectorOp V Unit
  | construct v => SharedMemoryVector.construct v
  | copyConstruct v other => SharedMemoryVector.copyConstruct T v other
  | moveConstruct v other => SharedMemoryVector.moveConstruct v other
  | destruct v => SharedMemoryVector.destruct T v
  | pushBack v x => SharedMemoryVector.pushBack T v x
  | emplaceBack v x => SharedMemoryVector.pushBack T v x
  | popBack v => SharedMemoryVector.popBack T v
  | resize v count => SharedMemoryVector.resizeDefault T v count
  | resizeFill v count x => SharedMemoryVector.resizeFill T v count x
  | reserve v newCapacity => SharedMemoryVector.reserve T v newCapacity
  | clear v => SharedMemoryVector.clear T v
  | erase v i => SharedMemoryVector.erase T v i
  | copyAssign v other => SharedMemoryVector.copyAssign T v other
  | moveAssign v other => SharedMemoryVector.moveAssignFrom T v other

/-- What the calls mean for sequences: `A v` is the sequence of the vector `v`, where there is one. -/
def onSequences (T : ElementType V) (A : ℕ → Option (List V)) : VectorCall V → ℕ → Option (List V)
  | construct v => Function.update A v (some [])
  | copyConstruct v other => Function.update A v (A other)
  | moveConstruct v other => Function.update (Function.update A other (some [])) v (A other)
  | destruct v => Function.update A v none
  | pushBack v x => Function.update A v ((A v).map (· ++ [x]))
  | emplaceBack v x => Function.update A v ((A v).map (· ++ [x]))
  | popBack v => Function.update A v ((A v).map List.dropLast)
  | resize v count => Function.update A v ((A v).map (SharedMemoryVector.resizedTo count T.defaultValue))
  | resizeFill v count x => Function.update A v ((A v).map (SharedMemoryVector.resizedTo count x))
  | reserve _ _ => A
  | clear v => Function.update A v ((A v).map fun _ => [])
  | erase v i => Function.update A v ((A v).map (·.eraseIdx i))
  | copyAssign v other => Function.update A v (A other)
  | moveAssign v other => if v = other then A else Function.update (Function.update A other (some [])) v (A other)

open SharedMemoryVector in
/-- What callers keep to: they name vectors that exist, or a new one that does not, and valid
positions; the layout of the storage asked for does not wrap. -/
def Admissible (T : ElementType V) (w : VectorWorld V) : VectorCall V → Prop
  | construct v => v ∉ w.names
  | copyConstruct v other => v ∉ w.names ∧ other ∈ w.names ∧ CapacityFits T w 0 (size T (w.vec other))
  | moveConstruct v other => v ∉ w.names ∧ other ∈ w.names
  | destruct v => v ∈ w.names
  | pushBack v _ => v ∈ w.names ∧
      ((w.vec v).finish = (w.vec v).endOfStorage → CapacityFits T w (w.vec v).start (pushCapacity T (w.vec v)))
  | emplaceBack v _ => v ∈ w.names ∧
      ((w.vec v).finish = (w.vec v).endOfStorage → CapacityFits T w (w.vec v).start (pushCapacity T (w.vec v)))
  | popBack v => v ∈ w.names
  | resize v count => v ∈ w.names ∧ (capacity T (w.vec v) < count → CapacityFits T w (w.vec v).start count)
  | resizeFill v count _ => v ∈ w.names ∧ (capacity T (w.vec v) < count → CapacityFits T w (w.vec v).start count)
  | reserve v newCapacity => v ∈ w.names ∧
      (capacity T (w.vec v) < newCapacity → CapacityFits T w (w.vec v).start newCapacity)
  | clear v => v ∈ w.names
  | erase v i => v ∈ w.names ∧ i ≤ size T (w.vec v)
  | copyAssign v other => v ∈ w.names ∧ other ∈ w.names ∧ CapacityFits T w 0 (size T (w.vec other))
  | moveAssign v other => v ∈ w.names ∧ other ∈ w.names

instance (T : ElementType V) (w : VectorWorld V) (start n : ℕ) : Decidable (SharedMemoryVector.CapacityFits T w start n) :=
  inferInstanceAs (Decidable (_ → _ ∧ _))

instance (T : ElementType V) (w : VectorWorld V) : (call : VectorCall V) → Decidable (call.Admissible T w)
  | .construct _ => inferInstanceAs (Decidable (_ ∉ _))
  | .copyConstruct _ _ | .copyAssign _ _ => inferInstanceAs (Decidable (_ ∧ _ ∧ _))
  | .moveConstruct _ _ | .moveAssign _ _ | .erase _ _ => inferInstanceAs (Decidable (_ ∧ _))
  | .destruct _ | .popBack _ | .clear _ => inferInstanceAs (Decidable (_ ∈ _))
  | .pushBack _ _ | .emplaceBack _ _ | .resize _ _ | .resizeFill _ _ _ | .reserve _ _ =>
    inferInstanceAs (Decidable (_ ∧ (_ → _)))

end VectorCall

/-- Each vector owns its storage and holds its sequence there. The other allocations hold no elements. -/
structure VectorsHold (T : ElementType V) (w : VectorWorld V) (A : ℕ → Option (List V)) (own : ℕ → List (Region V))
    (others : List (Region V)) : Prop where
  nodup : w.names.Nodup
  stores : w.Stores T (w.names.flatMap own ++ others)
  idle : ∀ r ∈ others, r.cells = []
  owns : ∀ v ∈ w.names, ∃ ys, SharedMemoryVector.Owns T (w.vec v) (own v) ys ∧ A v = some (ys.map Prod.snd)
  absent : ∀ v, v ∉ w.names → A v = none

open SharedMemoryVector

namespace VectorsHold

/-- What `v` holds, and what the others own. -/
theorem focus (h : VectorsHold T w A own others) (hv : v ∈ w.names) :
    ∃ xs, A v = some xs ∧ Contains T w v ((w.names.erase v).flatMap own ++ others) xs := by
  obtain ⟨ys, ho, hA⟩ := h.owns v hv
  exact ⟨_, hA, own v, ys, h.stores.focus hv, ho, rfl⟩

theorem reads (h : VectorsHold T w A own others) (hv : v ∈ w.names) (hL : v ∈ L) :
    ∃ xs, A v = some xs ∧ Reads T w v (L.flatMap own ++ others) xs := by
  obtain ⟨ys, ho, hA⟩ := h.owns v hv
  exact ⟨_, hA, own v, ys, ho, fun r hr => List.mem_append_left _ (List.mem_flatMap.mpr ⟨v, hL, hr⟩), rfl⟩

/-- A vector `v` beside those of `L`, whose objects and storage are as they were. -/
theorem assemble (hL : L.Nodup) (hv : v ∉ L) (hc : Contains T w v (L.flatMap own ++ others) xs) (hidle : ∀ r ∈ others, r.cells = [])
    (howns : ∀ u ∈ L, ∃ ys, Owns T (w.vec u) (own u) ys ∧ A u = some (ys.map Prod.snd)) (hnames : w.names.Perm (v :: L))
    (habs : ∀ u, u ≠ v → u ∉ L → A u = none) : ∃ own', VectorsHold T w (Function.update A v (some xs)) own' others := by
  obtain ⟨mine, ys, hst, ho, rfl⟩ := hc
  obtain ⟨hnodup, hstores, hown, hnone⟩ := hst.assemble (P := fun u rs m => ∃ ys, Owns T (w.vec u) rs ys ∧ m = some (ys.map Prod.snd))
    hL hv hnames ⟨ys, ho, rfl⟩ howns habs
  exact ⟨_, hnodup, hstores, hidle, hown, hnone⟩

theorem not_mem_erase (h : VectorsHold T w A own others) : v ∉ w.names.erase v := h.nodup.not_mem_erase

/-- A call that changes the vector `v` and its storage only. -/
theorem beside (h : VectorsHold T w A own others) (hv : v ∈ w.names) (hc : Contains T w' v ((w.names.erase v).flatMap own ++ others) xs)
    (hb : Beside v w w') : ∃ own', VectorsHold T w' (Function.update A v (some xs)) own' others := by
  refine assemble (h.nodup.erase v) h.not_mem_erase hc h.idle (fun u hu => ?_) ?_ fun u hu hu' => ?_
  · have hne : u ≠ v := fun heq => h.not_mem_erase (heq ▸ hu)
    rw [hb.vec_eq u hne]
    exact h.owns u (List.mem_of_mem_erase hu)
  · rw [hb.names_eq]
    exact List.perm_cons_erase hv
  · exact h.absent u fun hm => hu' ((List.mem_erase_of_ne hu).mpr hm)

theorem beside_same (h : VectorsHold T w A own others) (hv : v ∈ w.names) (hA : A v = some xs)
    (hc : Contains T w' v ((w.names.erase v).flatMap own ++ others) xs) (hb : Beside v w w') : ∃ own', VectorsHold T w' A own' others := by
  obtain ⟨own', h'⟩ := h.beside hv hc hb
  rw [← hA, Function.update_eq_self] at h'
  exact ⟨own', h'⟩

/-- A call on `v` alone: what it does to the sequence of `v` is what it means. -/
theorem ends_on (h : VectorsHold T w A own others) (hv : v ∈ w.names) {p : VectorOp V Unit} {f : List V → List V}
    (hp : ∀ rest xs, A v = some xs → Contains T w v rest xs → p.Ends w (fun _ w' => Contains T w' v rest (f xs) ∧ Beside v w w')
      fun _ w' => Contains T w' v rest xs ∧ Beside v w w') :
    p.Ends w (fun _ w' => ∃ own', VectorsHold T w' (Function.update A v ((A v).map f)) own' others)
      fun _ w' => ∃ own', VectorsHold T w' A own' others := by
  obtain ⟨xs, hA, hc⟩ := h.focus hv
  refine (hp _ xs hA hc).mono ?_ ?_
  · rintro _ w' ⟨hc', hb⟩
    rw [hA]
    exact h.beside hv hc' hb
  · rintro _ w' ⟨hc', hb⟩
    exact h.beside_same hv hA hc' hb

theorem size_eq (h : VectorsHold T w A own others) (hv : v ∈ w.names) (hA : A v = some xs) : size T (w.vec v) = xs.length := by
  obtain ⟨ys, ho, hA'⟩ := h.owns v hv
  obtain rfl := Option.some.inj (hA.symm.trans hA')
  rw [ho.size_eq, List.length_map]

/-- The vectors of `L` in a world in which the storage of all of them is there. -/
def OwnAll (T : ElementType V) (w : VectorWorld V) (A : ℕ → Option (List V)) (own : ℕ → List (Region V)) (L : List ℕ) : Prop :=
  ∀ u ∈ L, ∃ ys, Owns T (w.vec u) (own u) ys ∧ A u = some (ys.map Prod.snd)

/-- The members of `other` are taken over by `v`, which has none of the storage of `L`. -/
theorem ends_take (hL : L.Nodup) (hv : v ∉ L) (hother : other ∈ L) (hst : w.Stores T (L.flatMap own ++ others))
    (howns : OwnAll T w A own L) {E : VectorThrown → VectorWorld V → Prop} :
    (takeFrom v other).Ends w (fun _ w' => w'.names = w.names ∧ ∃ xs own', A other = some xs ∧
      Contains T w' v (L.flatMap own' ++ others) xs ∧ OwnAll T w' (Function.update A other (some [])) own' L) E := by
  have hne : other ≠ v := fun heq => hv (heq ▸ hother)
  obtain ⟨ys, ho, hA⟩ := howns other hother
  have hperm := (List.perm_cons_erase hother).flatMap_right own
  rw [List.flatMap_cons] at hperm
  have hall := hperm.append_right others
  rw [List.append_assoc] at hall
  refine (ends_takeFrom (hst.perm hall) ho hne).mono ?_ fun _ _ he => he
  rintro _ w' ⟨hst', ho', hnull, hvec, hnames⟩
  refine ⟨hnames, _, Function.update own other [], hA, ⟨own other, ys, ?_, ho', rfl⟩, fun u hu => ?_⟩
  · have hsame : (L.erase other).flatMap (Function.update own other []) = (L.erase other).flatMap own :=
      List.flatMap_congr fun u hu => Function.update_of_ne (fun heq => hL.not_mem_erase (heq ▸ hu)) _ _
    have hperm' := (List.perm_cons_erase hother).flatMap_right (Function.update own other [])
    rw [List.flatMap_cons, Function.update_self, List.nil_append, hsame] at hperm'
    exact hst'.perm (List.Perm.append_left _ (hperm'.symm.append_right others))
  · by_cases hu' : u = other
    · subst hu'
      rw [Function.update_self, Function.update_self, hnull]
      exact ⟨[], .null, rfl⟩
    · rw [Function.update_of_ne hu', Function.update_of_ne hu', hvec u (fun heq => hv (heq ▸ hu)) hu']
      exact howns u hu

/-- One call, whether it returns or throws. -/
theorem ends_perform (h : VectorsHold T w A own others) (call : VectorCall V) (hadm : call.Admissible T w) :
    (call.perform T).Ends w (fun _ w' => ∃ own', VectorsHold T w' (call.onSequences T A) own' others)
      fun _ w' => ∃ own', VectorsHold T w' A own' others := by
  cases call with
  | construct v =>
    have hstores := h.stores
    refine (ends_setNull (Q := fun _ w' => w'.Stores T (w.names.flatMap own ++ others) ∧ w'.vec v = .null ∧ Beside v w w')
      ⟨hstores, Function.update_self .., beside_update _ _ _⟩).bind ?_
    rintro _ w₁ ⟨h₁, hv₁, hb₁⟩
    apply ends_store
    refine assemble h.nodup hadm (contains_null hv₁ h₁) h.idle (fun u hu => ?_) ?_ fun u _ hu => h.absent u hu
    · dsimp only
      rw [hb₁.vec_eq u fun heq => hadm (heq ▸ hu)]
      exact h.owns u hu
    · rw [← hb₁.names_eq]
  | copyConstruct v other =>
    obtain ⟨hv, hother, hfits⟩ := hadm
    obtain ⟨zs, hA, hr⟩ := h.reads hother hother
    rw [h.size_eq hother hA] at hfits
    have hne : other ≠ v := fun heq => hv (heq ▸ hother)
    refine (ends_copyConstruct h.stores hr hne hfits).mono ?_ ?_
    · rintro _ w' ⟨hc, hvec, hnames⟩
      dsimp only [VectorCall.onSequences]
      rw [hA]
      refine assemble h.nodup hv hc h.idle (fun u hu => ?_) (by rw [hnames]) fun u _ hu => h.absent u hu
      rw [hvec u fun heq => hv (heq ▸ hu)]
      exact h.owns u hu
    · rintro _ w' ⟨hst, hb⟩
      refine ⟨own, by rw [hb.names_eq]; exact h.nodup, by rw [hb.names_eq]; exact hst, h.idle, fun u hu => ?_, by rw [hb.names_eq]; exact h.absent⟩
      rw [hb.names_eq] at hu
      rw [hb.vec_eq u fun heq => hv (heq ▸ hu)]
      exact h.owns u hu
  | moveConstruct v other =>
    obtain ⟨hv, hother⟩ := hadm
    -- the new vector takes the members of the other, which is left as one without storage
    refine (ends_take h.nodup hv hother h.stores h.owns).bind ?_
    rintro _ w₁ ⟨hnames, xs, own', hA, hc, howns⟩
    dsimp only [VectorCall.onSequences]
    rw [hA]
    apply ends_store
    refine assemble h.nodup hv hc h.idle howns (by rw [hnames]) fun u hu hu' => ?_
    have hne : u ≠ other := fun heq => hu' (heq ▸ hother)
    rw [Function.update_of_ne hne]
    exact h.absent u hu'
  | destruct v =>
    obtain ⟨xs, hA, hc⟩ := h.focus hadm
    refine (ends_destruct hc).mono ?_ fun _ _ he => he
    rintro _ w' ⟨hst, hvec, hnames⟩
    refine ⟨own, by rw [hnames]; exact h.nodup.erase v, by rw [hnames]; exact hst, h.idle, fun u hu => ?_, fun u hu => ?_⟩
    · rw [hnames] at hu
      have hne : u ≠ v := fun heq => h.not_mem_erase (heq ▸ hu)
      rw [hvec u hne]
      dsimp only [VectorCall.onSequences]
      rw [Function.update_of_ne hne]
      exact h.owns u (List.mem_of_mem_erase hu)
    · dsimp only [VectorCall.onSequences]
      by_cases huv : u = v
      · rw [huv]
        exact Function.update_self ..
      · rw [Function.update_of_ne huv]
        rw [hnames] at hu
        exact h.absent u fun hm => hu ((List.mem_erase_of_ne huv).mpr hm)
  | pushBack v x => exact h.ends_on hadm.1 fun rest xs _ hc => ends_pushBack hc hadm.2
  | emplaceBack v x => exact h.ends_on hadm.1 fun rest xs _ hc => ends_pushBack hc hadm.2
  | popBack v => exact h.ends_on hadm fun rest xs _ hc => ends_popBack_contains hc
  | resize v count => exact h.ends_on hadm.1 fun rest xs _ hc => ends_resizeFill hc hadm.2
  | resizeFill v count x => exact h.ends_on hadm.1 fun rest xs _ hc => ends_resizeFill hc hadm.2
  | reserve v newCapacity =>
    have hon := h.ends_on (f := id) hadm.1 fun rest xs _ hc => ends_reserve hc hadm.2
    rw [Option.map_id, id, Function.update_eq_self] at hon
    exact hon
  | clear v => exact h.ends_on hadm fun rest xs _ hc => ends_clear_contains hc
  | erase v i =>
    refine h.ends_on hadm.1 fun rest xs hA hc => ends_erase hc ?_
    rw [← h.size_eq hadm.1 hA]
    exact hadm.2
  | copyAssign v other =>
    obtain ⟨hv, hother, hfits⟩ := hadm
    dsimp only [VectorCall.perform, VectorCall.onSequences]
    unfold SharedMemoryVector.copyAssign
    by_cases heq : v = other
    · subst heq
      rw [if_pos rfl, Function.update_eq_self]
      exact ends_pure ⟨own, h⟩
    rw [if_neg heq]
    obtain ⟨xs, hA, hc⟩ := h.focus hv
    obtain ⟨zs, hA', hr⟩ := h.reads hother ((List.mem_erase_of_ne (Ne.symm heq)).mpr hother)
    rw [h.size_eq hother hA'] at hfits
    rw [hA']
    refine (ends_assignFrom hc hr hfits).mono ?_ ?_
    · exact fun _ w' ⟨hc', hb⟩ => h.beside hv hc' hb
    · exact fun _ w' ⟨hc', hb⟩ => h.beside_same hv hA hc' hb
  | moveAssign v other =>
    obtain ⟨hv, hother⟩ := hadm
    dsimp only [VectorCall.perform, VectorCall.onSequences]
    unfold SharedMemoryVector.moveAssignFrom
    by_cases heq : v = other
    · rw [if_pos heq, if_pos heq]
      exact ends_pure ⟨own, h⟩
    rw [if_neg heq, if_neg heq]
    obtain ⟨xs, hA, mine, ys, hst, ho, -⟩ := h.focus hv
    -- the old storage is returned before the members are taken
    refine (ends_releaseStorage hst ho).bind ?_
    rintro _ w₁ ⟨h₁, -, hb₁⟩
    have howns : OwnAll T w₁ A own (w.names.erase v) := by
      intro u hu
      rw [hb₁.vec_eq u fun heq => h.not_mem_erase (heq ▸ hu)]
      exact h.owns u (List.mem_of_mem_erase hu)
    have hmem := (List.mem_erase_of_ne (Ne.symm heq)).mpr hother
    refine (ends_take (h.nodup.erase v) h.not_mem_erase hmem h₁ howns).mono ?_ fun _ _ he => he
    rintro _ w₂ ⟨hnames, zs, own', hA', hc, howns'⟩
    rw [hA']
    refine assemble (h.nodup.erase v) h.not_mem_erase hc h.idle howns' ?_ fun u hu hu' => ?_
    · rw [hnames, hb₁.names_eq]
      exact List.perm_cons_erase hv
    · have hne : u ≠ other := fun heq => hu' (heq ▸ hmem)
      rw [Function.update_of_ne hne]
      exact h.absent u fun hm => hu' ((List.mem_erase_of_ne hu).mpr hm)

end VectorsHold

/-- A call of somebody else does not touch the storage of the vectors. -/
def Foreign (w : VectorWorld V) : Call → Prop
  | .deallocate p => ∀ v ∈ w.names, (w.vec v).start ≠ p
  | .deallocateMany ps => ∀ v ∈ w.names, (w.vec v).start ∉ ps
  | .tryExpand p n al => (∀ v ∈ w.names, (w.vec v).start ≠ p) ∧ ExpandsApart w.heap.alloc w.heap.live p n al
  | .userWrite x _ => ∀ v ∈ w.names, x < (w.vec v).start ∨ (w.vec v).endOfStorage ≤ x
  | _ => True

theorem VectorsHold.elsewhere {call : Call} (h : VectorsHold T w A own others) (hadm : w.heap.Admissible call)
    (hforeign : Foreign w call) (hexec : w.heap.exec call = some g) :
    ∃ others', VectorsHold T (w.withHeap T g) A own others' := by
  have hstored : Stored T.sizeofT w.heap w.objects (w.names.flatMap own) := h.stores.toStored.dropIdle h.idle
  obtain ⟨bs, l, hinv⟩ := hstored.heap
  refine ⟨unownedRegions g (w.names.flatMap own), h.nodup, ?_, fun r hr => ?_, h.owns, h.absent⟩
  rotate_left
  · obtain ⟨a, -, rfl⟩ := List.mem_map.mp hr
    rfl
  refine Stored.exactly (hstored.reheap (hinv.step hadm hexec).1 fun r hr a ha hb => ?_)
  -- the region is the storage of one of the vectors
  obtain ⟨v, hv, hrv⟩ := List.mem_flatMap.mp hr
  obtain ⟨ys, ho, -⟩ := h.owns v hv
  have hplace : (w.vec v).start = a.payload ∧ (w.vec v).endOfStorage = a.payload+a.size := by
    obtain ⟨a', ha', hb', hs'⟩ := hstored.live r hr
    obtain rfl := hinv.payload_unique ha ha' (hb.trans hb'.symm)
    generalize w.vec v = x at ho
    generalize own v = o at ho hrv
    cases ho with
    | null => cases hrv
    | storage =>
      obtain rfl := List.mem_singleton.mp hrv
      exact ⟨hb.symm, by rw [hb, hs']⟩
  refine Heap.exec_keeps ⟨bs, l, hinv⟩ hadm hexec ha ?_ ?_ ?_
  · intro hfree
    cases call with
    | deallocate p => exact hforeign v hv (hplace.1.trans hfree)
    | deallocateMany ps => exact hforeign v hv (hplace.1 ▸ hfree)
    | _ => exact hfree
  · rintro p n al rfl
    exact ⟨fun heq => hforeign.1 v hv (hplace.1.trans heq), hforeign.2⟩
  · rintro x b rfl
    have := hforeign v hv
    rwa [hplace.1, hplace.2] at this

/-- The runs: vector calls in any order, each returning or throwing, and calls of others between
them, from a segment without vectors. -/
inductive VectorRun (T : ElementType V) : VectorWorld V → (ℕ → Option (List V)) → Prop
  | start {g : Heap} {vec : ℕ → SharedMemoryVector} (hg : Reachable g) : VectorRun T ⟨g, .empty, vec, []⟩ fun _ => none
  | returns {w w' : VectorWorld V} {A : ℕ → Option (List V)} (call : VectorCall V) (h : VectorRun T w A)
      (hadm : call.Admissible T w) (hrun : (call.perform T).run w = (.ok (), w')) : VectorRun T w' (call.onSequences T A)
  | throws {w w' : VectorWorld V} {A : ℕ → Option (List V)} {e : VectorThrown} (call : VectorCall V) (h : VectorRun T w A)
      (hadm : call.Admissible T w) (hrun : (call.perform T).run w = (.error e, w')) : VectorRun T w' A
  | elsewhere {w : VectorWorld V} {A : ℕ → Option (List V)} {g : Heap} (call : Call) (h : VectorRun T w A)
      (hadm : w.heap.Admissible call) (hforeign : Foreign w call) (hexec : w.heap.exec call = some g) :
      VectorRun T (w.withHeap T g) A

theorem VectorRun.hold (h : VectorRun T w A) : ∃ own others, VectorsHold T w A own others := by
  induction h with
  | start hg =>
    have hstored : Stored T.sizeofT _ Objects.empty ([] : List (Region V)) :=
      ⟨hg.inv, fun r hr => (by cases hr), List.nodup_nil, fun r hr => (by cases hr), fun r hr => (by cases hr),
        fun q y hq => (by cases hq), Objects.accounted_empty⟩
    refine ⟨fun _ => [], unownedRegions _ [], List.nodup_nil, hstored.exactly, fun r hr => ?_, fun v hv => (by cases hv),
      fun _ _ => rfl⟩
    · obtain ⟨a, -, rfl⟩ := List.mem_map.mp hr
      rfl
  | returns call _ hadm hrun ih =>
    obtain ⟨own, others, hw⟩ := ih
    have hends := hw.ends_perform call hadm
    unfold Ends at hends
    rw [hrun] at hends
    obtain ⟨own', hw'⟩ := hends
    exact ⟨own', others, hw'⟩
  | throws call _ hadm hrun ih =>
    obtain ⟨own, others, hw⟩ := ih
    have hends := hw.ends_perform call hadm
    unfold Ends at hends
    rw [hrun] at hends
    obtain ⟨own', hw'⟩ := hends
    exact ⟨own', others, hw'⟩
  | elsewhere call _ hadm hforeign hexec ih =>
    obtain ⟨own, others, hw⟩ := ih
    exact ⟨own, hw.elsewhere hadm hforeign hexec⟩

/-- What the slots from `start` to `finish` hold. -/
def elements (T : ElementType V) (w : VectorWorld V) (v : ℕ) : List (Option V) :=
  (List.range (size T (w.vec v))).map fun i => (w.objects.slot ((w.vec v).start+i*T.sizeofT)).map Prod.snd

theorem SharedMemoryVector.Contains.elements_eq {rest : List (Region V)} (h : Contains T w v rest xs) :
    elements T w v = xs.map some := by
  unfold elements
  rcases h.cases with ⟨hnull, -, rfl⟩ | ⟨p, cap, ys, hw, rfl⟩
  · rw [hnull]
    rfl
  · apply List.ext_getElem?
    intro i
    rw [hw.size_eq, List.getElem?_map, List.getElem?_map, List.getElem?_map]
    by_cases hi : i < ys.length
    · rw [List.getElem?_range hi, List.getElem?_eq_getElem hi]
      have hslot := slot_of_cell hw.stores List.mem_cons_self (List.getElem?_eq_getElem hi)
      rw [hw.vec_eq]
      exact congrArg (fun y => some (Option.map Prod.snd y)) hslot
    · rw [List.getElem?_eq_none (by simpa using hi), List.getElem?_eq_none (by omega)]
      rfl

namespace VectorsHold

theorem elements_eq (h : VectorsHold T w A own others) (hv : v ∈ w.names) (hA : A v = some xs) :
    elements T w v = xs.map some := by
  obtain ⟨xs', hA', hc⟩ := h.focus hv
  obtain rfl := Option.some.inj (hA.symm.trans hA')
  exact hc.elements_eq

/-- The slots with an object are those of the elements. -/
theorem slot_isSome_iff (h : VectorsHold T w A own others) (q : ℕ) : (w.objects.slot q).isSome = true ↔
    ∃ v ∈ w.names, ∃ i < size T (w.vec v), q = (w.vec v).start+i*T.sizeofT := by
  have hst : Stored T.sizeofT w.heap w.objects (w.names.flatMap own) := h.stores.toStored.dropIdle h.idle
  constructor
  · intro hq
    obtain ⟨y, hy⟩ := Option.isSome_iff_exists.mp hq
    obtain ⟨r, hr, h1, h2⟩ := hst.outside q y hy
    obtain ⟨v, hv, hrv⟩ := List.mem_flatMap.mp hr
    rw [hst.filled r hr q h1 h2] at hy
    obtain ⟨i, rfl, hi⟩ := cellAt_some hy
    obtain ⟨ys, ho, -⟩ := h.owns v hv
    have hsize := ho.size_eq
    generalize own v = o at ho hrv
    refine ⟨v, hv, i, ?_, ?_⟩
    · rw [hsize]
      generalize w.vec v = x at ho
      cases ho with
      | null => cases hrv
      | storage =>
        obtain rfl := List.mem_singleton.mp hrv
        exact (List.getElem?_eq_some_iff.mp hi).1
    · generalize w.vec v = x at ho
      cases ho with
      | null => cases hrv
      | storage =>
        obtain rfl := List.mem_singleton.mp hrv
        rfl
  · rintro ⟨v, hv, i, hi, rfl⟩
    obtain ⟨xs, -, hc⟩ := h.focus hv
    rcases hc.cases with ⟨hnull, -, -⟩ | ⟨p, cap, ys, hw, -⟩
    · rw [hnull, size_null] at hi
      exact absurd hi (Nat.not_lt_zero i)
    · rw [hw.size_eq] at hi
      rw [hw.vec_eq]
      exact Option.isSome_iff_exists.mpr ⟨_, slot_of_cell hw.stores List.mem_cons_self (List.getElem?_eq_getElem hi)⟩

/-- The three pointers are in order, and the block of the storage has been asked for with the capacity. -/
theorem storage_exact (h : VectorsHold T w A own others) (hv : v ∈ w.names) :
    (w.vec v).start ≤ (w.vec v).finish ∧ (w.vec v).finish ≤ (w.vec v).endOfStorage ∧
      ((w.vec v).start ≠ 0 → (allocationSize (w.vec v).start).run w.heap.alloc =
        (.ok (capacity T (w.vec v)*T.sizeofT), w.heap.alloc)) := by
  obtain ⟨xs, -, hc⟩ := h.focus hv
  rcases hc.cases with ⟨hnull, -, -⟩ | ⟨p, cap, ys, hw, -⟩
  · rw [hnull]
    exact ⟨le_rfl, le_rfl, fun hne => absurd rfl hne⟩
  · have hle := Nat.mul_le_mul_right T.sizeofT hw.length_le
    rw [hw.capacity_eq, hw.vec_eq]
    refine ⟨Nat.le_add_right _ _, Nat.add_le_add_left hle p, fun _ => ?_⟩
    obtain ⟨bs, l, hinv⟩ := hw.stores.heap
    obtain ⟨a, ha, hb, hs⟩ := hw.stores.live _ List.mem_cons_self
    have hrun := hinv.run_allocationSize ha
    rw [hb, hs] at hrun
    exact hrun

end VectorsHold

theorem VectorRun.perform (h : VectorRun T w A) (call : VectorCall V) (hadm : call.Admissible T w)
    (hok : ((call.perform T).run w).1 = .ok ()) : VectorRun T ((call.perform T).run w).2 (call.onSequences T A) :=
  .returns call h hadm (Prod.ext hok rfl)

/-- Words of eight bytes. The third constructor call throws. -/
def wordType : ElementType ℕ := ⟨8, 8, 0, id, true, fun k => k == 2, word_pos, word_align⟩

/-- The small segment without vectors. -/
def wordWorld : VectorWorld ℕ := ⟨smallHeap, .empty, fun _ => .null, []⟩

def afterCalls (T : ElementType V) (calls : List (VectorCall V)) (w : VectorWorld V) : VectorWorld V :=
  calls.foldl (fun w call => ((call.perform T).run w).2) w

/-- A vector of two words, which has grown in place. -/
def twoWords : VectorWorld ℕ := afterCalls wordType [.construct 0, .pushBack 0 5, .pushBack 0 6] wordWorld

theorem twoWords_run : ∃ A, VectorRun wordType twoWords A ∧ A 0 = some [5, 6] := by
  have h₀ : VectorRun wordType wordWorld fun _ => none := .start smallHeap_reachable
  have h₁ := h₀.perform (.construct 0) (by decide +kernel) (by decide +kernel)
  have h₂ := h₁.perform (.pushBack 0 5) (by decide +kernel) (by decide +kernel)
  have h₃ := h₂.perform (.pushBack 0 6) (by decide +kernel) (by decide +kernel)
  exact ⟨_, h₃, rfl⟩

end ShmNext
