import ShmNext.ListCalls

/-! Any number of lists over one segment, next to the sequences they stand for. -/
namespace ShmNext
open Prog NodeOp SharedMemoryList

/-- The calls of the class. Places are numbered from `begin()`; the copy of a copy assignment is the local `tmp`. -/
inductive ListCall (E : Type) where
  | construct (v : ℕ)
  | constructCount (v count : ℕ)
  | constructFill (v count : ℕ) (x : E)
  | constructRange (v : ℕ) (xs : List E)
  | copyConstruct (v other : ℕ)
  | moveConstruct (v other : ℕ)
  | destruct (v : ℕ)
  | copyAssign (v other tmp : ℕ)
  | moveAssign (v other : ℕ)
  | edit (v : ℕ) (e : ListEdit E)
  | insertFrom (v i other j k : ℕ)
  | splice (v i other : ℕ)
  | spliceOne (v i other j : ℕ)
  | spliceRange (v i other j k : ℕ)
  | swap (v other : ℕ)
  | sort (v : ℕ) (comp : E → E → Bool) (S : StableSort (BaseNode × E) (byValue comp))
  | merge (v other : ℕ) (comp : E → E → Bool) (S : StableSort (BaseNode × E) (byValue comp))

variable {E : Type} {T : ListType E} {w w' t : ListWorld E} {v other i j k n p : ℕ} {F : NodeThrown → ListWorld E → Prop}
  {A A' : ℕ → List (ℕ × E)} {own : ℕ → List ℕ} {others : List (ℕ × ℕ)} {as bs xs : List (ℕ × E)} {tidy : Prop} {ns : List ℕ}

namespace ListCall
variable (T : ListType E)

def perform : ListCall E → ListOp E Unit
  | construct v => SharedMemoryList.construct v
  | constructCount v count => SharedMemoryList.constructCount T v count
  | constructFill v count x => SharedMemoryList.constructFill T v count x
  | constructRange v xs => SharedMemoryList.constructRange T v xs
  | copyConstruct v other => SharedMemoryList.copyConstruct T v other
  | moveConstruct v other => SharedMemoryList.moveConstruct v other
  | destruct v => SharedMemoryList.destruct T v
  | copyAssign v other tmp => SharedMemoryList.copyAssign T v other tmp
  | moveAssign v other => SharedMemoryList.moveAssign T v other
  | edit v e => e.perform T v
  | insertFrom v i other j k => do
    let pos ← position v i
    let first ← position other j
    let last ← position other k
    SharedMemoryList.insertFrom T v pos last walkFuel first
  | splice v i other => do
    let pos ← position v i
    SharedMemoryList.splice v pos other
  | spliceOne v i other j => do
    let pos ← position v i
    let it ← position other j
    SharedMemoryList.spliceOne v pos other it
  | spliceRange v i other j k => do
    let pos ← position v i
    let first ← position other j
    let last ← position other k
    SharedMemoryList.spliceRange v pos other first last
  | swap v other => SharedMemoryList.swap v other
  | sort v _ S => SharedMemoryList.sort v S
  | merge v other _ S => SharedMemoryList.merge v other S

/-- What callers keep to: they name lists that exist, or a new one that does not, and places that are there; a node more would
not reach the end of the address space. -/
def Admissible (w : ListWorld E) : ListCall E → Prop
  | construct v => v ∉ w.names
  | constructCount v _ | constructFill v _ _ | constructRange v _ => v ∉ w.names ∧ AddressRoom w.heap T.sizeofNode T.alignofNode
  | copyConstruct v other => v ∉ w.names ∧ other ∈ w.names ∧ AddressRoom w.heap T.sizeofNode T.alignofNode
  | moveConstruct v other => v ∉ w.names ∧ other ∈ w.names
  | destruct v => v ∈ w.names
  | copyAssign v other tmp => v ∈ w.names ∧ other ∈ w.names ∧
      (v ≠ other → tmp ∉ w.names ∧ AddressRoom w.heap T.sizeofNode T.alignofNode)
  | moveAssign v other | swap v other | merge v other _ _ => v ∈ w.names ∧ other ∈ w.names
  | edit v e => v ∈ w.names ∧ e.InRange (w.obj v).size ∧ (e.creates = true → AddressRoom w.heap T.sizeofNode T.alignofNode)
  | insertFrom v i other j k => v ∈ w.names ∧ other ∈ w.names ∧ other ≠ v ∧ i ≤ (w.obj v).size ∧ j ≤ k ∧ k ≤ (w.obj other).size ∧
      AddressRoom w.heap T.sizeofNode T.alignofNode
  | splice v i other => v ∈ w.names ∧ other ∈ w.names ∧ i ≤ (w.obj v).size
  | spliceOne v i other j => v ∈ w.names ∧ other ∈ w.names ∧ i ≤ (w.obj v).size ∧ j ≤ (w.obj other).size
  | spliceRange v i other j k => v ∈ w.names ∧ other ∈ w.names ∧ i ≤ (w.obj v).size ∧ j ≤ k ∧ k ≤ (w.obj other).size
  | sort v _ _ => v ∈ w.names

/-- No node goes from one list to another and leaves its pool behind. -/
def Tidy (w : ListWorld E) : ListCall E → Prop
  | splice v _ other | merge v other _ _ => v = other ∨ (w.obj other).size = 0
  | spliceOne v _ other j => v = other ∨ j = (w.obj other).size
  | spliceRange v _ other j k => v = other ∨ j = k
  | _ => True

/-- The lists that there are then. -/
def onNames (ns : List ℕ) : ListCall E → List ℕ
  | construct v | constructCount v _ | constructFill v _ _ | constructRange v _ | copyConstruct v _ | moveConstruct v _ => v :: ns
  | destruct v => ns.erase v
  | _ => ns

/-- New nodes with `values` stand between `as` and `bs` in the list `v`. -/
def Makes (A A' : ℕ → List (ℕ × E)) (v : ℕ) (as : List (ℕ × E)) (values : List E) (bs : List (ℕ × E)) : Prop :=
  ∃ new, new.map Prod.snd = values ∧ A' = Function.update A v (as ++ (new ++ bs))

/-- The nodes of the lists once the call has returned. -/
def Effect (A A' : ℕ → List (ℕ × E)) : ListCall E → Prop
  | construct v => A' = Function.update A v []
  | constructCount v count => Makes A A' v [] (List.replicate count T.default) []
  | constructFill v count x => Makes A A' v [] (List.replicate count x) []
  | constructRange v xs => Makes A A' v [] xs []
  | copyConstruct v other => Makes A A' v [] ((A other).map Prod.snd) []
  | moveConstruct v other => A' = takenOver A v other
  | destruct _ => A' = A
  | copyAssign v other _ => if v = other then A' = A else Makes A A' v [] ((A other).map Prod.snd) []
  | moveAssign v other => A' = if v = other then A else takenOver A v other
  | edit v e => ∃ xs', e.Effect T (A v) xs' ∧ A' = Function.update A v xs'
  | insertFrom v i other j k => Makes A A' v ((A v).take i) ((slice (A other) j k).map Prod.snd) ((A v).drop i)
  | splice v i other => A' = spliced A v other i 0 (A other).length
  | spliceOne v i other j => A' = spliced A v other i j (j+1)
  | spliceRange v i other j k => A' = spliced A v other i j k
  | swap v other => A' = exchanged A v other
  | sort v comp _ => A' = Function.update A v (sortedBy comp (A v))
  | merge v other comp _ => A' = merged comp A v other

/-- The nodes of the lists where a call has thrown: of the nodes that were to come in only the first few are there. A call that
makes no node and calls no comparison throws nothing. -/
def OnFailure (A A' : ℕ → List (ℕ × E)) : ListCall E → Prop
  | edit v e => ∃ xs', e.OnFailure T (A v) xs' ∧ A' = Function.update A v xs'
  | insertFrom v i other j k => ∃ values, (values <+: (slice (A other) j k).map Prod.snd ∧ values.length < (slice (A other) j k).length) ∧
      Makes A A' v ((A v).take i) values ((A v).drop i)
  | construct _ | moveConstruct _ _ | destruct _ | moveAssign _ _ | splice _ _ _ | spliceOne _ _ _ _ | spliceRange _ _ _ _ _ |
    swap _ _ => False
  | _ => A' = A

/-- What the call means for the sequences of values. -/
def onValues (V : ℕ → List E) : ListCall E → ℕ → List E
  | construct v => Function.update V v []
  | constructCount v count => Function.update V v (List.replicate count T.default)
  | constructFill v count x => Function.update V v (List.replicate count x)
  | constructRange v xs => Function.update V v xs
  | copyConstruct v other | copyAssign v other _ => Function.update V v (V other)
  | moveConstruct v other => takenOver V v other
  | destruct _ => V
  | moveAssign v other => if v = other then V else takenOver V v other
  | edit v e => Function.update V v (e.onValues T (V v))
  | insertFrom v i other j k => Function.update V v ((V v).take i ++ (slice (V other) j k ++ (V v).drop i))
  | splice v i other => spliced V v other i 0 (V other).length
  | spliceOne v i other j => spliced V v other i j (j+1)
  | spliceRange v i other j k => spliced V v other i j k
  | swap v other => exchanged V v other
  | sort v comp _ => Function.update V v ((V v).mergeSort fun a b => !comp b a)
  | merge v other comp _ =>
    if v = other ∨ V other = [] then V
    else Function.update (Function.update V other []) v ((V v ++ V other).mergeSort fun a b => !comp b a)

end ListCall

/-- The values of the nodes. -/
def valuesOf (A : ℕ → List (ℕ × E)) (v : ℕ) : List E := (A v).map Prod.snd

@[simp] theorem valuesOf_update (A : ℕ → List (ℕ × E)) (v : ℕ) (xs : List (ℕ × E)) :
    valuesOf (Function.update A v xs) = Function.update (valuesOf A) v (xs.map Prod.snd) := by
  funext u
  unfold valuesOf
  by_cases hu : u = v
  · subst hu
    rw [Function.update_self, Function.update_self]
  · rw [Function.update_of_ne hu, Function.update_of_ne hu]

theorem valuesOf_spliced (A : ℕ → List (ℕ × E)) (v other i j k : ℕ) : valuesOf (spliced A v other i j k) = spliced (valuesOf A) v other i j k :=
  funext fun u => map_spliced Prod.snd A v other i j k u

theorem map_sortedBy (comp : E → E → Bool) (xs : List (ℕ × E)) : (sortedBy comp xs).map Prod.snd = (xs.map Prod.snd).mergeSort fun a b => !comp b a := by
  unfold sortedBy
  rw [List.map_mergeSort]
  exact fun _ _ _ _ => rfl

theorem ListCall.Makes.values_eq {values : List E} (h : ListCall.Makes A A' v as values bs) :
    valuesOf A' = Function.update (valuesOf A) v (as.map Prod.snd ++ (values ++ bs.map Prod.snd)) := by
  obtain ⟨new, rfl, rfl⟩ := h
  rw [valuesOf_update, List.map_append, List.map_append]

/-- What is done to the nodes is done to their values. -/
theorem ListCall.Effect.values_eq {call : ListCall E} (h : call.Effect T A A') : valuesOf A' = call.onValues T (valuesOf A) := by
  cases call with
  | construct v =>
    obtain rfl := h
    exact valuesOf_update ..
  | constructCount v count => exact (Makes.values_eq h).trans (by simp [onValues])
  | constructFill v count x => exact (Makes.values_eq h).trans (by simp [onValues])
  | constructRange v xs => exact (Makes.values_eq h).trans (by simp [onValues])
  | copyConstruct v other => exact (Makes.values_eq h).trans (by simp [onValues, valuesOf])
  | moveConstruct v other =>
    obtain rfl := h
    unfold takenOver
    rw [valuesOf_update, valuesOf_update]
    rfl
  | destruct v => exact congrArg valuesOf h
  | copyAssign v other tmp =>
    unfold Effect at h
    dsimp only at h
    by_cases heq : v = other
    · rw [if_pos heq] at h
      subst h heq
      exact (Function.update_eq_self ..).symm
    · rw [if_neg heq] at h
      exact h.values_eq.trans (by simp [onValues, valuesOf])
  | moveAssign v other =>
    obtain rfl := h
    unfold onValues
    dsimp only
    by_cases heq : v = other
    · rw [if_pos heq, if_pos heq]
    · rw [if_neg heq, if_neg heq]
      unfold takenOver
      rw [valuesOf_update, valuesOf_update]
      rfl
  | edit v e =>
    obtain ⟨xs', ⟨new, hnew, rfl⟩, rfl⟩ := h
    rw [valuesOf_update, e.map_onValues hnew]
    rfl
  | insertFrom v i other j k =>
    refine (Makes.values_eq h).trans ?_
    rw [List.map_take, List.map_drop]
    unfold slice
    rw [List.map_drop, List.map_take]
    rfl
  | splice v i other =>
    obtain rfl := h
    have hlen : (valuesOf A other).length = (A other).length := List.length_map _
    rw [valuesOf_spliced, ← hlen]
    rfl
  | spliceOne v i other j =>
    obtain rfl := h
    exact valuesOf_spliced ..
  | spliceRange v i other j k =>
    obtain rfl := h
    exact valuesOf_spliced ..
  | swap v other =>
    obtain rfl := h
    unfold exchanged
    rw [valuesOf_update, valuesOf_update]
    rfl
  | sort v comp S =>
    obtain rfl := h
    rw [valuesOf_update, map_sortedBy]
    rfl
  | merge v other comp S =>
    obtain rfl := h
    unfold merged onValues
    have hempty : valuesOf A other = [] ↔ A other = [] := List.map_eq_nil_iff
    dsimp only
    by_cases hskip : v = other ∨ A other = []
    · rw [if_pos hskip, if_pos (hskip.imp_right hempty.mpr)]
    · rw [if_neg hskip, if_neg fun hcon => hskip (hcon.imp_right hempty.mp), valuesOf_update, valuesOf_update, map_sortedBy,
        List.map_append]
      rfl

theorem Leaves.of_freed (h : ∃ own, ListsHold T tidy w' A own others) (hnames : w'.names = ns) (hfreed : w'.heap.freed = w.heap.freed) :
    Leaves T tidy w ns others A w' := ⟨h, hnames, [], givesBack_none hfreed⟩

theorem Constructed.makes {values : List E} (h : Constructed T tidy w A others v values w') :
    ∃ A', ListCall.Makes A A' v [] values [] ∧ Leaves T tidy w (v :: w.names) others A' w' := by
  obtain ⟨new, hnew, hhold, hnames, hfreed⟩ := h
  refine ⟨_, ⟨new, hnew, ?_⟩, .of_freed hhold hnames hfreed⟩
  rw [List.append_nil, List.nil_append]

theorem Receives.makes {values : List E} (h : Receives T tidy w A others v as bs values w') :
    ∃ A', ListCall.Makes A A' v as values bs ∧ Leaves T tidy w w.names others A' w' := by
  obtain ⟨new, hnew, hare⟩ := h
  exact ⟨_, ⟨new, hnew, rfl⟩, hare.leaves⟩

/-- There is nothing behind the end. -/
theorem spliced_end (A : ℕ → List (ℕ × E)) (v other i : ℕ) : spliced A v other i (A other).length ((A other).length+1) = A := by
  have hnone : slice (A other) (A other).length ((A other).length+1) = [] := by
    unfold slice
    exact List.drop_eq_nil_of_le (List.length_take_le' ..)
  have hrest : (A other).drop ((A other).length+1) = [] := List.drop_eq_nil_of_le (Nat.le_succ _)
  unfold spliced
  by_cases heq : v = other
  · subst heq
    rw [if_pos rfl]
    unfold movedWithin
    by_cases hi : i < (A v).length
    · rw [if_pos hi, hnone, hrest, List.append_nil, List.nil_append, take_append_slice (Nat.le_of_lt hi), List.take_length,
        Function.update_eq_self]
    · rw [if_neg hi]
      by_cases hk : (A v).length+1 < i
      · have hbehind : slice (A v) ((A v).length+1) i = [] := List.drop_eq_nil_of_le ((List.length_take_le' ..).trans (Nat.le_succ _))
        have hdrop : (A v).drop i = [] := List.drop_eq_nil_of_le (by omega)
        rw [if_pos hk, hnone, hbehind, hdrop, List.take_length, List.append_nil, List.append_nil, List.append_nil, Function.update_eq_self]
      · rw [if_neg hk, Function.update_eq_self]
  · rw [if_neg heq, hnone, hrest, List.take_length, List.append_nil, List.nil_append, List.take_append_drop, Function.update_eq_self,
      Function.update_eq_self]

namespace ListsHold

theorem size_eq (h : ListsHold T tidy w A own others) (hv : v ∈ w.names) : (w.obj v).size = (A v).length := (h.list v hv).size_eq

theorem ends_insertRangeFrom (h : ListsHold T tidy w A own others) (hv : v ∈ w.names) (hother : other ∈ w.names) (hne : other ≠ v)
    (hi : i ≤ (A v).length) (hjk : j ≤ k) (hk : k ≤ (A other).length) (hroom : AddressRoom w.heap T.sizeofNode T.alignofNode) :
    ((ListCall.insertFrom v i other j k).perform T).Ends w
      (fun _ w' => Receives T tidy w A others v ((A v).take i) ((A v).drop i) ((slice (A other) j k).map Prod.snd) w')
      fun _ w' => ReceivesSome T tidy w A others v ((A v).take i) ((A v).drop i) ((slice (A other) j k).map Prod.snd) w' := by
  refine h.ends_position_bind hv hi (h.ends_position_bind hother (hjk.trans hk) (h.ends_position_bind hother hk ?_))
  have hfuel : (slice (A other) j k).length ≤ walkFuel := by
    have hlt := h.length_lt hother
    rw [length_slice hk]
    omega
  have hins := h.ends_insertFrom hv hother hne (List.take_append_drop i (A v)).symm (split_slice (l := A other) hjk) hroom hfuel
  rwa [slice_append_drop hjk] at hins

/-- Every call keeps the lists in order, and does to the sequences what it says. -/
theorem ends_perform (h : ListsHold T tidy w A own others) (call : ListCall E) (hadm : call.Admissible T w) (htidy : tidy → call.Tidy w) :
    (call.perform T).Ends w (fun _ w' => ∃ A', call.Effect T A A' ∧ Leaves T tidy w (call.onNames w.names) others A' w')
      fun _ w' => ∃ A', call.OnFailure T A A' ∧ Leaves T tidy w w.names others A' w' := by
  -- where a constructor throws, and where nothing has been done
  have hnot : ∀ {w'}, NotConstructed T tidy w A others w' → ∃ A', A' = A ∧ Leaves T tidy w w.names others A' w' := fun hw' => ⟨A, rfl, hw'⟩
  have hsame : Leaves T tidy w w.names others A w := h.are.leaves
  cases call with
  | construct v =>
    refine (h.ends_construct hadm).mono (fun _ w' hr => ?_) fun _ _ he => he
    obtain ⟨hhold, hnames, hheap⟩ := hr
    exact ⟨_, rfl, .of_freed ⟨_, hhold⟩ hnames (congrArg Heap.freed hheap)⟩
  | constructCount v count => exact (h.ends_constructCount hadm.1 hadm.2 count).mono (fun _ _ hr => hr.makes) fun _ _ he => hnot he
  | constructFill v count x => exact (h.ends_constructFill hadm.1 hadm.2 count x).mono (fun _ _ hr => hr.makes) fun _ _ he => hnot he
  | constructRange v xs => exact (h.ends_constructRange hadm.1 hadm.2 xs).mono (fun _ _ hr => hr.makes) fun _ _ he => hnot he
  | copyConstruct v other =>
    obtain ⟨hv, hother, hroom⟩ := hadm
    exact (h.ends_copyConstruct hv hother hroom).mono (fun _ _ hr => hr.makes) fun _ _ he => hnot he
  | moveConstruct v other =>
    refine (h.ends_moveConstruct hadm.1 hadm.2).mono (fun _ w' hr => ?_) fun _ _ he => he
    obtain ⟨hhold, hnames, hfreed⟩ := hr
    exact ⟨_, rfl, .of_freed hhold hnames hfreed⟩
  | destruct v =>
    refine (h.ends_destruct hadm).mono (fun _ w' hr => ?_) fun _ _ he => he
    obtain ⟨hhold, hnames, given, hgiven, -⟩ := hr
    exact ⟨A, rfl, hhold, hnames, given, hgiven⟩
  | copyAssign v other tmp =>
    obtain ⟨hv, hother, htmp⟩ := hadm
    unfold ListCall.Effect
    dsimp only
    by_cases heq : v = other
    · have hrun : ListCall.perform T (.copyAssign v other tmp) = pure () := by
        unfold ListCall.perform SharedMemoryList.copyAssign
        dsimp only
        rw [if_pos heq]
      rw [hrun]
      refine ends_pure ⟨A, ?_, hsame⟩
      rw [if_pos heq]
    · obtain ⟨htmp, hroom⟩ := htmp heq
      refine (h.ends_copyAssign hv hother (fun _ => htmp) hroom).mono (fun _ w' hr => ?_) fun _ _ he => hnot he
      obtain ⟨new, hnew, hleft⟩ := hr
      refine ⟨Function.update A v new, ?_, hleft⟩
      rw [if_neg heq]
      exact ⟨new, hnew, by rw [List.append_nil, List.nil_append]⟩
  | moveAssign v other => exact (h.ends_moveAssign hadm.1 hadm.2).mono (fun _ w' hr => ⟨_, rfl, hr⟩) fun _ _ he => he
  | edit v e =>
    obtain ⟨hv, hrange, hroom⟩ := hadm
    rw [h.size_eq hv] at hrange
    refine (h.ends_edit hv e hrange hroom).mono (fun _ w' hr => ?_) fun _ w' he => ?_
    · obtain ⟨xs', heffect, hleft⟩ := hr
      exact ⟨_, ⟨xs', heffect, rfl⟩, hleft⟩
    · obtain ⟨xs', hfail, hleft⟩ := he
      exact ⟨_, ⟨xs', hfail, rfl⟩, hleft⟩
  | insertFrom v i other j k =>
    obtain ⟨hv, hother, hne, hi, hjk, hk, hroom⟩ := hadm
    rw [h.size_eq hv] at hi
    rw [h.size_eq hother] at hk
    refine (h.ends_insertRangeFrom hv hother hne hi hjk hk hroom).mono (fun _ w' hr => hr.makes) fun _ w' he => ?_
    obtain ⟨new, ⟨hfront, hlt⟩, hkept⟩ := he
    rw [List.length_map] at hlt
    exact ⟨_, ⟨_, ⟨hfront, by rwa [List.length_map]⟩, new, rfl, rfl⟩, hkept.leaves⟩
  | splice v i other =>
    obtain ⟨hv, hother, hi⟩ := hadm
    rw [h.size_eq hv] at hi
    have hempty : tidy → v = other ∨ A other = [] := fun ht =>
      (htidy ht).imp_right fun hzero => List.eq_nil_of_length_eq_zero (h.size_eq hother ▸ hzero)
    exact h.ends_position_bind hv hi ((h.ends_splice hv hother hi hempty).mono (fun _ w' hr => ⟨_, rfl, hr.leaves⟩) fun _ _ he => he)
  | spliceOne v i other j =>
    obtain ⟨hv, hother, hi, hj⟩ := hadm
    rw [h.size_eq hv] at hi
    rw [h.size_eq hother] at hj
    refine h.ends_position_bind hv hi (h.ends_position_bind hother hj ?_)
    rcases Nat.lt_or_eq_of_le hj with hlt | heq
    · have hown : tidy → v = other := fun ht => (htidy ht).resolve_right (by rw [h.size_eq hother]; exact Nat.ne_of_lt hlt)
      exact (h.ends_spliceOne hv hother hi hlt hown).mono (fun _ w' hr => ⟨_, rfl, hr.leaves⟩) fun _ _ he => he
    · -- nothing is at the end
      have hend : positionAt other ((A other).drop j) = .sentinel other := by
        rw [heq, List.drop_length]
        rfl
      unfold SharedMemoryList.spliceOne
      rw [hend, if_pos rfl]
      refine ends_pure ⟨A, ?_, hsame⟩
      unfold ListCall.Effect
      dsimp only
      rw [heq, spliced_end]
  | spliceRange v i other j k =>
    obtain ⟨hv, hother, hi, hjk, hk⟩ := hadm
    rw [h.size_eq hv] at hi
    rw [h.size_eq hother] at hk
    refine h.ends_position_bind hv hi (h.ends_position_bind hother (hjk.trans hk) (h.ends_position_bind hother hk ?_))
    exact (h.ends_spliceRange hv hother hi hjk hk htidy).mono (fun _ w' hr => ⟨_, rfl, hr.leaves⟩) fun _ _ he => he
  | swap v other =>
    refine (h.ends_swap hadm.1 hadm.2).mono (fun _ w' hr => ?_) fun _ _ he => he
    obtain ⟨hhold, hnames, hheap⟩ := hr
    exact ⟨_, rfl, .of_freed ⟨_, hhold⟩ hnames (congrArg Heap.freed hheap)⟩
  | sort v comp S =>
    refine (h.ends_sort hadm S).mono (fun _ w' hr => ⟨_, rfl, hr.leaves⟩) fun _ w' he => ?_
    obtain rfl := he
    exact ⟨A, rfl, hsame⟩
  | merge v other comp S =>
    obtain ⟨hv, hother⟩ := hadm
    have hempty : tidy → v = other ∨ A other = [] := fun ht =>
      (htidy ht).imp_right fun hzero => List.eq_nil_of_length_eq_zero (h.size_eq hother ▸ hzero)
    refine (h.ends_merge hv hother hempty S).mono (fun _ w' hr => ⟨_, rfl, hr.leaves⟩) fun _ w' he => ?_
    obtain rfl := he
    exact ⟨A, rfl, hsame⟩

end ListsHold

end ShmNext
