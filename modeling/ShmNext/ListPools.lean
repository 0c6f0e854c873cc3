import ShmNext.ListRuns

/-! What the counters of the pools say of the lists. -/
namespace ShmNext
open Prog NodeOp SharedMemoryList

variable {E : Type} {T : ListType E} {w w' : ListWorld E} {v other i j k : ℕ} {others : List (ℕ × ℕ)} {comp : E → E → Bool}

namespace SharedMemoryList

/-- The pools are left alone. -/
abbrev KeepsPools {α : Type} (p : ListOp E α) : Prop := Keeps NodeWorld.pool p

theorem keepsPools_readPtr (q : BaseNode) (f : BaseLink) : KeepsPools (readPtr q f : ListOp E BaseNode) := by
  cases q with
  | sentinel v => exact keeps_get_bind fun _ => keeps_pure _
  | node p =>
    refine keeps_read fun w => ?_
    split
    · exact keeps_pure _
    · exact keeps_hang

theorem keepsPools_setPtr (q : BaseNode) (f : BaseLink) (x : BaseNode) : KeepsPools (setPtr q f x : ListOp E Unit) := by
  cases q with
  | sentinel v => exact keeps_store fun _ => rfl
  | node p =>
    refine keeps_read fun w => ?_
    split
    · exact keeps_store fun _ => rfl
    · exact keeps_hang

theorem keepsPools_setSize (v n : ℕ) : KeepsPools (setSize v n : ListOp E Unit) := keeps_store fun _ => rfl

theorem keepsPools_readValue (q : BaseNode) : KeepsPools (readValue q : ListOp E E) := by
  cases q with
  | sentinel v => exact keeps_hang
  | node p =>
    refine keeps_read fun w => ?_
    split
    · exact keeps_pure _
    · exact keeps_hang

theorem keepsPools_resetSentinel (v : ℕ) : KeepsPools (resetSentinel v : ListOp E Unit) :=
  (keepsPools_setPtr _ _ _).bind fun _ => keepsPools_setPtr _ _ _

theorem keepsPools_advance (i : ℕ) (q : BaseNode) : KeepsPools (advance i q : ListOp E BaseNode) := by
  induction i generalizing q with
  | zero => exact keeps_pure _
  | succ i ih => exact (keepsPools_readPtr _ _).bind fun q => ih q

theorem keepsPools_position (v i : ℕ) : KeepsPools (position v i : ListOp E BaseNode) :=
  (keepsPools_readPtr _ _).bind fun q => keepsPools_advance i q

theorem keepsPools_transferRangeBefore (v : ℕ) (pos : BaseNode) (other : ℕ) (first last : BaseNode) (n : ℕ) :
    KeepsPools (transferRangeBefore v pos other first last n : ListOp E Unit) := by
  unfold transferRangeBefore
  refine (keepsPools_readPtr _ _).bind fun _ => (keepsPools_readPtr _ _).bind fun _ => (keepsPools_setPtr _ _ _).bind fun _ =>
    (keepsPools_setPtr _ _ _).bind fun _ => (keepsPools_readPtr _ _).bind fun _ => (keepsPools_setPtr _ _ _).bind fun _ =>
    (keepsPools_setPtr _ _ _).bind fun _ => (keepsPools_setPtr _ _ _).bind fun _ => (keepsPools_setPtr _ _ _).bind fun _ => ?_
  exact keeps_ite (keeps_get_bind fun _ => (keepsPools_setSize _ _).bind fun _ => keeps_get_bind fun _ => keepsPools_setSize _ _) (keeps_pure _)

theorem keepsPools_splice (v : ℕ) (pos : BaseNode) (other : ℕ) : KeepsPools (splice v pos other : ListOp E Unit) :=
  keeps_get_bind fun _ => keeps_ite (keeps_pure _) ((keepsPools_readPtr _ _).bind fun _ => keepsPools_transferRangeBefore _ _ _ _ _ _)

theorem keepsPools_spliceOne (v : ℕ) (pos : BaseNode) (other : ℕ) (it : BaseNode) : KeepsPools (spliceOne v pos other it : ListOp E Unit) :=
  keeps_ite (keeps_pure _) ((keepsPools_readPtr _ _).bind fun _ => keeps_ite (keeps_pure _) (keepsPools_transferRangeBefore _ _ _ _ _ _))

theorem keepsPools_countRange (last : BaseNode) (fuel : ℕ) (q : BaseNode) : KeepsPools (countRange last fuel q : ListOp E ℕ) := by
  induction fuel generalizing q with
  | zero =>
    unfold countRange
    exact keeps_ite (keeps_pure _) keeps_hang
  | succ fuel ih =>
    unfold countRange
    exact keeps_ite (keeps_pure _) ((keepsPools_readPtr _ _).bind fun q => (ih q).bind fun _ => keeps_pure _)

theorem keepsPools_isNodeInRange (target last : BaseNode) (fuel : ℕ) (q : BaseNode) :
    KeepsPools (isNodeInRange target last fuel q : ListOp E Bool) := by
  induction fuel generalizing q with
  | zero =>
    unfold isNodeInRange
    exact keeps_ite (keeps_pure _) keeps_hang
  | succ fuel ih =>
    unfold isNodeInRange
    exact keeps_ite (keeps_pure _) (keeps_ite (keeps_pure _) ((keepsPools_readPtr _ _).bind fun q => ih q))

theorem keepsPools_spliceRange (v : ℕ) (pos : BaseNode) (other : ℕ) (first last : BaseNode) :
    KeepsPools (spliceRange v pos other first last : ListOp E Unit) := by
  unfold spliceRange
  have hmove : ∀ stays : Bool, KeepsPools (if stays = true then pure ()
      else countRange last walkFuel first >>= fun count => transferRangeBefore v pos other first last count : ListOp E Unit) := fun stays =>
    keeps_ite (keeps_pure _) ((keepsPools_countRange _ _ _).bind fun _ => keepsPools_transferRangeBefore _ _ _ _ _ _)
  refine keeps_ite (keeps_pure _) ?_
  dsimp only
  refine keeps_ite (keeps_ite ?_ ?_) ?_
  · exact (keeps_pure _).bind hmove
  · exact (keepsPools_isNodeInRange _ _ _ _).bind hmove
  · exact (keeps_pure _).bind hmove

theorem keepsPools_collectFrom (v fuel : ℕ) (q : BaseNode) : KeepsPools (collectFrom v fuel q : ListOp E (List (BaseNode × E))) := by
  induction fuel generalizing q with
  | zero =>
    unfold collectFrom
    exact keeps_ite (keeps_pure _) keeps_hang
  | succ fuel ih =>
    unfold collectFrom
    exact keeps_ite (keeps_pure _) ((keepsPools_readValue _).bind fun _ => (keepsPools_readPtr _ _).bind fun q =>
      (ih q).bind fun _ => keeps_pure _)

theorem keepsPools_linkNeighbours (l : List BaseNode) : KeepsPools (linkNeighbours l : ListOp E Unit) := by
  induction l with
  | nil => exact keeps_pure _
  | cons a l ih =>
    cases l with
    | nil => exact keeps_pure _
    | cons b l => exact (keepsPools_setPtr _ _ _).bind fun _ => (keepsPools_setPtr _ _ _).bind fun _ => ih

theorem keepsPools_relinkNodesInOrder (v : ℕ) (l : List BaseNode) : KeepsPools (relinkNodesInOrder v l : ListOp E Unit) := by
  unfold relinkNodesInOrder
  split
  · exact (keepsPools_setPtr _ _ _).bind fun _ => (keepsPools_setPtr _ _ _).bind fun _ => (keepsPools_setPtr _ _ _).bind fun _ =>
      (keepsPools_setPtr _ _ _).bind fun _ => keepsPools_linkNeighbours l
  · exact keepsPools_resetSentinel v

theorem keepsPools_merge (v other : ℕ) (S : StableSort (BaseNode × E) (byValue comp)) : KeepsPools (merge v other S : ListOp E Unit) := by
  have hreserve : ∀ n, KeepsPools (reserveScratch S n : ListOp E Unit) := by
    intro n
    unfold reserveScratch
    split
    · exact keeps_throw _
    · exact keeps_pure _
  have hsort : ∀ rows, KeepsPools (sortScratch S rows : ListOp E (List (BaseNode × E))) := by
    intro rows
    unfold sortScratch
    split
    · exact keeps_pure _
    · exact keeps_throw _
  refine keeps_get_bind fun _ => keeps_ite (keeps_pure _) ?_
  refine (hreserve _).bind fun _ => (keepsPools_readPtr _ _).bind fun _ => (keepsPools_collectFrom _ _ _).bind fun _ =>
    (keepsPools_readPtr _ _).bind fun _ => (keepsPools_collectFrom _ _ _).bind fun _ => (hsort _).bind fun _ => ?_
  exact (keepsPools_relinkNodesInOrder _ _).bind fun _ => (keepsPools_setSize _ _).bind fun _ => (keepsPools_resetSentinel _).bind fun _ =>
    keepsPools_setSize _ _

end SharedMemoryList

/-- What is left alone is so where the program ends. -/
theorem Prog.Ends.and_keeps {σ ε α γ : Type} {φ : σ → γ} {p : Prog σ ε α} {s : σ} {Q : α → σ → Prop} {F : ε → σ → Prop} (h : p.Ends s Q F)
    (hk : p.Keeps φ) : p.Ends s (fun a s' => Q a s' ∧ φ s' = φ s) F := by
  have hs := hk s
  rcases h.cases with ⟨a, s', hr, hq⟩ | ⟨e, s', hr, he⟩
  · rw [hr] at hs
    exact ends_of_ok hr ⟨hq, hs⟩
  · exact ends_of_error hr he

/-- `node_pool_allocations()` is the number of blocks that the list keeps. -/
def SharedMemoryList.Counted (w : ListWorld E) (v : ℕ) : Prop := (w.pool v).nodePoolAllocations = (w.obj v).size+(w.pool v).cachedNodeCount

/-- The list that the call is about. -/
def ListCall.target : ListCall E → ℕ
  | construct v | constructCount v _ | constructFill v _ _ | constructRange v _ | copyConstruct v _ | moveConstruct v _ | destruct v
  | copyAssign v _ _ | moveAssign v _ | edit v _ | insertFrom v _ _ _ _ | splice v _ _ | spliceOne v _ _ _ | spliceRange v _ _ _ _
  | swap v _ | sort v _ _ | merge v _ _ _ => v

theorem length_lt_spliced {α : Type} {A : ℕ → List α} (hne : v ≠ other) (hjk : j < k) (hk : k ≤ (A other).length) :
    (A v).length < (spliced A v other i j k v).length := by
  unfold spliced
  rw [if_neg hne, Function.update_self, List.length_append, List.length_append, length_slice hk, List.length_take, List.length_drop]
  omega

namespace ListsHold
variable {A A' : ℕ → List (ℕ × E)} {own : ℕ → List ℕ}

theorem counted_iff (h : ListsHold T False w A own others) (hv : v ∈ w.names) :
    Counted w v ↔ (w.pool v).nodePoolAllocations = (A v).length+(own v).length := by
  unfold Counted
  rw [h.size_eq hv, (h.pools.caches hv).count]

/-- Nodes have come in, and the pools have not been told. -/
theorem not_counted (h : ListsHold T True w A own others) (hv : v ∈ w.names) (h' : ListsAre T False w A' others w') (hpool : w'.pool = w.pool)
    (hlen : (A v).length < (A' v).length) : ¬Counted w' v := by
  obtain ⟨own', hw'⟩ := h'.hold
  have hcached := (h.pools.caches hv).count
  have hsize := hw'.size_eq (h'.mem hv)
  have hcount := h.counted trivial v hv
  unfold Counted
  rw [hpool, hsize]
  omega

end ListsHold

/-- Where a splice or a merge takes nodes from another list, the counter of the pool that they come to is too small from then on.
As long as none does, the counters are right. -/
theorem node_pool_allocations_exact (h : ListRun T (fun w call => call.Admissible T w ∧ call.Tidy w) w others) :
    (∀ v ∈ w.names, Counted w v) ∧
    ∀ call : ListCall E, call.Admissible T w → ¬call.Tidy w →
      (call.perform T).Ends w (fun _ w' => ¬Counted w' call.target) fun _ w' => w' = w := by
  have hhold : ∃ A own, ListsHold T True w A own others := h.hold fun w call hcall => ⟨hcall.1, fun _ => hcall.2⟩
  obtain ⟨A, own, hw⟩ := hhold
  -- the lists are in order all the same once counters are wrong, which is what is shown of the call
  have hplain : ListsHold T False w A own others := ⟨hw.pools, hw.list, False.elim⟩
  refine ⟨fun v hv => (hplain.counted_iff hv).mpr (hw.counted trivial v hv), fun call hadm huntidy => ?_⟩
  -- no counter changes, but the target has got longer
  cases call with
  | splice v i other =>
    obtain ⟨hv, hother, hi⟩ := hadm
    obtain ⟨hne, hsome⟩ := not_or.mp huntidy
    rw [hw.size_eq hv] at hi
    rw [hw.size_eq hother] at hsome
    have hkeep : KeepsPools (ListCall.perform T (.splice v i other)) := (keepsPools_position _ _).bind fun _ => keepsPools_splice _ _ _
    have hends : (ListCall.perform T (.splice v i other)).Ends w
        (fun _ w' => ListsAre T False w (spliced A v other i 0 (A other).length) others w') fun _ w' => w' = w :=
      hplain.ends_position_bind hv hi (hplain.ends_splice hv hother hi False.elim)
    have hlen := length_lt_spliced (A := A) (i := i) hne (Nat.pos_of_ne_zero hsome) le_rfl
    exact (hends.and_keeps hkeep).mono (fun _ w' hr => hw.not_counted hv hr.1 hr.2 hlen) fun _ _ he => he
  | spliceOne v i other j =>
    obtain ⟨hv, hother, hi, hj⟩ := hadm
    obtain ⟨hne, hsome⟩ := not_or.mp huntidy
    rw [hw.size_eq hv] at hi
    rw [hw.size_eq hother] at hsome hj
    have hlt := Nat.lt_of_le_of_ne hj hsome
    have hkeep : KeepsPools (ListCall.perform T (.spliceOne v i other j)) :=
      (keepsPools_position _ _).bind fun _ => (keepsPools_position _ _).bind fun _ => keepsPools_spliceOne _ _ _ _
    have hends : (ListCall.perform T (.spliceOne v i other j)).Ends w
        (fun _ w' => ListsAre T False w (spliced A v other i j (j+1)) others w') fun _ w' => w' = w :=
      hplain.ends_position_bind hv hi (hplain.ends_position_bind hother hj (hplain.ends_spliceOne hv hother hi hlt False.elim))
    have hlen := length_lt_spliced (A := A) (i := i) hne (Nat.lt_succ_self j) hlt
    exact (hends.and_keeps hkeep).mono (fun _ w' hr => hw.not_counted hv hr.1 hr.2 hlen) fun _ _ he => he
  | spliceRange v i other j k =>
    obtain ⟨hv, hother, hi, hjk, hk⟩ := hadm
    obtain ⟨hne, hsome⟩ := not_or.mp huntidy
    rw [hw.size_eq hv] at hi
    rw [hw.size_eq hother] at hk
    have hkeep : KeepsPools (ListCall.perform T (.spliceRange v i other j k)) :=
      (keepsPools_position _ _).bind fun _ => (keepsPools_position _ _).bind fun _ => (keepsPools_position _ _).bind fun _ =>
        keepsPools_spliceRange _ _ _ _ _
    have hends : (ListCall.perform T (.spliceRange v i other j k)).Ends w
        (fun _ w' => ListsAre T False w (spliced A v other i j k) others w') fun _ w' => w' = w :=
      hplain.ends_position_bind hv hi (hplain.ends_position_bind hother (hjk.trans hk)
        (hplain.ends_position_bind hother hk (hplain.ends_spliceRange hv hother hi hjk hk False.elim)))
    have hlen := length_lt_spliced (A := A) (i := i) hne (Nat.lt_of_le_of_ne hjk hsome) hk
    exact (hends.and_keeps hkeep).mono (fun _ w' hr => hw.not_counted hv hr.1 hr.2 hlen) fun _ _ he => he
  | merge v other comp S =>
    obtain ⟨hv, hother⟩ := hadm
    obtain ⟨hne, hsome⟩ := not_or.mp huntidy
    rw [hw.size_eq hother] at hsome
    have hempty : A other ≠ [] := fun heq => hsome (by rw [heq, List.length_nil])
    have hkeep : KeepsPools (ListCall.perform T (.merge v other comp S)) := keepsPools_merge _ _ _
    have hlen : (A v).length < (merged comp A v other v).length := by
      unfold merged
      rw [if_neg (not_or.mpr ⟨hne, hempty⟩), Function.update_self, (sortedBy_perm comp _).length_eq, List.length_append]
      omega
    exact ((hplain.ends_merge hv hother False.elim S).and_keeps hkeep).mono (fun _ w' hr => hw.not_counted hv hr.1 hr.2 hlen) fun _ _ he => he
  | _ => exact absurd trivial huntidy

/-- A list of three nodes and one of two. -/
def twoLists : ListWorld ℕ := afterListCalls [.constructRange 0 [3, 1, 2], .constructRange 1 [5, 6]] listWorld

theorem twoLists_run : ListRun wordNodes (fun w call => call.Admissible wordNodes w ∧ call.Tidy w) twoLists listWorld.heap.allocations := by
  have h₀ : ListRun wordNodes (fun w call => call.Admissible wordNodes w ∧ call.Tidy w) listWorld listWorld.heap.allocations :=
    .start smallHeap_reachable
  have h₁ := h₀.perform (.constructRange 0 [3, 1, 2]) ⟨⟨by decide, by decide +kernel⟩, trivial⟩ (by decide +kernel)
  exact h₁.perform (.constructRange 1 [5, 6]) ⟨⟨by decide +kernel, by decide +kernel⟩, trivial⟩ (by decide +kernel)

/-- The second list takes the nodes of the first: it has five of them, and its pool has counted two. -/
theorem node_pool_allocations_exact_twoLists : Counted twoLists 1 ∧
    ((((ListCall.splice 1 0 0).perform wordNodes).run twoLists).2.pool 1).nodePoolAllocations = 2 ∧
    ((((ListCall.splice 1 0 0).perform wordNodes).run twoLists).2.obj 1).size = 5 := by
  have hmem : 1 ∈ twoLists.names := by decide +kernel
  exact ⟨(node_pool_allocations_exact twoLists_run).1 1 hmem, by decide +kernel, by decide +kernel⟩

end ShmNext
