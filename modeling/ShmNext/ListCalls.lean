import ShmNext.ListLifetimes

/-! The calls of lists, by the places they name, and what each does to the sequences. -/
namespace ShmNext
open Prog NodeOp SharedMemoryList

namespace SharedMemoryList
variable {E : Type}

/-- So many steps of an iterator. -/
def advance : ℕ → BaseNode → ListOp E BaseNode
  | 0, q => pure q
  | i+1, q => do
    let q ← readPtr q .next
    advance i q

/-- The iterator that has come so far from `begin()`. -/
def position (v i : ℕ) : ListOp E BaseNode := do
  let first ← begin' v
  advance i first

end SharedMemoryList

/-- The calls on the elements of one list. Places are numbered from `begin()`, and the end is a place as well. -/
inductive ListEdit (E : Type) where
  | emplace (i : ℕ) (x : E)
  | insertFill (i count : ℕ) (x : E)
  | insertRange (i : ℕ) (xs : List E)
  | emplaceFront (x : E)
  | emplaceBack (x : E)
  | erase (i : ℕ)
  | eraseRange (j k : ℕ)
  | popFront
  | popBack
  | clear
  | shrinkToFit
  | resize (count : ℕ)
  | resizeFill (count : ℕ) (x : E)
  | assignFill (count : ℕ) (x : E)
  | assignRange (xs : List E)
  | removeIf (predicate : E → Bool)
  | unique (predicate : E → E → Bool)
  | reverse

namespace ListEdit
variable {E α : Type} (T : ListType E)

def perform (v : ℕ) : ListEdit E → ListOp E Unit
  | emplace i x => do
    let pos ← position v i
    let _ ← SharedMemoryList.emplace T v pos x
  | insertFill i count x => do
    let pos ← position v i
    let _ ← SharedMemoryList.insertFill T v pos count x
  | insertRange i xs => do
    let pos ← position v i
    let _ ← SharedMemoryList.insertRange T v pos xs
  | emplaceFront x => do
    let _ ← SharedMemoryList.emplaceFront T v x
  | emplaceBack x => do
    let _ ← SharedMemoryList.emplaceBack T v x
  | erase i => do
    let pos ← position v i
    let _ ← SharedMemoryList.erase v pos
  | eraseRange j k => do
    let first ← position v j
    let last ← position v k
    SharedMemoryList.eraseRange v last walkFuel first
  | popFront => SharedMemoryList.popFront v
  | popBack => SharedMemoryList.popBack v
  | clear => SharedMemoryList.clear v
  | shrinkToFit => SharedMemoryList.shrinkToFit T v
  | resize count => SharedMemoryList.resize T v count
  | resizeFill count x => SharedMemoryList.resizeFill T v count x
  | assignFill count x => SharedMemoryList.assignFill T v count x
  | assignRange xs => SharedMemoryList.assignRange T v xs
  | removeIf predicate => SharedMemoryList.removeIf v predicate
  | unique predicate => SharedMemoryList.unique v predicate
  | reverse => SharedMemoryList.reverse v

/-- The places named are there, in a list of so many elements. -/
def InRange (n : ℕ) : ListEdit E → Prop
  | emplace i _ | insertFill i _ _ | insertRange i _ | erase i => i ≤ n
  | eraseRange j k => j ≤ k ∧ k ≤ n
  | _ => True

/-- Nodes may be made. -/
def creates : ListEdit E → Bool
  | emplace _ _ | insertFill _ _ _ | insertRange _ _ | emplaceFront _ | emplaceBack _ | resize _ | resizeFill _ _ | assignFill _ _
  | assignRange _ => true
  | _ => false

/-- The elements that stay in front of the new ones, in the order they have then; `value` says what is at an element. -/
def front (value : α → E) (xs : List α) : ListEdit E → List α
  | emplace i _ | insertFill i _ _ | insertRange i _ => xs.take i
  | emplaceFront _ | clear | assignFill _ _ | assignRange _ => []
  | emplaceBack _ | shrinkToFit => xs
  | erase i => xs.take i ++ xs.drop (i+1)
  | eraseRange j k => xs.take j ++ xs.drop k
  | popFront => xs.tail
  | popBack => xs.dropLast
  | resize count | resizeFill count _ => xs.take count
  | removeIf predicate => xs.filter fun a => !predicate (value a)
  | unique predicate => xs.destutter fun a b => ¬predicate (value a) (value b)
  | reverse => xs.reverse

/-- The new elements of a list that had `n` of them. -/
def added (n : ℕ) : ListEdit E → List E
  | emplace _ x | emplaceFront x | emplaceBack x => [x]
  | insertFill _ count x | assignFill count x => List.replicate count x
  | insertRange _ xs | assignRange xs => xs
  | resize count => List.replicate (count-n) T.default
  | resizeFill count x => List.replicate (count-n) x
  | _ => []

/-- The elements behind the new ones. -/
def back (xs : List α) : ListEdit E → List α
  | emplace i _ | insertFill i _ _ | insertRange i _ => xs.drop i
  | emplaceFront _ => xs
  | _ => []

/-- The sequence operation. -/
def onValues (e : ListEdit E) (xs : List E) : List E := e.front id xs ++ (e.added T xs.length ++ e.back xs)

variable {T : ListType E} {xs : List (ℕ × E)} {new : List (ℕ × E)}

/-- What is done to the nodes is done to their values. -/
theorem map_front (e : ListEdit E) (xs : List (ℕ × E)) : (e.front Prod.snd xs).map Prod.snd = e.front id (xs.map Prod.snd) := by
  cases e with
  | emplace i x => exact List.map_take
  | insertFill i count x => exact List.map_take
  | insertRange i values => exact List.map_take
  | resize count => exact List.map_take
  | resizeFill count x => exact List.map_take
  | erase i =>
    unfold front
    rw [List.map_append, List.map_take, List.map_drop]
  | eraseRange j k =>
    unfold front
    rw [List.map_append, List.map_take, List.map_drop]
  | popFront => exact List.map_tail
  | popBack => exact List.map_dropLast
  | removeIf predicate =>
    unfold front
    dsimp only
    rw [List.filter_map]
    rfl
  | unique predicate => exact List.map_destutter fun a _ b _ => Iff.rfl
  | reverse => exact List.map_reverse
  | _ => rfl

theorem map_back (e : ListEdit E) (xs : List (ℕ × E)) : (e.back xs).map Prod.snd = e.back (xs.map Prod.snd) := by
  cases e with
  | emplace i x => exact List.map_drop
  | insertFill i count x => exact List.map_drop
  | insertRange i values => exact List.map_drop
  | _ => rfl

theorem map_onValues (e : ListEdit E) (hnew : new.map Prod.snd = e.added T xs.length) :
    (e.front Prod.snd xs ++ (new ++ e.back xs)).map Prod.snd = e.onValues T (xs.map Prod.snd) := by
  unfold onValues
  rw [List.map_append, List.map_append, hnew, map_front, map_back, List.length_map]

/-- The nodes once the edit is done. -/
def Effect (T : ListType E) (e : ListEdit E) (xs xs' : List (ℕ × E)) : Prop :=
  ∃ new, new.map Prod.snd = e.added T xs.length ∧ xs' = e.front Prod.snd xs ++ (new ++ e.back xs)

/-- The nodes where an edit has thrown: the new elements are only the first few. -/
def OnFailure (T : ListType E) (e : ListEdit E) (xs xs' : List (ℕ × E)) : Prop :=
  ∃ new, (new.map Prod.snd <+: e.added T xs.length ∧ new.length < (e.added T xs.length).length) ∧ xs' = e.front Prod.snd xs ++ (new ++ e.back xs)

end ListEdit

variable {E : Type} {T : ListType E} {w w' t : ListWorld E} {v other n i j k fuel : ℕ} {F : NodeThrown → ListWorld E → Prop}
  {A A' : ℕ → List (ℕ × E)} {own : ℕ → List ℕ} {others : List (ℕ × ℕ)} {as bs ds xs : List (ℕ × E)} {values : List E} {tidy : Prop} {ns : List ℕ}

/-- The lists `ns` are there and are `A`, and what has been given back has been so once. -/
def Leaves (T : ListType E) (tidy : Prop) (w : ListWorld E) (ns : List ℕ) (others : List (ℕ × ℕ)) (A : ℕ → List (ℕ × E)) (w' : ListWorld E) : Prop :=
  (∃ own, ListsHold T tidy w' A own others) ∧ w'.names = ns ∧ ∃ given, GivesBack given w w'

theorem ListsAre.leaves (h : ListsAre T tidy w A others w') : Leaves T tidy w w.names others A w' :=
  ⟨h.hold, h.names_eq, [], givesBack_none h.freed_eq⟩

theorem ListsKept.leaves (h : ListsKept T tidy w A others w') : Leaves T tidy w w.names others A w' := ⟨h.hold, h.names_eq, h.spares.givesBack⟩

theorem Receives.effect {e : ListEdit E} (h : Receives T tidy w A others v (e.front Prod.snd (A v)) (e.back (A v)) (e.added T (A v).length) w') :
    ∃ xs', e.Effect T (A v) xs' ∧ Leaves T tidy w w.names others (Function.update A v xs') w' := by
  obtain ⟨new, hnew, hare⟩ := h
  exact ⟨_, ⟨new, hnew, rfl⟩, hare.leaves⟩

theorem ReceivesSome.onFailure {e : ListEdit E}
    (h : ReceivesSome T tidy w A others v (e.front Prod.snd (A v)) (e.back (A v)) (e.added T (A v).length) w') :
    ∃ xs', e.OnFailure T (A v) xs' ∧ Leaves T tidy w w.names others (Function.update A v xs') w' := by
  obtain ⟨new, hnew, hkept⟩ := h
  exact ⟨_, ⟨new, hnew, rfl⟩, hkept.leaves⟩

namespace ListsHold

theorem ends_advance (h : ListsHold T tidy w A own others) (hv : v ∈ w.names) (hA : A v = as ++ ds) (hi : i ≤ ds.length) :
    (advance i (positionAt v ds)).Ends w (fun q w' => q = positionAt v (ds.drop i) ∧ w' = w) F := by
  induction i generalizing as ds with
  | zero => exact ends_pure ⟨rfl, rfl⟩
  | succ i ih =>
    cases ds with
    | nil => cases hi
    | cons d ds =>
      unfold advance
      have hfirst : positionAt v (d :: ds) = .node d.1 := rfl
      rw [hfirst]
      refine ends_readPtr_bind (h.node_valid hv hA) ?_
      rw [h.next_eq hv hA, List.drop_succ_cons]
      exact ih (hA.trans (List.append_cons ..)) (Nat.le_of_succ_le_succ hi)

theorem ends_position (h : ListsHold T tidy w A own others) (hv : v ∈ w.names) (hi : i ≤ (A v).length) :
    (position v i).Ends w (fun q w' => q = positionAt v ((A v).drop i) ∧ w' = w) F := by
  unfold position begin'
  refine ends_readPtr_bind NodeWorld.valid_sentinel ?_
  rw [h.first_eq hv]
  have hA : A v = [] ++ A v := rfl
  exact h.ends_advance hv hA hi

/-- What is done at a place. -/
theorem ends_position_bind {α : Type} {Q : α → ListWorld E → Prop} {f : BaseNode → ListOp E α} (h : ListsHold T tidy w A own others) (hv : v ∈ w.names)
    (hi : i ≤ (A v).length) (hk : (f (positionAt v ((A v).drop i))).Ends w Q F) : (position v i >>= f).Ends w Q F := by
  refine (h.ends_position hv hi).bind fun q t ht => ?_
  obtain ⟨rfl, rfl⟩ := ht
  exact hk

theorem shrunk (h : ListsHold T tidy w A own others) (hv : v ∈ w.names) (h' : ListsHold T tidy w' A (Function.update own v []) others)
    (hnames : w'.names = w.names) (hfreed : w'.heap.freed = own v ++ w.heap.freed) : Leaves T tidy w w.names others A w' := by
  have hperm : (own v ++ (w'.names.flatMap (Function.update own v []) ++ nodesOf A w'.names)).Perm (w.names.flatMap own ++ nodesOf A w.names) := by
    rw [hnames, ← List.append_assoc]
    exact (List.perm_append_comm.trans (h.pools.flatMap_emptied hv).symm).append_right _
  exact ⟨⟨_, h'⟩, hnames, own v, (h.pools.released h'.pools hperm hfreed).1⟩

/-- One edit, whether it returns or throws. -/
theorem ends_edit (h : ListsHold T tidy w A own others) (hv : v ∈ w.names) (e : ListEdit E) (hrange : e.InRange (A v).length)
    (hroom : e.creates = true → AddressRoom w.heap T.sizeofNode T.alignofNode) :
    (e.perform T v).Ends w (fun _ w' => ∃ xs', e.Effect T (A v) xs' ∧ Leaves T tidy w w.names others (Function.update A v xs') w')
      fun _ w' => ∃ xs', e.OnFailure T (A v) xs' ∧ Leaves T tidy w w.names others (Function.update A v xs') w' := by
  have hsplit : ∀ i, A v = (A v).take i ++ (A v).drop i := fun i => (List.take_append_drop i _).symm
  -- an edit that makes nothing leaves what stays
  have hkept : ∀ {w'} {e : ListEdit E}, e.added T (A v).length = [] → e.back (A v) = [] →
      ListsAre T tidy w (Function.update A v (e.front Prod.snd (A v))) others w' →
      ∃ xs', e.Effect T (A v) xs' ∧ Leaves T tidy w w.names others (Function.update A v xs') w' := by
    intro w' e hnone hback hare
    refine ⟨_, ⟨[], hnone.symm, ?_⟩, hare.leaves⟩
    rw [hback, List.append_nil, List.append_nil]
  cases e with
  | emplace i x =>
    refine h.ends_position_bind hv hrange ?_
    refine ((h.ends_emplace hv (hsplit i) (hroom rfl) x).mono (fun _ _ hq => hq) fun _ t he => ?_).bind fun _ w' hr => ends_pure ?_
    · have hnone : ReceivesSome T tidy w A others v ((A v).take i) ((A v).drop i) [x] t := .none he (hsplit i)
      exact hnone.onFailure
    · obtain ⟨p, -, hare⟩ := hr
      exact ⟨_, ⟨[(p, x)], rfl, rfl⟩, hare.leaves⟩
  | insertFill i count x =>
    refine h.ends_position_bind hv hrange ?_
    exact ((h.ends_insertFill hv (hsplit i) (hroom rfl) count x).mono (fun _ _ hq => hq) fun _ _ he => he.onFailure).bind
      fun _ w' hr => ends_pure hr.effect
  | insertRange i values =>
    refine h.ends_position_bind hv hrange ?_
    exact ((h.ends_insertRange hv (hsplit i) (hroom rfl) values).mono (fun _ _ hq => hq) fun _ _ he => he.onFailure).bind
      fun _ w' hr => ends_pure hr.effect
  | emplaceFront x =>
    refine ((h.ends_emplaceFront hv (hroom rfl) x).mono (fun _ _ hq => hq) fun _ t he => ?_).bind fun _ w' hr => ends_pure hr.effect
    have hnone : ReceivesSome T tidy w A others v [] (A v) [x] t := .none he rfl
    exact hnone.onFailure
  | emplaceBack x =>
    refine ((h.ends_emplaceBack hv (hroom rfl) x).mono (fun _ _ hq => hq) fun _ t he => ?_).bind fun _ w' hr => ends_pure hr.effect
    have hnone : ReceivesSome T tidy w A others v (A v) [] [x] t := .none he (List.append_nil _).symm
    exact hnone.onFailure
  | erase i =>
    refine h.ends_position_bind hv hrange ?_
    rcases Nat.lt_or_eq_of_le hrange with hlt | heq
    · have hA : A v = (A v).take i ++ (A v)[i] :: (A v).drop (i+1) := by
        rw [← List.drop_eq_getElem_cons hlt]
        exact hsplit i
      have hat : positionAt v ((A v).drop i) = .node (A v)[i].1 := by
        rw [List.drop_eq_getElem_cons hlt]
        rfl
      rw [hat]
      exact (h.ends_erase hv hA).bind fun _ w' hr => ends_pure (hkept (e := .erase i) rfl rfl hr.2)
    · -- nothing is at the end
      have hend : positionAt v ((A v).drop i) = .sentinel v := by
        rw [heq, List.drop_length]
        rfl
      unfold SharedMemoryList.erase
      rw [hend, if_pos rfl]
      refine ends_pure_bind (ends_pure (hkept (e := .erase i) rfl rfl ?_))
      unfold ListEdit.front
      dsimp only
      rw [heq, List.take_length, List.drop_eq_nil_of_le (Nat.le_succ _), List.append_nil, Function.update_eq_self]
      exact h.are
  | eraseRange j k =>
    obtain ⟨hjk, hk⟩ := hrange
    refine h.ends_position_bind hv (hjk.trans hk) (h.ends_position_bind hv hk ?_)
    have hA := split_slice (l := A v) hjk
    have hlen := h.length_lt hv
    have hfuel : (slice (A v) j k).length ≤ walkFuel := by
      rw [length_slice hk]
      omega
    have herase := h.ends_eraseRange (F := fun _ w' => ∃ xs', (ListEdit.eraseRange j k).OnFailure T (A v) xs' ∧
      Leaves T tidy w w.names others (Function.update A v xs') w') hv hA hfuel
    rw [slice_append_drop hjk] at herase
    exact herase.mono (fun _ w' hr => hkept (e := .eraseRange j k) rfl rfl hr) fun _ _ he => he
  | popFront => exact (h.ends_popFront hv).mono (fun _ w' hr => hkept (e := .popFront) rfl rfl hr) fun _ _ he => he
  | popBack => exact (h.ends_popBack hv).mono (fun _ w' hr => hkept (e := .popBack) rfl rfl hr) fun _ _ he => he
  | clear => exact (h.ends_clear_are hv).mono (fun _ w' hr => hkept (e := .clear) rfl rfl hr) fun _ _ he => he
  | shrinkToFit =>
    refine (h.ends_shrinkToFit hv).mono (fun _ w' hr => ?_) fun _ _ he => he
    obtain ⟨hhold, hnames, -, hfreed⟩ := hr
    refine ⟨A v, ⟨[], rfl, ?_⟩, ?_⟩
    · exact (List.append_nil _).symm
    · rw [Function.update_eq_self]
      exact h.shrunk hv hhold hnames hfreed
  | resize count => exact (h.ends_resize hv (hroom rfl) count).mono (fun _ w' hr => hr.effect) fun _ _ he => he.onFailure
  | resizeFill count x => exact (h.ends_resizeFill hv (hroom rfl) count x).mono (fun _ w' hr => hr.effect) fun _ _ he => he.onFailure
  | assignFill count x => exact (h.ends_assignFill hv (hroom rfl) count x).mono (fun _ w' hr => hr.effect) fun _ _ he => he.onFailure
  | assignRange values => exact (h.ends_assignRange hv (hroom rfl) values).mono (fun _ w' hr => hr.effect) fun _ _ he => he.onFailure
  | removeIf predicate => exact (h.ends_removeIf hv).mono (fun _ w' hr => hkept (e := .removeIf predicate) rfl rfl hr) fun _ _ he => he
  | unique predicate => exact (h.ends_unique hv).mono (fun _ w' hr => hkept (e := .unique predicate) rfl rfl hr) fun _ _ he => he
  | reverse => exact (h.ends_reverse hv).mono (fun _ w' hr => hkept (e := .reverse) rfl rfl hr) fun _ _ he => he

end ListsHold

end ShmNext
