import ShmNext.HashTableCalls
import ShmNext.OwnedBlocks

/-! Any number of hash tables over one segment, next to the association lists they stand for. -/
namespace ShmNext
open Prog NodeOp SharedMemoryHashTable HashLink

variable {K V F α : Type} {T : TableType K V F} {w w' u : TableWorld K V F} {vs cached : List ℕ} {kept : List LiveAlloc}
  {mine others rest lost : List (ℕ × ℕ)} {items xs ys : Items K V} {v other tmp p i n : ℕ} {e : K × V} {key : K}
  {own : ℕ → Items K V × List ℕ} {A : ℕ → Option (List (K × V))} {m : List (K × V)} {g : Heap}

/-- The calls of the class. The copy of a copy assignment is the local `tmp`. -/
inductive TableCall (K V F : Type) where
  | construct (v bucketCount : ℕ)
  | rangeConstruct (v bucketCount : ℕ) (values : List (K × V))
  | copyConstruct (v other : ℕ)
  | moveConstruct (v other : ℕ)
  | destruct (v : ℕ)
  | edit (v : ℕ) (c : TableEdit K V F)
  | swap (v other : ℕ)
  | copyAssign (v other tmp : ℕ)
  | moveAssign (v other : ℕ)

namespace TableCall

def perform (T : TableType K V F) : TableCall K V F → TableOp K V F Unit
  | construct v bucketCount => SharedMemoryHashTable.construct T v bucketCount
  | rangeConstruct v bucketCount values => SharedMemoryHashTable.rangeConstruct T v bucketCount values
  | copyConstruct v other => SharedMemoryHashTable.copyConstruct T v other
  | moveConstruct v other => SharedMemoryHashTable.moveConstruct v other
  | destruct v => SharedMemoryHashTable.destruct T v
  | edit v c => c.perform T v
  | swap v other => SharedMemoryHashTable.swap v other
  | copyAssign v other tmp => SharedMemoryHashTable.copyAssign T v other tmp
  | moveAssign v other => SharedMemoryHashTable.moveAssign T v other

/-- What the calls mean for association lists: `A v` is that of the table `v`, where there is one. -/
def onMaps (T : TableType K V F) (A : ℕ → Option (List (K × V))) : TableCall K V F → ℕ → Option (List (K × V))
  | construct v _ => Function.update A v (some [])
  | rangeConstruct v _ values => Function.update A v (some (values.foldl (fun m value => T.added m value.1 value) []))
  | copyConstruct v other => Function.update A v (A other)
  | moveConstruct v other => Function.update (Function.update A other (some [])) v (A other)
  | destruct v => Function.update A v none
  | edit v c => Function.update A v ((A v).map (c.onMap T))
  | swap v other => Function.update (Function.update A v (A other)) other (A v)
  | copyAssign v other _ => Function.update A v (A other)
  | moveAssign v other => if v = other then A else Function.update (Function.update A other (some [])) v (A other)

/-- What a call that has thrown may have done to the association lists. A table that is moved, swapped or destroyed throws
nothing. -/
def OnFailure (T : TableType K V F) (A A' : ℕ → Option (List (K × V))) : TableCall K V F → Prop
  | edit v c => ∃ m m', A v = some m ∧ c.OnFailure T m m' ∧ A' = Function.update A v (some m')
  | moveConstruct _ _ | destruct _ | swap _ _ | moveAssign _ _ => False
  | _ => A' = A

/-- What a copy of `other` asks for fits. -/
def CopyFits (T : TableType K V F) (w : TableWorld K V F) (v other : ℕ) : Prop :=
  AddressRoom w.heap T.sizeofNode T.alignofNode ∧
    ConstructionFits T v (w.obj other).bucketCount (w.obj other).maxLoadFactor (elements w other) w

/-- What callers keep to: they name tables that exist, or a new one that does not, and valid positions; what is asked of
the allocator fits. -/
def Admissible (T : TableType K V F) (w : TableWorld K V F) : TableCall K V F → Prop
  | construct v bucketCount => v ∉ w.names ∧ BucketRoom w.heap (normalizeBucketCount bucketCount)
  | rangeConstruct v bucketCount values => v ∉ w.names ∧ AddressRoom w.heap T.sizeofNode T.alignofNode ∧
      ConstructionFits T v bucketCount T.factors.initial values w
  | copyConstruct v other => v ∉ w.names ∧ other ∈ w.names ∧ CopyFits T w v other
  | moveConstruct v other => v ∉ w.names ∧ other ∈ w.names
  | destruct v => v ∈ w.names
  | edit v c => v ∈ w.names ∧ c.Admissible T w v
  | swap v other => v ∈ w.names ∧ other ∈ w.names
  | copyAssign v other tmp => v ∈ w.names ∧ other ∈ w.names ∧ (v ≠ other → tmp ∉ w.names ∧ CopyFits T w tmp other)
  | moveAssign v other => v ∈ w.names ∧ other ∈ w.names

def HashSafe (T : TableType K V F) (w : TableWorld K V F) : TableCall K V F → Prop
  | edit v c => c.HashSafe T w v
  | _ => True

end TableCall

theorem TableCall.hashSafe_of_nothrow (h : ∀ k, T.hashThrows k = false) (w : TableWorld K V F) (call : TableCall K V F) :
    call.HashSafe T w := by
  cases call with
  | edit v c => exact TableEdit.hashSafe_of_nothrow h w v c
  | _ => trivial

/-- What callers keep to, where the hash harms no chain. -/
def TableCall.Careful (T : TableType K V F) (w : TableWorld K V F) (call : TableCall K V F) : Prop :=
  call.Admissible T w ∧ call.HashSafe T w

/-- The association lists that the tables hold. -/
def SharedMemoryHashTable.maps (w : TableWorld K V F) (v : ℕ) : Option (List (K × V)) :=
  if v ∈ w.names then some (elements w v) else none

/-- What holds of a table with the keys of its elements, and the blocks it owns. -/
def TableType.discipline (T : TableType K V F) : Discipline (HashNode K V) (SharedMemoryHashTable F) (Items K V × List ℕ) where
  blocks t s := T.owned t s.1 s.2
  holds w v s := TableHolds T w v s.1 s.2 ∧ (T.KeysRespected → T.KeysDistinct (s.1.map Prod.snd))
  congr := by
    intro w w' v s h hobj hpool hcell
    have hmem : ∀ q, q ∈ (T.owned (w.obj v) s.1 s.2).map Prod.fst → w'.cell q = w.cell q := by
      intro q hq
      obtain ⟨r, hr, rfl⟩ := List.mem_map.mp hq
      exact hcell r hr
    refine ⟨h.1.congr hobj hpool (fun q hq => hmem q ?_) fun hb => hmem _ ?_, h.2⟩
    · rcases List.mem_append.mp hq with hq | hq
      · exact mem_owned_addresses.mpr (Or.inl hq)
      · exact mem_owned_addresses.mpr (Or.inr (Or.inl hq))
    · exact mem_owned_addresses.mpr (Or.inr (Or.inr ⟨hb, rfl⟩))

/-- Each table is in order and owns its blocks; nobody owns the `others`. -/
abbrev TablesHold (T : TableType K V F) (w : TableWorld K V F) (own : ℕ → Items K V × List ℕ) (others : List (ℕ × ℕ)) : Prop :=
  SideBySide T.toNodeType T.discipline w own others

namespace TablesHold

/-- One of the tables, with the rest kept. -/
theorem table (h : TablesHold T w own others) (hv : v ∈ w.names) (vs : List ℕ) :
    OwnsTable T vs w (w.heap.beside (T.owned (w.obj v) (own v).1 (own v).2)) [] v (own v).1 (own v).2 w := by
  refine ⟨?_, (h.holds v hv).1⟩
  rw [List.append_nil]
  exact SideBySide.focus_one h hv vs

theorem length_le (h : TablesHold T w own others) (hv : v ∈ w.names) : (own v).1.length ≤ walkFuel :=
  (h.table hv [v]).ownsNodes.length_le

theorem elements_eq (h : TablesHold T w own others) (hv : v ∈ w.names) : elements w v = (own v).1.map Prod.snd :=
  (h.holds v hv).1.toNodesHold.elements_eq (h.length_le hv)

theorem readItems_eq (h : TablesHold T w own others) (hv : v ∈ w.names) : readItems w v = (own v).1 :=
  (h.holds v hv).1.toNodesHold.readItems_eq (h.length_le hv)

theorem maps_eq (h : TablesHold T w own others) (v : ℕ) :
    maps w v = if v ∈ w.names then some ((own v).1.map Prod.snd) else none := by
  unfold maps
  by_cases hv : v ∈ w.names
  · rw [if_pos hv, if_pos hv, h.elements_eq hv]
  · rw [if_neg hv, if_neg hv]

theorem maps_of_mem (h : TablesHold T w own others) (hv : v ∈ w.names) : maps w v = some ((own v).1.map Prod.snd) := by
  rw [h.maps_eq, if_pos hv]

/-- A table in place of what was there under its name, beside those that were left alone. -/
theorem maps_update {own' : ℕ → Items K V × List ℕ} {others' : List (ℕ × ℕ)} (h : TablesHold T w own others)
    (h' : TablesHold T w' own' others') (hv : v ∈ w'.names) (hnames : ∀ x, x ≠ v → (x ∈ w'.names ↔ x ∈ w.names))
    (hown : ∀ x ∈ w.names, x ≠ v → own' x = own x) :
    maps w' = Function.update (maps w) v (some ((own' v).1.map Prod.snd)) := by
  funext x
  by_cases hx : x = v
  · subst hx
    rw [Function.update_self, h'.maps_of_mem hv]
  · rw [Function.update_of_ne hx, h'.maps_eq, h.maps_eq]
    by_cases hm : x ∈ w.names
    · rw [if_pos hm, if_pos ((hnames x hx).mpr hm), hown x hm hx]
    · rw [if_neg hm, if_neg fun hm' => hm ((hnames x hx).mp hm')]

/-- What a call leads to. -/
def LeadsTo (T : TableType K V F) (w' : TableWorld K V F) (R : (ℕ → Option (List (K × V))) → Prop) : Prop :=
  ∃ own' others', TablesHold T w' own' others' ∧ (T.KeysRespected → R (maps w'))

/-- A new table. -/
theorem born (h : TablesHold T w own others) (hv : v ∉ w.names)
    (hu : OwnsTable T [v] w (w.heap.beside []) rest v items cached u) {m : List (K × V)}
    (hitems : T.KeysRespected → items.map Prod.snd = m ∧ T.KeysDistinct m) :
    LeadsTo T { u with names := v :: u.names } fun A => A = Function.update (maps w) v (some m) := by
  have hne : ∀ x ∈ w.names, x ≠ v := fun x hx heq => hv (heq ▸ hx)
  have hput := h.put [v] (Function.update own v (items, cached)) [v] (v :: w.names) rest (L := w.names) (u := u) (List.Perm.refl ([] ++ w.names)) ?_ (fun x hx => by simpa using hne x hx)
    (List.nodup_cons.mpr ⟨hv, h.nodup⟩) (List.Perm.refl _) (fun x hx => Function.update_of_ne (hne x hx) _ _) fun x hx => ?_
  · rw [← hu.own.names_same] at hput
    refine ⟨_, _, hput, fun hT => ?_⟩
    rw [h.maps_update hput List.mem_cons_self (fun x hx => ?_) fun x _ hx => Function.update_of_ne hx _ _]
    · rw [Function.update_self]
      dsimp only
      rw [(hitems hT).1]
    · dsimp only
      rw [hu.own.names_same]
      exact ⟨fun hm => (List.mem_cons.mp hm).resolve_left hx, List.mem_cons_of_mem _⟩
  · simp only [Discipline.blocksOf_cons, Discipline.blocksOf_nil, List.append_nil, Function.update_self]
    exact hu.own
  · obtain rfl := List.mem_singleton.mp hx
    rw [Function.update_self]
    refine ⟨hu.holds, fun hT => ?_⟩
    dsimp only
    rw [(hitems hT).1]
    exact (hitems hT).2

/-- A constructor has thrown. -/
theorem aborted (h : TablesHold T w own others) (hv : v ∉ w.names)
    (hu : Owning T.toNodeType [v] w (w.heap.beside []) u lost) : LeadsTo T u fun A => A = maps w := by
  have hne : ∀ x ∈ w.names, x ≠ v := fun x hx heq => hv (heq ▸ hx)
  have hfocus : Owning T.toNodeType [v] w (w.heap.beside (T.discipline.blocksOf w own [])) u (T.discipline.blocksOf u own [] ++ lost) := hu
  have hput := h.put [v] own [] w.names lost (List.Perm.refl ([] ++ w.names)) hfocus (fun x hx => by simpa using hne x hx) h.nodup (List.Perm.refl _) (fun _ _ => rfl) fun x hx => (by cases hx)
  rw [← hu.names_same] at hput
  refine ⟨_, _, hput, fun _ => ?_⟩
  funext x
  rw [maps_eq hput, h.maps_eq]
  dsimp only
  rw [hu.names_same]

/-- A call on one table. -/
theorem edited (h : TablesHold T w own others) (hv : v ∈ w.names) {R : List (K × V) → List (K × V) → Prop}
    (hR : ∀ m', T.KeysRespected → T.KeysDistinct ((own v).1.map Prod.snd) → R ((own v).1.map Prod.snd) m' → T.KeysDistinct m')
    (hu : TableEdit.Leaves T [v] w (w.heap.beside (T.owned (w.obj v) (own v).1 (own v).2)) [] v (own v).1 R u) :
    LeadsTo T u fun A => ∃ m', R ((own v).1.map Prod.snd) m' ∧ A = Function.update (maps w) v (some m') := by
  obtain ⟨items', cached', lost, hown, hmap⟩ := hu
  have hkeys := (h.holds v hv).2
  have hput := SideBySide.put_one (s := (items', cached')) h hv hown.own
    ⟨hown.holds, fun hT => hR _ hT (hkeys hT) (hmap hT (hkeys hT))⟩
  refine ⟨_, _, hput, fun hT => ⟨items'.map Prod.snd, hmap hT (hkeys hT), ?_⟩⟩
  rw [h.maps_update hput (by rw [hown.own.names_same]; exact hv) (fun x _ => by rw [hown.own.names_same])
    fun x _ hx => Function.update_of_ne hx _ _, Function.update_self]

theorem ends_edit (h : TablesHold T w own others) (hv : v ∈ w.names) {c : TableEdit K V F} (hadm : c.Admissible T w v)
    (hsafe : c.HashSafe T w v) : (c.perform T v).Ends w
      (fun _ w' => LeadsTo T w' fun A => A = Function.update (maps w) v ((maps w v).map (c.onMap T)))
      fun _ w' => LeadsTo T w' fun A => ∃ m m', maps w v = some m ∧ c.OnFailure T m m' ∧ A = Function.update (maps w) v (some m') := by
  have hcall := c.ends_perform (h.table hv [v]) (List.mem_singleton_self v) hadm hsafe
  have hmaps := h.maps_of_mem hv
  refine hcall.mono (fun _ w' hr => ?_) fun _ w' he => ?_
  · have hkeep : ∀ m', T.KeysRespected → T.KeysDistinct ((own v).1.map Prod.snd) → m' = c.onMap T ((own v).1.map Prod.snd) →
        T.KeysDistinct m' := by
      intro m' hT hd hm
      rw [hm]
      exact c.keysDistinct_onMap hd hadm
    obtain ⟨own', others', hhold, hmap⟩ := h.edited (R := fun m m' => m' = c.onMap T m) hv hkeep hr
    refine ⟨own', others', hhold, fun hT => ?_⟩
    obtain ⟨m', rfl, hA⟩ := hmap hT
    rw [hA, hmaps]
    rfl
  · obtain ⟨own', others', hhold, hmap⟩ := h.edited hv (fun m' _ hd hm => c.keysDistinct_onFailure hd hm) he
    refine ⟨own', others', hhold, fun hT => ?_⟩
    obtain ⟨m', hm, hA⟩ := hmap hT
    exact ⟨_, m', hmaps, hm, hA⟩

/-- A table has been moved: it is there under its new name, and the old name is that of a bare table. -/
theorem moved (h : TablesHold T w own others) (hother : other ∈ w.names) (hm : Moved v other w u)
    (hcell : ∀ r ∈ T.owned (w.obj other) (own other).1 (own other).2, u.cell r.1 = w.cell r.1) :
    TableHolds T u v (own other).1 (own other).2 ∧ TableHolds T u other [] [] ∧
      T.owned (u.obj v) (own other).1 (own other).2 = T.owned (w.obj other) (own other).1 (own other).2 ∧
      T.owned (u.obj other) [] [] = [] := by
  have hheld := (h.holds other hother).1
  refine ⟨?_, TableHolds.bare_of hm.left hm.left_pool, by rw [hm.obj_eq], ?_⟩
  · have hname : TableHolds T { w with obj := Function.update w.obj v (w.obj other), pool := Function.update w.pool v (w.pool other) } v
        (own other).1 (own other).2 := hheld.rename (Function.update_self ..) (Function.update_self ..) rfl
    have hmem : ∀ q, q ∈ (T.owned (w.obj other) (own other).1 (own other).2).map Prod.fst → u.cell q = w.cell q := by
      intro q hq
      obtain ⟨r, hr, rfl⟩ := List.mem_map.mp hq
      exact hcell r hr
    refine hname.congr ?_ ?_ (fun q hq => hmem q ?_) fun hb => ?_
    · dsimp only
      rw [Function.update_self, hm.obj_eq]
    · dsimp only
      rw [Function.update_self, hm.pool_eq]
    · rcases List.mem_append.mp hq with hq | hq
      · exact mem_owned_addresses.mpr (Or.inl hq)
      · exact mem_owned_addresses.mpr (Or.inr (Or.inl hq))
    · dsimp only at hb ⊢
      rw [Function.update_self] at hb ⊢
      exact hmem _ (mem_owned_addresses.mpr (Or.inr (Or.inr ⟨hb, rfl⟩)))
  · rw [hm.left]
    rfl

/-- Two tables have been worked on, in their place. -/
theorem put_two (s s' : Items K V × List ℕ) (h : TablesHold T w own others) (hv : v ∈ w.names) (hother : other ∈ w.names) (hne : other ≠ v)
    (hu : Owning T.toNodeType [v, other] w (w.heap.beside (T.owned (w.obj v) (own v).1 (own v).2 ++
      T.owned (w.obj other) (own other).1 (own other).2)) u (T.owned (u.obj v) s.1 s.2 ++ T.owned (u.obj other) s'.1 s'.2))
    (hs : TableHolds T u v s.1 s.2 ∧ (T.KeysRespected → T.KeysDistinct (s.1.map Prod.snd)))
    (hs' : TableHolds T u other s'.1 s'.2 ∧ (T.KeysRespected → T.KeysDistinct (s'.1.map Prod.snd))) :
    LeadsTo T u fun A => A = Function.update (Function.update (maps w) v (some (s.1.map Prod.snd))) other (some (s'.1.map Prod.snd)) := by
  have hmem : other ∈ w.names.erase v := (List.mem_erase_of_ne hne).mpr hother
  have hperm : w.names.Perm ([v, other] ++ (w.names.erase v).erase other) :=
    (List.perm_cons_erase hv).trans ((List.perm_cons_erase hmem).cons v)
  have hnd := hperm.nodup_iff.mp h.nodup
  have hrest : ∀ x ∈ (w.names.erase v).erase other, x ≠ v ∧ x ≠ other := by
    intro x hx
    have hdisj := (List.nodup_append.mp hnd).2.2
    exact ⟨fun heq => hdisj v (by simp) x hx heq.symm, fun heq => hdisj other (by simp) x hx heq.symm⟩
  have hown' : ∀ x, x ≠ v → x ≠ other → Function.update (Function.update own v s) other s' x = own x := by
    intro x h1 h2
    rw [Function.update_of_ne h2, Function.update_of_ne h1]
  have hown_v : Function.update (Function.update own v s) other s' v = s := by
    rw [Function.update_of_ne hne.symm, Function.update_self]
  -- the two tables change together, all others stay
  have hput := h.put [v, other] (Function.update (Function.update own v s) other s') [v, other] w.names [] (u := u) hperm ?_ (fun x hx => ?_) hnd hperm
    (fun x hx => hown' x (hrest x hx).1 (hrest x hx).2) fun x hx => ?_
  · rw [← hu.names_same] at hput
    refine ⟨_, _, hput, fun _ => ?_⟩
    funext x
    rw [maps_eq hput]
    dsimp only
    rw [hu.names_same]
    by_cases hx' : x = other
    · subst hx'
      rw [if_pos hother, Function.update_self, Function.update_self]
    · rw [Function.update_of_ne hx', Function.update_of_ne hx']
      by_cases hx : x = v
      · subst hx
        rw [if_pos hv, Function.update_self, Function.update_self]
      · rw [Function.update_of_ne hx, Function.update_of_ne hx, h.maps_eq]
  · simp only [Discipline.blocksOf_cons, Discipline.blocksOf_nil, List.append_nil, Function.update_self, hown_v]
    exact hu
  · have hx' := hrest x hx
    simp [hx'.1, hx'.2]
  · rcases List.mem_cons.mp hx with rfl | hx
    · rw [hown_v]
      exact hs
    · obtain rfl := List.mem_singleton.mp hx
      rw [Function.update_self]
      exact hs'

theorem focus_two (h : TablesHold T w own others) (hv : v ∈ w.names) (hother : other ∈ w.names) (hne : other ≠ v) :
    ∃ rest, w.Owns T.toNodeType (T.owned (w.obj v) (own v).1 (own v).2 ++ (T.owned (w.obj other) (own other).1 (own other).2 ++ rest)) := by
  have hmem : other ∈ w.names.erase v := (List.mem_erase_of_ne hne).mpr hother
  have hperm : w.names.Perm ([v, other] ++ (w.names.erase v).erase other) :=
    (List.perm_cons_erase hv).trans ((List.perm_cons_erase hmem).cons v)
  have hsplit := h.split hperm
  simp only [Discipline.blocksOf_cons, Discipline.blocksOf_nil, List.append_nil, List.append_assoc] at hsplit
  exact ⟨_, hsplit⟩

theorem ends_swapTables (h : TablesHold T w own others) (hv : v ∈ w.names) (hother : other ∈ w.names) {E : NodeThrown → TableWorld K V F → Prop} :
    (SharedMemoryHashTable.swap v other : TableOp K V F Unit).Ends w
      (fun _ w' => LeadsTo T w' fun A => A = Function.update (Function.update (maps w) v (maps w other)) other (maps w v)) E := by
  by_cases heq : other = v
  · subst heq
    refine ends_of_ok (run_swap_self w) ⟨own, others, h, fun _ => ?_⟩
    rw [Function.update_idem, Function.update_eq_self]
  obtain ⟨rest, hall⟩ := h.focus_two hv hother heq
  rw [← List.append_assoc] at hall
  refine (ends_swap (hall.focus [v, other]) (by simp) (by simp) heq).mono (fun _ u hu => ?_) fun _ _ he => he
  obtain ⟨hown, hobj, hpool, hobj', hpool', hcell⟩ := hu
  rw [h.maps_of_mem hv, h.maps_of_mem hother]
  have hheld := h.holds v hv
  have hheld' := h.holds other hother
  refine h.put_two (own other) (own v) hv hother heq ?_ ⟨hheld'.1.rename hobj hpool hcell, hheld'.2⟩
    ⟨hheld.1.rename hobj' hpool' hcell, hheld.2⟩
  rw [hobj, hobj']
  exact hown.perm List.perm_append_comm

theorem ends_moveAssignTable (h : TablesHold T w own others) (hv : v ∈ w.names) (hother : other ∈ w.names) (hne : other ≠ v)
    {E : NodeThrown → TableWorld K V F → Prop} :
    (SharedMemoryHashTable.moveAssign T v other).Ends w
      (fun _ w' => LeadsTo T w' fun A => A = Function.update (Function.update (maps w) other (some [])) v (maps w other)) E := by
  obtain ⟨rest, hall⟩ := h.focus_two hv hother hne
  refine (ends_moveAssign (h.table hv [v]) hne).mono (fun _ u hu => ?_) fun _ _ he => he
  obtain ⟨hown, hm⟩ := hu
  have hwide := hown.widen hall
  obtain ⟨hholds, hbare, howned, hnone⟩ := h.moved hother hm fun r hr => hown.cell_kept hall (List.mem_append_left _ hr)
  rw [Function.update_comm hne, h.maps_of_mem hother]
  refine h.put_two (own other) ([], []) hv hother hne ?_ ⟨hholds, (h.holds other hother).2⟩ ⟨hbare, fun _ => List.Pairwise.nil⟩
  rw [howned, hnone, List.append_nil]
  exact hwide

theorem ends_moveConstructTable (h : TablesHold T w own others) (hv : v ∉ w.names) (hother : other ∈ w.names)
    {E : NodeThrown → TableWorld K V F → Prop} :
    (SharedMemoryHashTable.moveConstruct v other : TableOp K V F Unit).Ends w
      (fun _ w' => LeadsTo T w' fun A => A = Function.update (Function.update (maps w) other (some [])) v (maps w other)) E := by
  have hne : other ≠ v := fun heq => hv (heq ▸ hother)
  have hfocus := SideBySide.focus_one h hother [v, other]
  refine (ends_moveConstruct hfocus (by simp) (by simp) hne).mono (fun _ w' hw' => ?_) fun _ _ he => he
  obtain ⟨u, hown, hm, hcell, rfl⟩ := hw'
  obtain ⟨hholds, hbare, howned, hnone⟩ := h.moved hother hm fun r _ => by rw [hcell]
  have hnotv : ∀ x ∈ w.names.erase other, x ≠ v := fun x hx heq => hv (heq ▸ List.mem_of_mem_erase hx)
  have hnoto : ∀ x ∈ w.names.erase other, x ≠ other := fun x hx heq => h.nodup.not_mem_erase (heq ▸ hx)
  have hown_o : Function.update (Function.update own v (own other)) other ([], []) v = own other := by
    rw [Function.update_of_ne hne.symm, Function.update_self]
  have hperm := SideBySide.perm_erase hother
  -- `v` has what `other` had, and `other` is an empty table
  have hput := h.put [v, other] (Function.update (Function.update own v (own other)) other ([], [])) [v, other] (v :: w.names) [] (u := u) hperm ?_
    (fun x hx => by simp [hnotv x hx, hnoto x hx]) (List.nodup_cons.mpr ⟨fun hin => hv (hperm.mem_iff.mpr hin), hperm.nodup_iff.mp h.nodup⟩)
    (hperm.cons v) (fun x hx => by rw [Function.update_of_ne (hnoto x hx), Function.update_of_ne (hnotv x hx)]) fun x hx => ?_
  · rw [← hown.names_same] at hput
    refine ⟨_, _, hput, fun _ => ?_⟩
    funext x
    rw [maps_eq hput, h.maps_of_mem hother]
    dsimp only
    rw [hown.names_same]
    by_cases hx : x = v
    · subst hx
      rw [if_pos List.mem_cons_self, hown_o, Function.update_self]
    · rw [Function.update_of_ne hx]
      by_cases hx' : x = other
      · subst hx'
        rw [if_pos (List.mem_cons_of_mem _ hother), Function.update_self, Function.update_self]
        rfl
      · rw [Function.update_of_ne hx', Function.update_of_ne hx', Function.update_of_ne hx, h.maps_eq]
        exact if_congr ⟨fun hm => (List.mem_cons.mp hm).resolve_left hx, List.mem_cons_of_mem _⟩ rfl rfl
  · simp only [Discipline.blocksOf_cons, Discipline.blocksOf_nil, List.append_nil, Function.update_self, hown_o]
    change Owning T.toNodeType [v, other] w _ u (T.owned (u.obj v) (own other).1 (own other).2 ++ T.owned (u.obj other) [] [])
    rw [howned, hnone, List.append_nil]
    exact hown
  · rcases List.mem_cons.mp hx with rfl | hx
    · rw [hown_o]
      exact ⟨hholds, (h.holds other hother).2⟩
    · obtain rfl := List.mem_singleton.mp hx
      rw [Function.update_self]
      exact ⟨hbare, fun _ => List.Pairwise.nil⟩

theorem ends_destructTable (h : TablesHold T w own others) (hv : v ∈ w.names) {E : NodeThrown → TableWorld K V F → Prop} :
    (SharedMemoryHashTable.destruct T v).Ends w (fun _ w' => LeadsTo T w' fun A => A = Function.update (maps w) v none) E := by
  refine (ends_destruct (h.table hv [v]) (List.mem_singleton_self v)).mono (fun _ w' hw' => ?_) fun _ _ he => he
  obtain ⟨u, hown, rfl⟩ := hw'
  have hnot : ∀ x ∈ w.names.erase v, x ≠ v := fun x hx heq => h.nodup.not_mem_erase (heq ▸ hx)
  have hput := h.put [v] own [] (w.names.erase v) [] (u := u) (SideBySide.perm_erase hv) ?_ (fun x hx => by simpa using hnot x hx) (h.nodup.erase v) (List.Perm.refl _) (fun _ _ => rfl)
    fun x hx => (by cases hx)
  · rw [← hown.names_same] at hput
    refine ⟨_, _, hput, fun _ => ?_⟩
    funext x
    rw [maps_eq hput]
    dsimp only
    rw [hown.names_same]
    by_cases hx : x = v
    · subst hx
      rw [if_neg h.nodup.not_mem_erase, Function.update_self]
    · rw [Function.update_of_ne hx, h.maps_eq]
      exact if_congr (List.mem_erase_of_ne hx) rfl rfl
  · simp only [Discipline.blocksOf_cons, Discipline.blocksOf_nil, List.append_nil]
    exact hown

/-- The copies of elements with distinct keys are these elements. -/
theorem foldl_added_self (xs : Items K V) (h : T.KeysDistinct (xs.map Prod.snd ++ m)) :
    m.foldl (fun A e => T.added A e.1 e) (xs.map Prod.snd) = xs.map Prod.snd ++ m := by
  induction m generalizing xs with
  | nil => exact (List.append_nil _).symm
  | cons e m ih =>
    have habsent : ∀ x ∈ xs, T.keyEqual x.2.1 e.1 = false := fun x hx =>
      (List.pairwise_append.mp h).2.2 _ (List.mem_map_of_mem hx) e List.mem_cons_self
    have hsnoc : xs.map Prod.snd ++ [e] = (xs ++ [(0, e)]).map Prod.snd := by rw [List.map_append]; rfl
    rw [List.foldl_cons, TableType.added_of_absent habsent, hsnoc]
    rw [List.append_cons, hsnoc] at h
    rw [ih _ h, ← hsnoc, List.append_assoc]
    rfl

theorem source (h : TablesHold T w own others) (hother : other ∈ w.names) : Source w (w.heap.beside []) (own other).1 := by
  have hheld := (h.holds other hother).1
  have hown := (h.table hother [other]).own
  refine ⟨hheld.iterates.elems, hheld.iterates.not_null, hheld.iterates.linked.forward, fun q hq => ?_⟩
  have hmem : (q, T.sizeofNode) ∈ T.owned (w.obj other) (own other).1 (own other).2 ++ [] :=
    List.mem_append_left _ (List.mem_append_left _ (NodeType.mem_blocks.mpr (List.mem_append_left _ hq)))
  obtain ⟨a, ha, hpay, -⟩ := hown.holding.mine_live _ hmem
  exact ⟨a, Heap.mem_beside.mpr ⟨ha, List.not_mem_nil⟩, hpay⟩

theorem ends_copyConstructTable (h : TablesHold T w own others) (hv : v ∉ w.names) (hother : other ∈ w.names)
    (hfits : TableCall.CopyFits T w v other) :
    (SharedMemoryHashTable.copyConstruct T v other).Ends w
      (fun _ w' => w'.names = v :: w.names ∧ LeadsTo T w' fun A => A = Function.update (maps w) v (maps w other))
      fun _ w' => LeadsTo T w' fun A => A = maps w := by
  obtain ⟨hroom, hfit⟩ := hfits
  rw [h.elements_eq hother] at hfit
  have hfocus := SideBySide.focus_none h [v]
  have hcopy := ends_copyConstruct hfocus (List.mem_singleton_self v) hroom (h.source hother) (h.holds other hother).1.iterates.head_eq
    (h.length_le hother) hfit
  refine hcopy.mono (fun _ w' hw' => ?_) fun _ w' he => ?_
  · obtain ⟨u, items, cached, hown, rfl, hitems⟩ := hw'
    refine ⟨congrArg (v :: ·) hown.own.names_same, ?_⟩
    rw [h.maps_of_mem hother]
    refine h.born hv hown fun hT => ?_
    have hd := (h.holds other hother).2 hT
    exact ⟨(hitems.1 hT).trans (foldl_added_self [] hd), hd⟩
  · obtain ⟨leaked, -, hown, -⟩ := he
    exact h.aborted hv hown

theorem ends_copyAssignTable (h : TablesHold T w own others) (hv : v ∈ w.names) (hother : other ∈ w.names)
    (hfits : v ≠ other → tmp ∉ w.names ∧ TableCall.CopyFits T w tmp other) :
    (SharedMemoryHashTable.copyAssign T v other tmp).Ends w
      (fun _ w' => LeadsTo T w' fun A => A = Function.update (maps w) v (maps w other)) fun _ w' => LeadsTo T w' fun A => A = maps w := by
  unfold SharedMemoryHashTable.copyAssign
  by_cases heq : v = other
  · subst heq
    rw [if_pos rfl, Function.update_eq_self]
    exact ends_pure ⟨own, others, h, fun _ => rfl⟩
  rw [if_neg heq]
  obtain ⟨htmp, hfits⟩ := hfits heq
  have hvt : v ≠ tmp := fun h' => htmp (h' ▸ hv)
  refine (h.ends_copyConstructTable htmp hother hfits).bind fun _ t ht => ?_
  obtain ⟨hnames, own₁, others₁, h₁, hmaps₁⟩ := ht
  have hv₁ : v ∈ t.names := hnames ▸ List.mem_cons_of_mem _ hv
  have htmp₁ : tmp ∈ t.names := hnames ▸ List.mem_cons_self
  refine (h₁.ends_swapTables hv₁ htmp₁).with_run.bind fun _ u hu => ?_
  obtain ⟨⟨own₂, others₂, h₂, hmaps₂⟩, hrun⟩ := hu
  have hnames₂ : u.names = t.names := by
    cases hrun
    rfl
  have htmp₂ : tmp ∈ u.names := hnames₂ ▸ htmp₁
  refine (h₂.ends_destructTable htmp₂).mono (fun _ w' hw' => ?_) fun _ _ he => he
  obtain ⟨own₃, others₃, h₃, hmaps₃⟩ := hw'
  refine ⟨own₃, others₃, h₃, fun hT => ?_⟩
  rw [hmaps₃ hT, hmaps₂ hT, hmaps₁ hT, Function.update_self, Function.update_of_ne hvt]
  -- the local table is gone again
  funext x
  by_cases hx : x = tmp
  · subst hx
    rw [Function.update_self, Function.update_of_ne hvt.symm]
    unfold maps
    rw [if_neg htmp]
  · rw [Function.update_of_ne hx, Function.update_of_ne hx]
    by_cases hx' : x = v
    · subst hx'
      rw [Function.update_self, Function.update_self]
    · rw [Function.update_of_ne hx', Function.update_of_ne hx', Function.update_of_ne hx]

/-- One call, whether it returns or throws. -/
theorem ends_perform (h : TablesHold T w own others) (call : TableCall K V F) (hadm : call.Admissible T w) (hsafe : call.HashSafe T w) :
    (call.perform T).Ends w (fun _ w' => LeadsTo T w' fun A => A = call.onMaps T (maps w))
      fun _ w' => LeadsTo T w' fun A => call.OnFailure T (maps w) A := by
  have hfocus := SideBySide.focus_none h
  cases call with
  | construct v bucketCount =>
    obtain ⟨hv, hroom⟩ := hadm
    refine (ends_construct (hfocus [v]) (List.mem_singleton_self v) hroom).mono (fun _ w' hw' => ?_) fun _ w' he => h.aborted hv he.2
    obtain ⟨u, hown, -, rfl⟩ := hw'
    exact h.born hv hown fun _ => ⟨rfl, List.Pairwise.nil⟩
  | rangeConstruct v bucketCount values =>
    obtain ⟨hv, hroom, hfit⟩ := hadm
    refine (ends_rangeConstruct (hfocus [v]) (List.mem_singleton_self v) hroom hfit).mono (fun _ w' hw' => ?_) fun _ w' he => ?_
    · obtain ⟨u, items, cached, hown, rfl, hitems, -⟩ := hw'
      exact h.born hv hown fun hT => ⟨hitems hT, TableType.KeysDistinct.foldl_added (m := []) List.Pairwise.nil values⟩
    · obtain ⟨lost, hown, -⟩ := he
      exact h.aborted hv hown
  | copyConstruct v other =>
    obtain ⟨hv, hother, hfits⟩ := hadm
    exact (h.ends_copyConstructTable hv hother hfits).mono (fun _ _ hr => hr.2) fun _ _ he => he
  | moveConstruct v other => exact h.ends_moveConstructTable hadm.1 hadm.2
  | destruct v => exact h.ends_destructTable hadm
  | edit v c => exact h.ends_edit hadm.1 hadm.2 hsafe
  | swap v other => exact h.ends_swapTables hadm.1 hadm.2
  | copyAssign v other tmp => exact h.ends_copyAssignTable hadm.1 hadm.2.1 hadm.2.2
  | moveAssign v other =>
    by_cases heq : v = other
    · subst heq
      dsimp only [TableCall.perform, TableCall.onMaps]
      unfold SharedMemoryHashTable.moveAssign
      rw [if_pos rfl, if_pos rfl]
      exact ends_pure ⟨own, others, h, fun _ => rfl⟩
    · dsimp only [TableCall.perform, TableCall.onMaps]
      rw [if_neg heq]
      exact h.ends_moveAssignTable hadm.1 hadm.2 (Ne.symm heq)

end TablesHold

/-- The runs: calls that meet `P` in any order, each returning or throwing, lookups, and calls of others between them, from a
segment without tables. -/
inductive TableRun (T : TableType K V F) (P : TableWorld K V F → TableCall K V F → Prop) : TableWorld K V F → Prop
  | start {g : Heap} {pool : ℕ → NodePool} {obj : ℕ → SharedMemoryHashTable F} (hg : Reachable g) :
      TableRun T P ⟨g, fun _ => none, pool, obj, [], 0, 0⟩
  | returns {w w' : TableWorld K V F} (call : TableCall K V F) (h : TableRun T P w) (hcall : P w call)
      (hrun : (call.perform T).run w = (.ok (), w')) : TableRun T P w'
  | throws {w w' : TableWorld K V F} {e : NodeThrown} (call : TableCall K V F) (h : TableRun T P w) (hcall : P w call)
      (hrun : (call.perform T).run w = (.error e, w')) : TableRun T P w'
  | looksUp {w : TableWorld K V F} (v : ℕ) (key : K) (h : TableRun T P w) (hv : v ∈ w.names) : TableRun T P ((findNode T v key).run w).2
  | elsewhere {w : TableWorld K V F} {g : Heap} (call : Call) (h : TableRun T P w) (hadm : w.heap.Admissible call)
      (hforeign : w.Foreign call) (hexec : w.heap.exec call = some g) : TableRun T P (w.withHeap T.toNodeType g)

variable {P : TableWorld K V F → TableCall K V F → Prop}

namespace TablesHold

/-- The blocks of a table hold what they are for. -/
theorem cells (h : TablesHold T w own others) (hv : v ∈ w.names) {r : ℕ × ℕ} (hr : r ∈ T.owned (w.obj v) (own v).1 (own v).2) :
    w.cell r.1 ≠ none := by
  have hheld := (h.holds v hv).1
  rcases mem_owned_addresses.mp (List.mem_map_of_mem hr) with hm | hm | ⟨hb, heq⟩
  · obtain ⟨n, hn⟩ := hheld.toNodesHold.isNode hm
    rw [hn]
    exact Option.some_ne_none _
  · obtain ⟨-, next, hn⟩ := hheld.caches.chain.mem_free hm
    rw [hn]
    exact Option.some_ne_none _
  · obtain ⟨-, a, ha, -⟩ := hheld.array hb
    rw [heq, ha]
    exact Option.some_ne_none _

/-- A lookup changes nothing but the count of hash calls. -/
theorem run_lookup (h : TablesHold T w own others) (hv : v ∈ w.names) (key : K) :
    ∃ k, ((findNode T v key).run w).2 = { w with hashes := k } := by
  rcases (ends_findNode key (h.holds v hv).1 (h.length_le hv)).cases with ⟨r, t, hr, -, rfl⟩ | ⟨e, t, hr, -, rfl, -⟩
  · rw [hr]
    exact ⟨_, rfl⟩
  · rw [hr]
    exact ⟨_, rfl⟩

end TablesHold

theorem TableRun.hold (hP : ∀ w call, P w call → call.Admissible T w ∧ call.HashSafe T w) (h : TableRun T P w) :
    ∃ own others, TablesHold T w own others := by
  induction h with
  | start hg =>
    obtain ⟨bs, l, hinv⟩ := hg.inv
    exact ⟨_, _, SideBySide.start hinv fun _ => ([], [])⟩
  | returns call _ hcall hrun ih =>
    obtain ⟨own, others, hw⟩ := ih
    obtain ⟨hadm, hsafe⟩ := hP _ _ hcall
    have hends := hw.ends_perform call hadm hsafe
    unfold Ends at hends
    rw [hrun] at hends
    obtain ⟨own', others', hw', -⟩ := hends
    exact ⟨own', others', hw'⟩
  | throws call _ hcall hrun ih =>
    obtain ⟨own, others, hw⟩ := ih
    obtain ⟨hadm, hsafe⟩ := hP _ _ hcall
    have hends := hw.ends_perform call hadm hsafe
    unfold Ends at hends
    rw [hrun] at hends
    obtain ⟨own', others', hw', -⟩ := hends
    exact ⟨own', others', hw'⟩
  | looksUp v key _ hv ih =>
    obtain ⟨own, others, hw⟩ := ih
    obtain ⟨k, hk⟩ := hw.run_lookup hv key
    rw [hk]
    exact ⟨own, others, SideBySide.setHashes hw k⟩
  | elsewhere call _ hadm hforeign hexec ih =>
    obtain ⟨own, others, hw⟩ := ih
    exact ⟨own, (SideBySide.elsewhere hw (fun v hv r hr => hw.cells hv hr) hadm hforeign hexec).2⟩

/-- A table as it lies in memory is in order. -/
structure InOrder (T : TableType K V F) (w : TableWorld K V F) (v : ℕ) : Prop where
  iterates : Iterates w (w.obj v) (readItems w v)
  size_eq : (w.obj v).size = (readItems w v).length
  counted : (w.obj v).buckets ≠ 0 → 0 < (w.obj v).bucketCount
  chains : (w.obj v).buckets ≠ 0 → Bucketed T w (w.obj v).buckets (w.obj v).bucketCount (readItems w v)
  bare : (w.obj v).buckets = 0 → (w.obj v).bucketCount = 0 ∧ readItems w v = []

/-- What the lookups of a key answer, and `erase`, is what the elements say. -/
structure Answers (T : TableType K V F) (w : TableWorld K V F) (v : ℕ) (key : K) : Prop where
  find : ∃ node w', (SharedMemoryHashTable.find T v key).run w = (.ok node, w') ∧
    (node = 0 ↔ ∀ x ∈ elements w v, T.keyEqual x.1 key = false) ∧
    (node ≠ 0 → ∃ e, (node, e) ∈ readItems w v ∧ T.keyEqual e.1 key = true)
  contains : ((SharedMemoryHashTable.contains T v key).run w).1 = .ok ((elements w v).any fun x => T.keyEqual x.1 key)
  count : ((SharedMemoryHashTable.count T v key).run w).1 = .ok (if (elements w v).any fun x => T.keyEqual x.1 key then 1 else 0)
  at_eq : ((SharedMemoryHashTable.at' T v key).run w).1 = match (elements w v).find? fun x => T.keyEqual x.1 key with
    | some e => .ok e.2
    | none => .error (.outOfRange "SharedMemoryHashTable::at key not found")
  erase : ((SharedMemoryHashTable.eraseKey T v key).run w).1 = .ok (if (elements w v).any fun x => T.keyEqual x.1 key then 1 else 0)

namespace TablesHold

theorem inOrder (h : TablesHold T w own others) (hv : v ∈ w.names) : InOrder T w v := by
  obtain ⟨hheld, -⟩ := h.holds v hv
  have hread := h.readItems_eq hv
  refine ⟨?_, ?_, fun hb => (hheld.array hb).1, fun hb => ?_, fun hb => ?_⟩ <;> rw [hread]
  · exact hheld.iterates
  · exact hheld.size_eq
  · exact hheld.chains hb
  · exact hheld.bare hb

theorem any_eq_false_iff : ((items.map Prod.snd).any fun x => T.keyEqual x.1 key) = false ↔ ∀ x ∈ items.map Prod.snd, T.keyEqual x.1 key = false :=
  List.any_eq_false.trans (forall₂_congr fun _ _ => Bool.not_eq_true _ ▸ Iff.rfl)

theorem answers (h : TablesHold T w own others) (hv : v ∈ w.names) (hT : T.KeysRespected) (hthrow : ∀ k, T.hashThrows k = false) (key : K) :
    Answers T w v key := by
  obtain ⟨hheld, hkeys⟩ := h.holds v hv
  have hlen := h.length_le hv
  have h0 := hheld.iterates.not_null
  rcases (ends_findNode key hheld hlen).cases with ⟨r, t, hr, hnode, rfl⟩ | ⟨e, t, hr, -, rfl, hcon⟩
  rotate_left
  · rw [hthrow] at hcon
    cases hcon
  have hzero : r = 0 ↔ ∀ x ∈ (own v).1.map Prod.snd, T.keyEqual x.1 key = false := by
    rw [hnode, TableType.lookup_of_respected hT h0, List.forall_mem_map]
  have hne : r ≠ 0 → ∃ e, (r, e) ∈ (own v).1 ∧ T.keyEqual e.1 key = true := by
    rw [hnode]
    exact TableType.lookup_ne_zero
  have hany : ((own v).1.map Prod.snd).any (fun x => T.keyEqual x.1 key) = decide (r ≠ 0) := by
    by_cases hz : r = 0
    · rw [any_eq_false_iff.mpr (hzero.mp hz), decide_eq_false (not_not.mpr hz)]
    · obtain ⟨e, he, hkey⟩ := hne hz
      rw [decide_eq_true hz]
      exact List.any_eq_true.mpr ⟨e, List.mem_map_of_mem (f := Prod.snd) he, hkey⟩
  have hcontains : (SharedMemoryHashTable.contains T v key).run w =
      (.ok (decide (r ≠ 0)), { w with hashes := w.hashes+(w.obj v).lookups }) := run_bind_ok hr _
  refine ⟨⟨r, _, hr, ?_, ?_⟩, ?_, ?_, ?_, ?_⟩ <;> try rw [h.elements_eq hv]
  · exact hzero
  · rw [h.readItems_eq hv]
    exact hne
  · rw [hcontains, hany]
  · unfold SharedMemoryHashTable.count
    rw [run_bind_ok hcontains, hany]
    rfl
  · unfold SharedMemoryHashTable.at' SharedMemoryHashTable.find
    rw [run_bind_ok hr]
    by_cases hz : r = 0
    · rw [if_pos hz, List.find?_eq_none.mpr fun x hx => by simp [hzero.mp hz x hx]]
      rfl
    · obtain ⟨e, he, hkey⟩ := hne hz
      rw [if_neg hz, run_bind_ok (run_readElem (w := { w with hashes := w.hashes+(w.obj v).lookups }) (hheld.iterates.elems _ he))]
      obtain ⟨xs, ys, hsplit⟩ := Items.split_of_mem he
      have hd := hkeys hT
      rw [hsplit, List.map_append, List.map_cons] at hd ⊢
      obtain ⟨hbefore, -⟩ := hd.others hT hkey
      have hfirst := List.find?_cons_of_pos (p := fun x : K × V => T.keyEqual x.1 key) (a := e) (l := ys.map Prod.snd) hkey
      rw [List.find?_append, List.find?_eq_none.mpr fun x hx => by simp [hbefore x hx], Option.none_or, hfirst]
      rfl
  · unfold SharedMemoryHashTable.eraseKey
    rw [run_bind_ok (show (findNode T v key).run w = _ from hr), hany]
    by_cases hz : r = 0
    · rw [if_pos hz, decide_eq_false (not_not.mpr hz)]
      rfl
    · obtain ⟨e, he, -⟩ := hne hz
      obtain ⟨xs, ys, hsplit⟩ := Items.split_of_mem he
      have htable := (h.table hv [v]).setHashes (w.hashes+(w.obj v).lookups)
      rw [hsplit] at htable
      rw [if_neg hz, decide_eq_true hz]
      have herase := ends_eraseNode (E := fun _ _ => False) htable (List.mem_singleton_self v) (hthrow _)
      rcases herase.cases with ⟨_, t, ht, -⟩ | ⟨_, _, -, hcon⟩
      · rw [run_bind_ok ht]
        rfl
      · exact hcon.elim

end TablesHold

/-- Every table is its association list in the order of insertion, as long as what is asked of the allocator fits. -/
theorem table_refines_map (hT : T.KeysRespected) (hthrow : ∀ k, T.hashThrows k = false)
    (h : TableRun T (fun w call => call.Admissible T w) w) :
    (∀ v ∈ w.names, InOrder T w v ∧ T.KeysDistinct (elements w v) ∧ ∀ key, Answers T w v key) ∧
    ∀ call : TableCall K V F, call.Admissible T w → (call.perform T).Ends w (fun _ w' => maps w' = call.onMaps T (maps w))
      fun _ w' => call.OnFailure T (maps w) (maps w') := by
  obtain ⟨own, others, hw⟩ := h.hold fun w call hadm => ⟨hadm, call.hashSafe_of_nothrow hthrow w⟩
  refine ⟨fun v hv => ⟨hw.inOrder hv, ?_, fun key => hw.answers hv hT hthrow key⟩, fun call hadm => ?_⟩
  · rw [hw.elements_eq hv]
    exact (hw.holds v hv).2 hT
  · refine (hw.ends_perform call hadm (call.hashSafe_of_nothrow hthrow w)).mono (fun _ w' hr => ?_) fun _ w' he => ?_
    · obtain ⟨_, _, _, hmap⟩ := hr
      exact hmap hT
    · obtain ⟨_, _, _, hmap⟩ := he
      exact hmap hT

theorem TableRun.perform (h : TableRun T P w) (call : TableCall K V F) (hcall : P w call) (hok : ((call.perform T).run w).1 = .ok ()) :
    TableRun T P ((call.perform T).run w).2 := .returns call h hcall (Prod.ext hok rfl)

/-- Words for words, hashed to themselves. -/
def wordTable (throws hashThrows : ℕ → Bool) : TableType ℕ ℕ ℚ where
  sizeofNode := 48
  alignofNode := 8
  throws := throws
  hashThrows := hashThrows
  fits_link := by decide
  align_pow := ⟨3, by decide, rfl⟩
  hash := id
  keyEqual a b := a == b
  defaultMapped := 0
  factors := exactFactors

theorem wordTable_keysRespected (throws hashThrows : ℕ → Bool) : (wordTable throws hashThrows).KeysRespected where
  equivalence := ⟨fun a => beq_self_eq_true a, fun h => beq_iff_eq.mpr (eq_of_beq h).symm,
    fun h h' => beq_iff_eq.mpr ((eq_of_beq h).trans (eq_of_beq h'))⟩
  hash_eq _ _ h := eq_of_beq h

/-- The small segment without tables. -/
def tableWorld : TableWorld ℕ ℕ ℚ := ⟨smallHeap, fun _ => none, fun _ => .empty, fun _ => ⟨0, 0, 0, 1, 0, 0⟩, [], 0, 0⟩

def afterTableCalls (T : TableType K V F) (calls : List (TableCall K V F)) (w : TableWorld K V F) : TableWorld K V F :=
  calls.foldl (fun w call => ((call.perform T).run w).2) w

/-- Nothing throws. -/
abbrev calmTable : TableType ℕ ℕ ℚ := wordTable (fun _ => false) fun _ => false

/-- A table of two elements in one bucket. -/
def collidingPair : TableWorld ℕ ℕ ℚ :=
  afterTableCalls calmTable [.construct 0 8, .edit 0 (.tryEmplace 5 50), .edit 0 (.tryEmplace 13 130)] tableWorld

theorem collidingPair_run : TableRun calmTable (fun w call => call.Admissible calmTable w) collidingPair := by
  have h₀ : TableRun calmTable (fun w call => call.Admissible calmTable w) tableWorld := .start smallHeap_reachable
  have h₁ := h₀.perform (.construct 0 8) ⟨by decide, by decide +kernel⟩ (by decide +kernel)
  have h₂ := h₁.perform (.edit 0 (.tryEmplace 5 50)) ⟨by decide +kernel, by decide +kernel, by decide +kernel⟩ (by decide +kernel)
  exact h₂.perform (.edit 0 (.tryEmplace 13 130)) ⟨by decide +kernel, by decide +kernel, by decide +kernel⟩ (by decide +kernel)

theorem table_refines_map_collidingPair : InOrder calmTable collidingPair 0 ∧ elements collidingPair 0 = [(5, 50), (13, 130)] ∧
    Answers calmTable collidingPair 0 13 := by
  have hmem : 0 ∈ collidingPair.names := by decide +kernel
  obtain ⟨horder, -, hanswers⟩ := (table_refines_map (wordTable_keysRespected _ _) (fun _ => rfl) collidingPair_run).1 0 hmem
  exact ⟨horder, by decide +kernel, hanswers 13⟩

/-- The byte size of so many buckets wraps in the allocator, and the stores to the array run off the segment. -/
theorem huge_rehash_overruns : TableRun calmTable (fun w call => call.Admissible calmTable w) collidingPair ∧
    ¬((TableCall.edit 0 (.rehash (2^61-3))).perform calmTable).Ends collidingPair (fun _ w' => maps w' = maps collidingPair)
      fun _ w' => maps w' = maps collidingPair := by
  refine ⟨collidingPair_run, Hangs.not_ends ?_⟩
  unfold Hangs
  decide +kernel

end ShmNext
