import ShmNext.NodePoolOps

/-! Containers side by side: the blocks of one are taken into focus, worked on, and put back among the others. -/
namespace ShmNext
open Prog

variable {N M : Type} {T : NodeType} {w w' w₀ : NodeWorld N M} {vs : List ℕ} {kept : List LiveAlloc} {mine mine' others : List (ℕ × ℕ)}
  {g : Heap} {r : ℕ × ℕ}

/-- The blocks held are exactly these. -/
abbrev NodeWorld.Owns (T : NodeType) (w : NodeWorld N M) (mine : List (ℕ × ℕ)) : Prop := Owning T [] w [] w mine

theorem Owning.mem_allocations (h : w.Owns T mine) : r ∈ w.heap.allocations ↔ r ∈ mine := by
  obtain ⟨bs, l, hinv⟩ := h.holding.heap
  constructor
  · intro hr
    obtain ⟨a, ha, rfl⟩ := List.mem_map.mp hr
    rcases h.holding.covered a ha with hk | ⟨r, hr, heq⟩
    · cases hk
    · obtain ⟨a', ha', hpay, hsize⟩ := h.holding.mine_live r hr
      obtain rfl := hinv.payload_unique ha ha' (heq.symm.trans hpay.symm)
      have hsame : r = (a.payload, a.size) := Prod.ext hpay.symm hsize.symm
      rwa [← hsame]
  · intro hr
    obtain ⟨a, ha, hpay, hsize⟩ := h.holding.mine_live r hr
    exact List.mem_map.mpr ⟨a, ha, Prod.ext hpay hsize⟩

/-- From here on `mine` is worked on, and the rest kept. -/
theorem Owning.focus (h : w.Owns T (mine ++ others)) (vs : List ℕ) : Owning T vs w (w.heap.beside mine) w mine :=
  ⟨h.holding.focus, fun _ _ => rfl, h.placed, fun _ _ => rfl, fun _ _ => rfl, rfl⟩

/-- A block that is not in focus is kept. -/
theorem Owning.kept_of_mem (h : w.Owns T (mine ++ others)) (hr : r ∈ others) :
    ∃ a ∈ w.heap.beside mine, a.payload = r.1 ∧ a.size = r.2 := h.holding.kept_of_mem hr

/-- The work is done: its blocks and the others are all there is. -/
theorem Owning.gather (h : Owning T vs w (w.heap.beside mine) w' mine') (hall : w.Owns T (mine ++ others)) (ns : List ℕ) :
    ({ w' with names := ns } : NodeWorld N M).Owns T (mine' ++ others) :=
  ⟨h.holding.gather hall.holding, fun a ha => (by cases ha), h.placed, fun _ _ => rfl, fun _ _ => rfl, rfl⟩

/-- Blocks that were kept count as worked on as well. -/
theorem Owning.widen {more : List (ℕ × ℕ)} (h : Owning T vs w (w.heap.beside mine) w' mine')
    (hall : w.Owns T (mine ++ (more ++ others))) : Owning T vs w (w.heap.beside (mine ++ more)) w' (mine' ++ more) := by
  have hsub : ∀ a ∈ w.heap.beside (mine ++ more), a ∈ w.heap.beside mine := by
    intro a ha
    obtain ⟨hlive, hnot⟩ := Heap.mem_beside.mp ha
    refine Heap.mem_beside.mpr ⟨hlive, fun hm => hnot ?_⟩
    rw [List.map_append]
    exact List.mem_append_left _ hm
  -- `more` was kept by the call as somebody else's, and is counted with `mine` now
  have hmore : ∀ r ∈ more, ∃ a ∈ w.heap.beside mine, a.payload = r.1 ∧ a.size = r.2 :=
    fun r hr => hall.kept_of_mem (List.mem_append_left _ hr)
  have hnd := hall.holding.distinct
  simp only [List.map_append] at hnd
  have hhold := h.holding
  refine ⟨⟨hhold.heap, fun a ha => hhold.kept_live a (hsub a ha), fun a ha => hhold.kept_same a (hsub a ha), fun r hr => ?_, ?_,
    fun r hr a ha heq => ?_, fun a ha => ?_, hhold.place⟩, fun a ha => h.cells_kept a (hsub a ha), h.placed, h.pools_same, h.objs_same,
    h.names_same⟩
  · rcases List.mem_append.mp hr with hr | hr
    · exact hhold.mine_live r hr
    · obtain ⟨a, ha, hpay⟩ := hmore r hr
      exact ⟨a, hhold.kept_live a ha, hpay⟩
  · rw [List.map_append]
    refine List.nodup_append.mpr ⟨hhold.distinct, (List.nodup_append.mp (List.nodup_append.mp hnd).2.1).1, fun p hp q hq heq => ?_⟩
    obtain ⟨r, hr, rfl⟩ := List.mem_map.mp hp
    obtain ⟨s, hs, rfl⟩ := List.mem_map.mp hq
    obtain ⟨a, ha, hpay, -⟩ := hmore s hs
    exact hhold.apart r hr a ha (hpay.trans heq.symm)
  · rcases List.mem_append.mp hr with hr | hr
    · exact hhold.apart r hr a (hsub a ha) heq
    · refine (Heap.mem_beside.mp ha).2 ?_
      rw [heq, List.map_append]
      exact List.mem_append_right _ (List.mem_map_of_mem hr)
  · rcases hhold.covered a ha with hk | ⟨r, hr, heq⟩
    · by_cases hm : a.payload ∈ more.map Prod.fst
      · obtain ⟨r, hr, heq⟩ := List.mem_map.mp hm
        exact Or.inr ⟨r, List.mem_append_right _ hr, heq⟩
      · obtain ⟨hlive, hnot⟩ := Heap.mem_beside.mp hk
        refine Or.inl (Heap.mem_beside.mpr ⟨hlive, fun hin => ?_⟩)
        rw [List.map_append] at hin
        exact (List.mem_append.mp hin).elim hnot hm
    · exact Or.inr ⟨r, List.mem_append_left _ hr, heq⟩

/-- The names of the containers do not matter to their blocks. -/
theorem Owning.withNames (h : w.Owns T mine) (ns : List ℕ) : ({ w with names := ns } : NodeWorld N M).Owns T mine :=
  ⟨h.holding, fun a ha => (by cases ha), h.placed, fun _ _ => rfl, fun _ _ => rfl, rfl⟩

/-- What is not in focus is left alone. -/
theorem Owning.cell_kept (h : Owning T vs w (w.heap.beside mine) w' mine') (hall : w.Owns T (mine ++ others)) (hr : r ∈ others) :
    w'.cell r.1 = w.cell r.1 := by
  obtain ⟨a, ha, hpay, -⟩ := hall.kept_of_mem hr
  rw [← hpay]
  exact h.cells_kept a ha

/-! Any number of containers of one class. -/

/-- A class of containers: what its blocks are, given its members and what it stands for, and what holds of it. -/
structure Discipline (N M S : Type) where
  blocks : M → S → List (ℕ × ℕ)
  holds : NodeWorld N M → ℕ → S → Prop
  congr : ∀ {w w' : NodeWorld N M} {v : ℕ} {s : S}, holds w v s → w'.obj v = w.obj v → w'.pool v = w.pool v →
    (∀ r ∈ blocks (w.obj v) s, w'.cell r.1 = w.cell r.1) → holds w' v s

variable {S : Type} {D : Discipline N M S} {own own' : ℕ → S} {fs fs' L : List ℕ} {lost : List (ℕ × ℕ)} {u : NodeWorld N M} {v : ℕ}

/-- The blocks of the containers `fs`. -/
def Discipline.blocksOf (D : Discipline N M S) (w : NodeWorld N M) (own : ℕ → S) (fs : List ℕ) : List (ℕ × ℕ) :=
  fs.flatMap fun v => D.blocks (w.obj v) (own v)

/-- Each container is in order, and no block is held that is not one of theirs or of `others`. -/
structure SideBySide (T : NodeType) (D : Discipline N M S) (w : NodeWorld N M) (own : ℕ → S) (others : List (ℕ × ℕ)) : Prop where
  nodup : w.names.Nodup
  owns : w.Owns T (D.blocksOf w own w.names ++ others)
  holds : ∀ v ∈ w.names, D.holds w v (own v)

namespace Discipline

@[simp] theorem blocksOf_nil : D.blocksOf w own [] = [] := rfl

@[simp] theorem blocksOf_cons : D.blocksOf w own (v :: fs) = D.blocks (w.obj v) (own v) ++ D.blocksOf w own fs := List.flatMap_cons

theorem blocksOf_congr (hobj : ∀ v ∈ fs, w'.obj v = w.obj v) (hown : ∀ v ∈ fs, own' v = own v) :
    D.blocksOf w' own' fs = D.blocksOf w own fs := by
  refine List.flatMap_congr fun v hv => ?_
  rw [hobj v hv, hown v hv]

theorem mem_blocksOf (hv : v ∈ fs) (hr : r ∈ D.blocks (w.obj v) (own v)) : r ∈ D.blocksOf w own fs := List.mem_flatMap.mpr ⟨v, hv, hr⟩

end Discipline

namespace SideBySide

/-- The blocks of the containers `fs` come first, then those of the containers `L`. -/
theorem split (h : SideBySide T D w own others) (hp : w.names.Perm (fs ++ L)) :
    w.Owns T (D.blocksOf w own fs ++ (D.blocksOf w own L ++ others)) := by
  have hperm := (hp.flatMap_right fun v => D.blocks (w.obj v) (own v)).append_right others
  rw [List.flatMap_append, List.append_assoc] at hperm
  exact h.owns.perm hperm

/-- The containers `fs` are taken into focus. -/
theorem focus (h : SideBySide T D w own others) (hp : w.names.Perm (fs ++ L)) (vs : List ℕ) :
    Owning T vs w (w.heap.beside (D.blocksOf w own fs)) w (D.blocksOf w own fs) := (h.split hp).focus vs

/-- Nothing is in focus. -/
theorem focus_none (h : SideBySide T D w own others) (vs : List ℕ) : Owning T vs w (w.heap.beside []) w [] := by
  have hp : w.names.Perm ([] ++ w.names) := List.Perm.refl _
  exact h.focus hp vs

/-- The containers `fs` are taken into focus, and some blocks that are none of a container. -/
theorem focus_taking {taken : List (ℕ × ℕ)} (h : SideBySide T D w own (taken ++ others)) (hp : w.names.Perm (fs ++ L)) :
    w.Owns T ((D.blocksOf w own fs ++ taken) ++ (D.blocksOf w own L ++ others)) := by
  refine (h.split hp).perm ?_
  rw [List.append_assoc]
  refine List.Perm.append_left _ ?_
  rw [← List.append_assoc, ← List.append_assoc]
  exact List.perm_append_comm.append_right others

/-- The containers `fs` have been worked on and `fs'` are there in their place; those of `L` were left alone. -/
theorem put_taking (own' : ℕ → S) (fs' ns : List ℕ) {taken : List (ℕ × ℕ)} (h : SideBySide T D w own (taken ++ others))
    (hp : w.names.Perm (fs ++ L))
    (hu : Owning T vs w (w.heap.beside (D.blocksOf w own fs ++ taken)) u (D.blocksOf u own' fs' ++ lost)) (hL : ∀ v ∈ L, v ∉ vs)
    (hnew : (fs' ++ L).Nodup) (hns : ns.Perm (fs' ++ L)) (hsame : ∀ v ∈ L, own' v = own v) (hholds : ∀ v ∈ fs', D.holds u v (own' v)) :
    SideBySide T D { u with names := ns } own' (lost ++ others) := by
  have hsplit := h.focus_taking hp
  have hobj : ∀ v ∈ L, u.obj v = w.obj v := fun v hv => hu.objs_same v (hL v hv)
  have hblocks : D.blocksOf u own' L = D.blocksOf w own L := Discipline.blocksOf_congr hobj hsame
  refine ⟨hns.nodup_iff.mpr hnew, ?_, fun v hv => ?_⟩
  · refine (hu.gather hsplit ns).perm ?_
    have hperm := (hns.symm.flatMap_right fun v => D.blocks (u.obj v) (own' v)).append_right (lost ++ others)
    rw [List.flatMap_append] at hperm
    refine List.Perm.trans ?_ hperm
    have hL' : (L.flatMap fun v => D.blocks (u.obj v) (own' v)) = D.blocksOf w own L := hblocks
    rw [hL', List.append_assoc, List.append_assoc]
    refine List.Perm.append_left _ ?_
    rw [← List.append_assoc, ← List.append_assoc]
    exact List.Perm.append_right _ List.perm_append_comm
  · rcases List.mem_append.mp (hns.mem_iff.mp hv) with hv | hv
    · exact D.congr (hholds v hv) rfl rfl fun _ _ => rfl
    · have hheld := h.holds v (hp.mem_iff.mpr (List.mem_append_right _ hv))
      rw [hsame v hv]
      refine D.congr hheld (hobj v hv) (hu.pools_same v (hL v hv)) fun r hr => ?_
      exact hu.cell_kept hsplit (List.mem_append_left _ (Discipline.mem_blocksOf hv hr))

theorem put (vs : List ℕ) (own' : ℕ → S) (fs' ns : List ℕ) (lost : List (ℕ × ℕ)) (h : SideBySide T D w own others) (hp : w.names.Perm (fs ++ L))
    (hu : Owning T vs w (w.heap.beside (D.blocksOf w own fs)) u (D.blocksOf u own' fs' ++ lost)) (hL : ∀ v ∈ L, v ∉ vs)
    (hnew : (fs' ++ L).Nodup) (hns : ns.Perm (fs' ++ L)) (hsame : ∀ v ∈ L, own' v = own v) (hholds : ∀ v ∈ fs', D.holds u v (own' v)) :
    SideBySide T D { u with names := ns } own' (lost ++ others) := by
  rw [← List.append_nil (D.blocksOf w own fs)] at hu
  have h' : SideBySide T D w own ([] ++ others) := h
  exact put_taking own' fs' ns h' hp hu hL hnew hns hsame hholds

/-- The names of the others, where one container is worked on. -/
theorem perm_erase (hv : v ∈ w.names) : w.names.Perm ([v] ++ w.names.erase v) := List.perm_cons_erase hv

/-- One container has been worked on, with blocks that were none of a container. -/
theorem put_one_taking {taken : List (ℕ × ℕ)} (h : SideBySide T D w own (taken ++ others)) (hv : v ∈ w.names) {s : S}
    (hu : Owning T [v] w (w.heap.beside (D.blocks (w.obj v) (own v) ++ taken)) u (D.blocks (u.obj v) s ++ lost)) (hs : D.holds u v s) :
    SideBySide T D u (Function.update own v s) (lost ++ others) := by
  have hnot : ∀ x ∈ w.names.erase v, x ≠ v := fun x hx heq => h.nodup.not_mem_erase (heq ▸ hx)
  have hfocus : Owning T [v] w (w.heap.beside (D.blocksOf w own [v] ++ taken)) u
      (D.blocksOf u (Function.update own v s) [v] ++ lost) := by
    simp only [Discipline.blocksOf_cons, Discipline.blocksOf_nil, List.append_nil, Function.update_self]
    exact hu
  have hput := put_taking (Function.update own v s) [v] w.names h (perm_erase hv) hfocus (fun x hx => by simpa using hnot x hx)
    ((perm_erase hv).nodup_iff.mp h.nodup) (perm_erase hv) (fun x hx => Function.update_of_ne (hnot x hx) _ _) fun x hx => ?_
  · rw [← hu.names_same] at hput
    exact hput
  · obtain rfl := List.mem_singleton.mp hx
    rw [Function.update_self]
    exact hs

/-- One container has been worked on, in its place. -/
theorem put_one (h : SideBySide T D w own others) (hv : v ∈ w.names) {s : S}
    (hu : Owning T [v] w (w.heap.beside (D.blocks (w.obj v) (own v))) u (D.blocks (u.obj v) s ++ lost)) (hs : D.holds u v s) :
    SideBySide T D u (Function.update own v s) (lost ++ others) := by
  rw [← List.append_nil (D.blocks (w.obj v) (own v))] at hu
  have h' : SideBySide T D w own ([] ++ others) := h
  exact put_one_taking h' hv hu hs

/-- What is read of a container that has been left alone is what it was. -/
theorem focus_one (h : SideBySide T D w own others) (hv : v ∈ w.names) (vs : List ℕ) :
    Owning T vs w (w.heap.beside (D.blocks (w.obj v) (own v))) w (D.blocks (w.obj v) (own v)) := by
  have hfocus := h.focus (perm_erase hv) vs
  simp only [Discipline.blocksOf_cons, Discipline.blocksOf_nil, List.append_nil] at hfocus
  exact hfocus

end SideBySide

/-! Calls of somebody else. -/

/-- A call of somebody else does not touch what the containers hold. -/
def NodeWorld.Foreign (w : NodeWorld N M) : Call → Prop
  | .deallocate p => w.cell p = none
  | .deallocateMany ps => ∀ p ∈ ps, w.cell p = none
  | .tryExpand p n al => w.cell p = none ∧ ExpandsApart w.heap.alloc w.heap.live p n al
  | .userWrite x _ => ∀ a ∈ w.heap.live, w.cell a.payload ≠ none → x < a.payload ∨ a.payload+a.size ≤ x
  | _ => True

/-- The allocations besides `mine`, with their sizes. -/
def Heap.foreign (g : Heap) (mine : List (ℕ × ℕ)) : List (ℕ × ℕ) := (g.beside mine).map fun a => (a.payload, a.size)

/-- What is `mine` stays, and all that is held besides is somebody else's. -/
theorem Owning.elsewhere_foreign {call : Call} (h : w.Owns T (mine ++ others)) (hmine : ∀ r ∈ mine, w.cell r.1 ≠ none)
    (hadm : w.heap.Admissible call) (hforeign : w.Foreign call) (hexec : w.heap.exec call = some g) :
    w.withHeap T g = { w with heap := g } ∧ (w.withHeap T g).Owns T (mine ++ g.foreign mine) := by
  obtain ⟨bs, l, hinv⟩ := h.holding.heap
  -- a call of others frees and writes to nothing that holds a cell, so that `mine` is what it was
  have hkeeps : ∀ a ∈ w.heap.live, w.cell a.payload ≠ none → a ∈ g.live ∧ SamePayload a w.heap.alloc.mem g.alloc.mem := by
    intro a ha hcell
    refine Heap.exec_keeps ⟨bs, l, hinv⟩ hadm hexec ha ?_ ?_ ?_
    · intro hfree
      cases call with
      | deallocate p => exact hcell (hfree ▸ hforeign)
      | deallocateMany ps => exact hcell (hforeign _ hfree)
      | _ => exact hfree
    · rintro p n al rfl
      exact ⟨fun heq => hcell (heq ▸ hforeign.1), hforeign.2⟩
    · rintro x b rfl
      exact hforeign a ha hcell
  have hsame := h.withHeap_eq fun a ha hcell => (hkeeps a ha hcell).2
  rw [hsame]
  obtain ⟨⟨bs', l', hinv'⟩, -⟩ := hinv.step hadm hexec
  have hlive : ∀ r ∈ mine, ∃ a ∈ g.live, a.payload = r.1 ∧ a.size = r.2 := by
    intro r hr
    obtain ⟨a, ha, hpay, hsize⟩ := h.holding.mine_live r (List.mem_append_left _ hr)
    exact ⟨a, (hkeeps a ha (hpay ▸ hmine r hr)).1, hpay, hsize⟩
  have hnd := h.holding.distinct
  rw [List.map_append] at hnd
  have hother : ∀ r ∈ (g.beside mine).map fun a : LiveAlloc => (a.payload, a.size), ∃ a ∈ g.live, a.payload = r.1 ∧ a.size = r.2 := by
    intro r hr
    obtain ⟨a, ha, rfl⟩ := List.mem_map.mp hr
    exact ⟨a, (Heap.mem_beside.mp ha).1, rfl, rfl⟩
  unfold Heap.foreign
  refine ⟨rfl, ⟨⟨⟨bs', l', hinv'⟩, fun a ha => (by cases ha), fun a ha => (by cases ha),
    fun r hr => ?_, ?_, fun r _ a ha => (by cases ha), fun a ha => Or.inr ?_, rfl, rfl⟩, fun a ha => (by cases ha), fun q c hq => ?_,
    fun _ _ => rfl, fun _ _ => rfl, rfl⟩⟩
  · rcases List.mem_append.mp hr with hr | hr
    · exact hlive r hr
    · exact hother r hr
  · rw [List.map_append, List.map_map]
    refine List.nodup_append.mpr ⟨(List.nodup_append.mp hnd).1, ?_, fun p hp q hq heq => ?_⟩
    · have hndl : (g.beside mine).Nodup := (List.Nodup.of_map _ hinv'.distinct).filter _
      refine List.Nodup.map_on (fun a ha b hb heq => ?_) hndl
      exact hinv'.payload_unique (Heap.mem_beside.mp ha).1 (Heap.mem_beside.mp hb).1 heq
    · obtain ⟨a, ha, hq⟩ := List.mem_map.mp hq
      refine (Heap.mem_beside.mp ha).2 ?_
      rw [show a.payload = p from hq.trans heq.symm]
      exact hp
  · by_cases hin : a.payload ∈ mine.map Prod.fst
    · obtain ⟨r, hr, heq⟩ := List.mem_map.mp hin
      exact ⟨r, List.mem_append_left _ hr, heq⟩
    · exact ⟨_, List.mem_append_right _ (List.mem_map.mpr ⟨a, Heap.mem_beside.mpr ⟨ha, hin⟩, rfl⟩), rfl⟩
  · obtain ⟨a, ha, hpay, hext⟩ := h.placed q c hq
    refine ⟨a, (hkeeps a ha ?_).1, hpay, hext⟩
    rw [hpay]
    change w.cell q = some c at hq
    rw [hq]
    exact Option.some_ne_none c

theorem Owning.elsewhere {call : Call} (h : w.Owns T (mine ++ others)) (hmine : ∀ r ∈ mine, w.cell r.1 ≠ none)
    (hadm : w.heap.Admissible call) (hforeign : w.Foreign call) (hexec : w.heap.exec call = some g) :
    w.withHeap T g = { w with heap := g } ∧ ∃ others', (w.withHeap T g).Owns T (mine ++ others') := by
  obtain ⟨hsame, howns⟩ := h.elsewhere_foreign hmine hadm hforeign hexec
  exact ⟨hsame, _, howns⟩

/-- A segment without containers. -/
theorem SideBySide.start {bs l : List Block} {pool : ℕ → NodePool} {obj : ℕ → M} {calls hashes : ℕ}
    (hinv : HeapInv (fun _ => False) g.alloc g.live bs l) (own : ℕ → S) :
    SideBySide T D ⟨g, fun _ => none, pool, obj, [], calls, hashes⟩ own (g.live.map fun a => (a.payload, a.size)) :=
  ⟨List.nodup_nil, ⟨.all hinv, fun a ha => (by cases ha), fun q c hq => (by cases hq), fun _ _ => rfl, fun _ _ => rfl, rfl⟩,
    fun v hv => (by cases hv)⟩

theorem SideBySide.setHashes (h : SideBySide T D w own others) (k : ℕ) : SideBySide T D { w with hashes := k } own others := by
  refine ⟨h.nodup, ?_, fun v hv => D.congr (h.holds v hv) rfl rfl fun _ _ => rfl⟩
  exact ⟨h.owns.holding, fun a ha => (by cases ha), h.owns.placed, fun _ _ => rfl, fun _ _ => rfl, rfl⟩

theorem SideBySide.elsewhere {call : Call} (h : SideBySide T D w own others)
    (hcells : ∀ v ∈ w.names, ∀ r ∈ D.blocks (w.obj v) (own v), w.cell r.1 ≠ none)
    (hadm : w.heap.Admissible call) (hforeign : w.Foreign call) (hexec : w.heap.exec call = some g) :
    w.withHeap T g = { w with heap := g } ∧ ∃ others', SideBySide T D (w.withHeap T g) own others' := by
  have hmine : ∀ r ∈ D.blocksOf w own w.names, w.cell r.1 ≠ none := by
    intro r hr
    obtain ⟨v, hv, hr⟩ := List.mem_flatMap.mp hr
    exact hcells v hv r hr
  obtain ⟨hsame, others', howns⟩ := h.owns.elsewhere hmine hadm hforeign hexec
  refine ⟨hsame, others', ?_⟩
  rw [hsame] at howns ⊢
  exact ⟨h.nodup, howns, fun v hv => D.congr (h.holds v hv) rfl rfl fun _ _ => rfl⟩

end ShmNext
