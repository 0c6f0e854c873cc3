import ShmNext.NamedConstruction

/-! `recover_abandoned_named_objects`: what is left of the registry, and which blocks are given back. -/
namespace ShmNext
open Prog NamedObjectRegistry NamedOp NamedWorld SharedMemoryManager

variable {w t : NamedWorld} {E Et : Buckets} {e : NamedEntry} {fuel recovered : ℕ} {others : List (ℕ × ℕ)}
  {F : NamedThrown → NamedWorld → Prop}

/-- The object is not ready, and the process that was at it is gone. -/
def NamedEntry.abandoned (w : NamedWorld) (e : NamedEntry) : Bool := e.state ≠ .ready && !isProcessAlive w e.owner

/-- The entries that `recover_abandoned_named_objects` is after. -/
def Buckets.abandoned (w : NamedWorld) (E : Buckets) : List NamedEntry := E.entries.filter (NamedEntry.abandoned w)

namespace NamedWorld

/-- Some of the abandoned entries of `w` have been removed, and so many of them. -/
structure Recovering (w : NamedWorld) (E : Buckets) (Et : Buckets) (recovered : ℕ) (t : NamedWorld) : Prop where
  lists : t.Lists Et
  stocked : t.Stocked w.heap (w.heap.beside ((E.abandoned w).flatMap NamedEntry.blocks)) ((Et.abandoned w).flatMap NamedEntry.blocks)
  processes : t.processAlive = w.processAlive
  kept : ∀ i < bucketCount, (Et i).filter (fun e => !e.abandoned w) = (E i).filter fun e => !e.abandoned w
  counted : recovered+(Et.abandoned w).length = (E.abandoned w).length
  freed : (t.heap.freed ++ (Et.abandoned w).flatMap NamedEntry.addresses).Perm
    (w.heap.freed ++ (E.abandoned w).flatMap NamedEntry.addresses)
  within : ∀ x ∈ Et.entries, x ∈ E.entries
  frame : ∀ q, q ∉ (E.abandoned w).flatMap NamedEntry.addresses → (∀ x ∈ E.entries, x.header ≠ q) → t.cell q = w.cell q
  cleared : ∀ x ∈ E.abandoned w, x ∈ Et.entries ∨ ∀ q ∈ x.addresses, t.cell q = none

namespace Recovering

theorem abandoned_eq (h : t.processAlive = w.processAlive) (e : NamedEntry) : e.abandoned t = e.abandoned w := by
  unfold NamedEntry.abandoned isProcessAlive
  rw [h]

/-- The abandoned entries but for one. -/
theorem perm_remove (h : t.Lists Et) (he : e ∈ Et.entries) (hgone : e.abandoned w = true) :
    (Et.abandoned w).Perm (e :: (Et.remove e.header).abandoned w) := by
  obtain ⟨rest, hp, -, -, hrest⟩ := h.apart.split he
  unfold Buckets.abandoned
  calc (Et.entries.filter (NamedEntry.abandoned w)).Perm ((e :: rest).filter (NamedEntry.abandoned w)) := hp.filter _
    _ = e :: rest.filter (NamedEntry.abandoned w) := List.filter_cons_of_pos hgone
    List.Perm _ (e :: (Et.remove e.header).entries.filter (NamedEntry.abandoned w)) := (hrest.symm.filter _).cons e

/-- A cell that is empty stays so when an entry goes. -/
theorem empty_released {t' : NamedWorld} {q : ℕ} (hlists : t.Lists Et) (hr : t.Released Et e t') (hq : t.cell q = none) : t'.cell q = none := by
  by_cases hqe : q ∈ e.addresses
  · exact hr.cleared q hqe
  · refine (hr.frame q hqe fun x hx heq => ?_).trans hq
    have hheader := (hlists.shows x hx).header
    rw [heq, hq] at hheader
    cases hheader

/-- One round takes one abandoned entry out. -/
theorem ends_round (h : w.Recovering E Et recovered t) (he : e ∈ Et.entries) (hgone : e.abandoned w = true) :
    (deallocateNamedStorageUnlocked e.header).Ends t (fun _ t' => w.Recovering E (Et.remove e.header) (recovered+1) t') F := by
  -- the entry is one of those that are left to be removed
  have hperm := perm_remove h.lists he hgone
  have hst : t.Stocked w.heap (w.heap.beside ((E.abandoned w).flatMap NamedEntry.blocks))
      (e.blocks ++ ((Et.remove e.header).abandoned w).flatMap NamedEntry.blocks) :=
    h.stocked.perm (hperm.flatMap_right NamedEntry.blocks)
  refine (ends_deallocateNamedStorageUnlocked h.lists he hst).mono (fun _ t' ⟨hr, hs⟩ => ?_) fun _ _ hf => hf
  have hein : e ∈ E.abandoned w := List.mem_filter.mpr ⟨h.within e he, hgone⟩
  refine ⟨hr.lists, hs, ((congrArg NamedWorld.processAlive hr.same).trans rfl).trans h.processes, fun i hi => ?_, ?_, ?_,
    fun x hx => ?_, fun q hq hx => ?_, fun x hx => ?_⟩
  · rw [← h.kept i hi]
    unfold Buckets.remove
    rw [List.filter_filter]
    refine List.filter_congr fun x hx => ?_
    by_cases hx' : x.header = e.header
    · rw [h.lists.header_unique he (Lists.mem_entries_of_mem hi hx) hx', hgone]
      rfl
    · rw [decide_eq_true hx', Bool.and_true]
  · have hlen := hperm.length_eq
    rw [List.length_cons] at hlen
    have hcounted := h.counted
    omega
  · have haddresses := hperm.flatMap_right NamedEntry.addresses
    rw [List.flatMap_cons] at haddresses
    have hthree : ([e.object, e.header, e.nameAt] : List ℕ).Perm e.addresses := List.reverse_perm e.addresses
    rw [hr.freed]
    refine List.Perm.trans ?_ h.freed
    refine List.Perm.trans ?_ (haddresses.symm.append_left _)
    set later := ((Et.remove e.header).abandoned w).flatMap NamedEntry.addresses
    calc ([e.object, e.header, e.nameAt] ++ t.heap.freed ++ later).Perm (t.heap.freed ++ [e.object, e.header, e.nameAt] ++ later) :=
          List.perm_append_comm.append_right _
      List.Perm _ (t.heap.freed ++ e.addresses ++ later) := (hthree.append_left _).append_right _
      _ = t.heap.freed ++ (e.addresses ++ later) := List.append_assoc ..
  · rw [Buckets.entries_remove] at hx
    exact h.within x (List.mem_of_mem_filter hx)
  · have hqe : q ∉ e.addresses := fun hmem => hq (List.mem_flatMap.mpr ⟨e, hein, hmem⟩)
    exact (hr.frame q hqe fun x hx' => hx x (h.within x hx')).trans (h.frame q hq hx)
  · -- blocks that are given back once stay empty
    rcases h.cleared x hx with hin | hempty
    · by_cases hxe : x.header = e.header
      · obtain rfl := h.lists.header_unique he hin hxe
        exact Or.inr hr.cleared
      · refine Or.inl ?_
        rw [Buckets.entries_remove]
        exact List.mem_filter.mpr ⟨hin, decide_eq_true hxe⟩
    · exact Or.inr fun q hq => empty_released h.lists hr (hempty q hq)

/-- The loop: each round takes one entry, and when none is left the scan finds none. -/
theorem ends_recoverFrom (h : w.Recovering E Et recovered t) (hfuel : (Et.abandoned w).length ≤ fuel) :
    (recoverFrom fuel recovered).Ends t (fun r t' => ∃ E', w.Recovering E E' r t' ∧ E'.abandoned w = []) F := by
  induction fuel generalizing Et recovered t with
  | zero =>
    -- the scan of the last round finds nothing, so that no fuel is needed for it
    have hnil := List.length_eq_zero_iff.mp (Nat.le_zero.mp hfuel)
    unfold recoverFrom
    refine ends_get_bind ?_
    unfold Prog.Ends
    rcases run_findIf (SharedMemoryManager.abandoned t) h.lists (h.lists.length_lt h.stocked).le with ⟨e, he, hgone, -⟩ | ⟨-, hrun⟩
    · have hgone' : e.abandoned w = true := (abandoned_eq h.processes e).symm.trans hgone
      have hmem : e ∈ Et.abandoned w := List.mem_filter.mpr ⟨he, hgone'⟩
      rw [hnil] at hmem
      cases hmem
    · rw [run_bind_ok hrun, if_pos rfl]
      exact ⟨Et, h, hnil⟩
  | succ fuel ih =>
    unfold recoverFrom
    refine ends_get_bind ?_
    unfold Prog.Ends
    rcases run_findIf (SharedMemoryManager.abandoned t) h.lists (h.lists.length_lt h.stocked).le with ⟨e, he, hgone, hrun⟩ | ⟨hnone, hrun⟩
    · have hgone' : e.abandoned w = true := (abandoned_eq h.processes e).symm.trans hgone
      rw [run_bind_ok hrun, if_neg (h.lists.header_ne_zero he)]
      refine (ends_round h he hgone').bind fun _ t' h' => ih h' ?_
      have hlen := (perm_remove h.lists he hgone').length_eq
      rw [List.length_cons] at hlen
      omega
    · rw [run_bind_ok hrun, if_pos rfl]
      refine ⟨Et, h, List.filter_eq_nil_iff.mpr fun e he hgone => ?_⟩
      have hnot : e.abandoned t = false := hnone e he
      rw [abandoned_eq h.processes, hgone] at hnot
      cases hnot

end Recovering

/-- What `recover_abandoned_named_objects` leaves: the entries that were ready or whose owner is alive, in their order; the blocks of the
others are given back, each once, with what was in them; and of what is kept nothing is given back, and nothing written to but the
chain links of headers. -/
structure Recovered (w : NamedWorld) (E : Buckets) (others : List (ℕ × ℕ)) (r : ℕ) (w' : NamedWorld) : Prop where
  consistent : w'.Consistent (fun i => (E i).filter fun e => !e.abandoned w) others
  answer : r = (E.abandoned w).length
  total : w'.totalCount+r = w.totalCount
  ready : w'.readyCount = w.readyCount
  freed : w'.heap.freed.Perm (w.heap.freed ++ (E.abandoned w).flatMap NamedEntry.addresses)
  untouched : ∀ a ∈ w.heap.live, a.payload ∉ (E.abandoned w).flatMap NamedEntry.addresses →
    a ∈ w'.heap.live ∧ Undisturbed a w.heap.alloc w'.heap.alloc
  emptied : ∀ q ∈ (E.abandoned w).flatMap NamedEntry.addresses, w'.cell q = none
  cells : ∀ q, q ∉ (E.abandoned w).flatMap NamedEntry.addresses → w'.cell q = w.cell q ∨
    ∃ e ∈ E.entries, e.abandoned w = false ∧ e.header = q ∧
      ∃ next next', w.cell q = some (.header (e.record next)) ∧ w'.cell q = some (.header (e.record next'))

end NamedWorld

/-- The loop of `recover_abandoned_named_objects` ends, whatever there is in the registry and whoever is alive. -/
theorem recover_removes_exactly (h : w.Consistent E others) :
    recoverAbandonedNamedObjects.Ends w (w.Recovered E others) fun _ _ => False := by
  set kept : Buckets := fun i => (E i).filter fun e => !e.abandoned w with hkept
  have hentries : kept.entries = E.entries.filter fun e => !e.abandoned w := List.filter_flatMap.symm
  have hsplit : E.entries.Perm (E.abandoned w ++ kept.entries) := by
    rw [hentries]
    exact (List.filter_append_perm _ _).symm
  -- only what is to be given back is worked on; all else is kept
  have hall : w.Stocked w.heap [] ((E.abandoned w).flatMap NamedEntry.blocks ++ (kept.entries.flatMap NamedEntry.blocks ++ others)) := by
    refine h.stocked.perm ?_
    have hp := (hsplit.flatMap_right NamedEntry.blocks).append_right others
    rwa [List.flatMap_append, List.append_assoc] at hp
  have hstart : w.Recovering E E 0 w :=
    ⟨h.lists, ⟨hall.holding.focus, h.stocked.placed⟩, rfl, fun _ _ => rfl, Nat.zero_add _, List.Perm.refl _, fun _ hx => hx,
      fun _ _ _ => rfl, fun _ hx => Or.inl (List.mem_of_mem_filter hx)⟩
  -- every entry has a block of its own, so there are fewer entries than blocks
  have hfuel : (E.abandoned w).length ≤ walkFuel := (List.length_filter_le _ _).trans (h.lists.length_lt h.stocked).le
  refine (hstart.ends_recoverFrom hfuel).mono (fun r w' ⟨E', hr, hnil⟩ => ?_) fun _ _ hf => hf
  have hlists : w'.Lists kept := by
    refine hr.lists.of_eq fun i hi => ?_
    rw [hkept]
    dsimp only
    rw [← hr.kept i hi]
    refine List.filter_eq_self.mpr fun e he => ?_
    have hnot := List.filter_eq_nil_iff.mp hnil e (Lists.mem_entries_of_mem hi he)
    rwa [Bool.not_eq_true, ← Bool.not_eq_true'] at hnot
  have hst := hr.stocked
  have hcounted := hr.counted
  have hfreed := hr.freed
  rw [hnil] at hst hcounted hfreed
  rw [List.flatMap_nil, List.append_nil] at hfreed
  refine ⟨⟨hlists, hst.gather hall⟩, hcounted, ?_, ?_, hfreed, fun a ha hnot => ?_, fun q hq => ?_, fun q hq => ?_⟩
  · rw [hlists.total, h.lists.total, hsplit.length_eq, List.length_append, ← hcounted]
    exact Nat.add_comm _ _
  · rw [hlists.ready, h.lists.ready, hentries, List.countP_filter]
    refine List.countP_congr fun e _ => ?_
    unfold NamedEntry.abandoned
    by_cases hstate : e.state = .ready <;> simp [hstate]
  · have hbeside : a ∈ w.heap.beside ((E.abandoned w).flatMap NamedEntry.blocks) := by
      refine Heap.mem_beside.mpr ⟨ha, ?_⟩
      rw [List.map_flatMap]
      exact hnot
    exact ⟨hst.holding.kept_live a hbeside, hst.holding.kept_same a hbeside⟩
  · obtain ⟨e, he, hqe⟩ := List.mem_flatMap.mp hq
    rcases hr.cleared e he with hin | hempty
    · have hleft : e ∈ E'.abandoned w := List.mem_filter.mpr ⟨hin, (List.mem_filter.mp he).2⟩
      rw [hnil] at hleft
      cases hleft
    · exact hempty q hqe
  · by_cases hheader : ∃ e ∈ E.entries, e.header = q
    · obtain ⟨e, he, rfl⟩ := hheader
      have hstays : e.abandoned w = false := by
        by_contra hgone
        exact hq (List.mem_flatMap.mpr ⟨e, List.mem_filter.mpr ⟨he, by simpa using hgone⟩, e.header_mem⟩)
      have hin : e ∈ kept.entries := by
        rw [hentries]
        exact List.mem_filter.mpr ⟨he, by rw [hstays]; rfl⟩
      exact Or.inr ⟨e, he, hstays, rfl, _, _, (h.lists.shows e he).header, (hlists.shows e hin).header⟩
    · exact Or.inl (hr.frame q hq fun x hx heq => hheader ⟨x, hx, heq⟩)

/-- Another process has died. -/
theorem NamedWorld.Consistent.withProcesses (h : w.Consistent E others) (processAlive : ℕ → Bool) :
    ({ w with processAlive := processAlive } : NamedWorld).Consistent E others :=
  ⟨h.lists.congr (fun _ _ _ _ => rfl) rfl rfl rfl, ⟨h.stocked.holding, h.stocked.placed⟩⟩

/-- A process has reserved an object, and is gone. -/
def leftBehind : NamedWorld :=
  { ((reserveNamedStorage throwingWord 7 (some [97]) 1 false).run (emptyRegistry smallHeap)).2 with processAlive := fun _ => false }

section
-- a statement about this one state is not to be run
attribute [local irreducible] Ends

theorem consistent_leftBehind : ∃ E, leftBehind.Consistent E smallHeap.allocations ∧ (E.abandoned leftBehind).length = 1 := by
  have hc := consistent_emptyRegistry smallHeap_reachable.inv
  have hok : ((reserveNamedStorage throwingWord 7 (some [97]) 1 false).run (emptyRegistry smallHeap)).1 = .ok ⟨4320, 4256, 0⟩ := by
    decide +kernel
  have hends := @ends_reserveNamedStorage _ (fun _ => []) 7 1 _ _ _ throwingWord (some [97]) false hc.lists hc.beside
    (namedRoom_small (by decide))
  obtain ⟨r, w₁, hrun, bytes, hbytes, -, hr⟩ | ⟨err, w₁, hrun, -⟩ := hends.cases
  · obtain rfl := Option.some.inj hbytes
    have hleft : leftBehind = { w₁ with processAlive := fun _ => false } := by
      unfold leftBehind
      rw [hrun]
    cases hr with
    | taken he =>
      rw [Buckets.entries_nil] at he
      cases he
    | found he =>
      rw [Buckets.entries_nil] at he
      cases he
    | @reserved object header nameAt w₁ hnew hres hst =>
      refine ⟨_, hleft ▸ ((Building.of_reserved hres hst).consistent hc).withProcesses _, ?_⟩
      unfold Buckets.abandoned
      rw [((Buckets.entries_add _ _).filter _).length_eq, Buckets.entries_nil]
      rfl
  · cases (congrArg Prod.fst hrun).symm.trans hok

theorem recover_removes_exactly_leftBehind : ∃ E, (E.abandoned leftBehind).length = 1 ∧
    recoverAbandonedNamedObjects.Ends leftBehind (leftBehind.Recovered E smallHeap.allocations) fun _ _ => False := by
  obtain ⟨E, hc, hlen⟩ := consistent_leftBehind
  exact ⟨E, hlen, recover_removes_exactly hc⟩

end

end ShmNext
