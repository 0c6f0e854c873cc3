import ShmNext.VectorRefinement

/-! Vector calls that throw: the contents are those before the call, and nothing has leaked. -/
namespace ShmNext
open Prog SharedMemoryVector

variable {V : Type} {T : ElementType V} {w w' : VectorWorld V} {A : ℕ → Option (List V)} {own : ℕ → List (Region V)}
  {others rs : List (Region V)} {v other sz : ℕ} {g g' : Heap} {o o' : Objects V}

/-- Where an allocation lies. -/
def LiveAlloc.place (a : LiveAlloc) : ℕ × ℕ := (a.payload, a.size)

def Region.place (r : Region V) : ℕ × ℕ := (r.base, r.bytes)

/-- The allocations that are not the storage of a vector. -/
def unowned (w : VectorWorld V) : List (ℕ × ℕ) :=
  (w.heap.live.filter fun a => ∀ v ∈ w.names, (w.vec v).start ≠ a.payload).map LiveAlloc.place

namespace StoredExactly

theorem places_nodup (h : StoredExactly sz g o rs) : (rs.map Region.place).Nodup := by
  have hbases : ((rs.map Region.place).map Prod.fst).Nodup := by
    rw [List.map_map]
    exact h.distinct
  exact hbases.of_map

theorem mem_places (h : StoredExactly sz g o rs) (x : ℕ × ℕ) :
    x ∈ rs.map Region.place ↔ x ∈ g.live.map LiveAlloc.place := by
  obtain ⟨bs, l, hinv⟩ := h.heap
  constructor
  · intro hx
    obtain ⟨r, hr, rfl⟩ := List.mem_map.mp hx
    obtain ⟨a, ha, hb, hs⟩ := h.live r hr
    exact List.mem_map.mpr ⟨a, ha, Prod.ext hb hs⟩
  · intro hx
    obtain ⟨a, ha, rfl⟩ := List.mem_map.mp hx
    obtain ⟨r, hr, hb⟩ := h.covered a ha
    obtain ⟨a', ha', hb', hs'⟩ := h.live r hr
    obtain rfl := hinv.payload_unique ha ha' (hb.symm.trans hb'.symm)
    exact List.mem_map.mpr ⟨r, hr, Prod.ext hb hs'.symm⟩

/-- The regions are the allocations. -/
theorem places_perm (h : StoredExactly sz g o rs) : (g.live.map LiveAlloc.place).Perm (rs.map Region.place) := by
  obtain ⟨bs, l, hinv⟩ := h.heap
  have hnodup : (g.live.map LiveAlloc.place).Nodup := by
    have hpay : ((g.live.map LiveAlloc.place).map Prod.fst).Nodup := by
      rw [List.map_map]
      exact hinv.payloads_nodup
    exact hpay.of_map
  exact (List.perm_ext_iff_of_nodup hnodup h.places_nodup).mpr fun x => (h.mem_places x).symm

end StoredExactly

namespace VectorsHold

/-- A region of a vector starts where the vector says. -/
theorem base_of_own (h : VectorsHold T w A own others) {r : Region V} (hv : v ∈ w.names) (hr : r ∈ own v) :
    r.base = (w.vec v).start := by
  obtain ⟨ys, ho, -⟩ := h.owns v hv
  generalize w.vec v = x at ho ⊢
  generalize own v = mine at ho hr
  cases ho with
  | null => cases hr
  | storage =>
    obtain rfl := List.mem_singleton.mp hr
    rfl

/-- A vector that is not null has a region. -/
theorem own_of_start (h : VectorsHold T w A own others) (hv : v ∈ w.names) (hne : (w.vec v).start ≠ 0) : own v ≠ [] := by
  obtain ⟨ys, ho, -⟩ := h.owns v hv
  generalize w.vec v = x at ho hne
  generalize own v = mine at ho
  cases ho with
  | null => exact absurd rfl hne
  | storage => exact List.cons_ne_nil _ _

theorem unowned_perm (h : VectorsHold T w A own others) : (unowned w).Perm (others.map Region.place) := by
  have hst : StoredExactly T.sizeofT w.heap w.objects (w.names.flatMap own ++ others) := h.stores
  obtain ⟨bs, l, hinv⟩ := hst.heap
  have hall := hst.places_nodup
  rw [List.map_append] at hall
  have hnodup : (unowned w).Nodup := by
    have hpay : ((unowned w).map Prod.fst).Nodup := by
      unfold unowned
      rw [List.map_map]
      exact (List.filter_sublist.map LiveAlloc.payload).nodup hinv.payloads_nodup
    exact hpay.of_map
  refine (List.perm_ext_iff_of_nodup hnodup (List.nodup_append.mp hall).2.1).mpr fun x => ?_
  constructor
  · intro hx
    obtain ⟨a, ha, rfl⟩ := List.mem_map.mp hx
    obtain ⟨ha, hnone⟩ := List.mem_filter.mp ha
    have hmem := (hst.mem_places a.place).mpr (List.mem_map_of_mem ha)
    rw [List.map_append] at hmem
    refine (List.mem_append.mp hmem).resolve_left fun hown => ?_
    obtain ⟨r, hr, hplace⟩ := List.mem_map.mp hown
    obtain ⟨v, hv, hrv⟩ := List.mem_flatMap.mp hr
    have hbase : r.base = a.payload := congrArg Prod.fst hplace
    exact of_decide_eq_true hnone v hv ((h.base_of_own hv hrv).symm.trans hbase)
  · intro hx
    obtain ⟨r, hr, rfl⟩ := List.mem_map.mp hx
    obtain ⟨a, ha, hb, hs⟩ := hst.live r (List.mem_append_right _ hr)
    refine List.mem_map.mpr ⟨a, List.mem_filter.mpr ⟨ha, decide_eq_true fun v hv heq => ?_⟩, Prod.ext hb hs⟩
    -- a vector at the same payload would have a second region there
    obtain ⟨r', hr'⟩ := List.exists_mem_of_ne_nil _ (h.own_of_start hv (heq ▸ hinv.payload_pos ha))
    have hbase : r'.base = r.base := (h.base_of_own hv hr').trans (heq.trans hb)
    have hdist := hst.distinct
    rw [List.map_append] at hdist
    exact (List.nodup_append.mp hdist).2.2 _ (List.mem_map_of_mem (List.mem_flatMap.mpr ⟨v, hv, hr'⟩)) _
      (List.mem_map_of_mem hr) hbase

/-- The vectors that exist are those with a sequence. -/
theorem mem_names_iff (h : VectorsHold T w A own others) : v ∈ w.names ↔ (A v).isSome = true := by
  constructor
  · intro hv
    obtain ⟨ys, -, hA⟩ := h.owns v hv
    rw [hA]
    rfl
  · intro hA
    by_contra hv
    rw [h.absent v hv] at hA
    cases hA

end VectorsHold

/-- A vector call that throws has kept the contents of every vector. What was constructed on the way
has been destroyed once, or is one of the elements, moved to other storage. The blocks
allocated are the storage of the vectors and what they were besides it; where a copy construction has
thrown, all are those before the call. -/
theorem throwing_call_keeps_contents {call : VectorCall V} {e : VectorThrown} (h : VectorRun T w A) (hadm : call.Admissible T w)
    (hrun : (call.perform T).run w = (.error e, w')) :
    (∀ v, v ∈ w'.names ↔ v ∈ w.names) ∧
    (∀ v ∈ w.names, size T (w'.vec v) = size T (w.vec v) ∧ elements T w' v = elements T w v ∧
      (w'.vec v).start ≤ (w'.vec v).finish ∧ (w'.vec v).finish ≤ (w'.vec v).endOfStorage) ∧
    (∀ q, (w'.objects.slot q).isSome = true ↔ ∃ v ∈ w'.names, ∃ i < size T (w'.vec v), q = (w'.vec v).start+i*T.sizeofT) ∧
    w'.objects.Accounted ∧
    (∃ bs l, HeapInv (fun _ => False) w'.heap.alloc w'.heap.live bs l) ∧ (unowned w').Perm (unowned w) ∧
    ∀ v other, call = .copyConstruct v other →
      (w'.heap.live.map LiveAlloc.place).Perm (w.heap.live.map LiveAlloc.place) := by
  obtain ⟨own, others, hw⟩ := h.hold
  have hends := hw.ends_perform call hadm
  unfold Ends at hends
  rw [hrun] at hends
  obtain ⟨own', hw'⟩ := hends
  have hnames : ∀ v, v ∈ w'.names ↔ v ∈ w.names := fun v => hw'.mem_names_iff.trans hw.mem_names_iff.symm
  have hst' : StoredExactly T.sizeofT w'.heap w'.objects (w'.names.flatMap own' ++ others) := hw'.stores
  refine ⟨hnames, fun v hv => ?_, hw'.slot_isSome_iff, hst'.accounted, hst'.heap,
    hw'.unowned_perm.trans hw.unowned_perm.symm, ?_⟩
  · obtain ⟨xs, hA, -⟩ := hw.focus hv
    have hv' := (hnames v).mpr hv
    have horder := hw'.storage_exact hv'
    refine ⟨(hw'.size_eq hv' hA).trans (hw.size_eq hv hA).symm, ?_, horder.1, horder.2.1⟩
    exact (hw'.elements_eq hv' hA).trans (hw.elements_eq hv hA).symm
  · rintro v other rfl
    obtain ⟨hv, hother, hfits⟩ := hadm
    obtain ⟨zs, hA, hr⟩ := hw.reads hother hother
    rw [hw.size_eq hother hA] at hfits
    have hne : other ≠ v := fun heq => hv (heq ▸ hother)
    have hcopy := ends_copyConstruct hw.stores hr hne hfits
    unfold Ends at hcopy
    rw [show (copyConstruct T v other).run w = (.error e, w') from hrun] at hcopy
    have hleft : StoredExactly T.sizeofT w'.heap w'.objects (w.names.flatMap own ++ others) := hcopy.1
    have hbefore : StoredExactly T.sizeofT w.heap w.objects (w.names.flatMap own ++ others) := hw.stores
    exact hleft.places_perm.trans hbefore.places_perm.symm

theorem throwing_call_keeps_contents_twoWords :
    ((SharedMemoryVector.pushBack wordType 0 7).run twoWords).1 = .error .element ∧
      elements wordType ((SharedMemoryVector.pushBack wordType 0 7).run twoWords).2 0 = elements wordType twoWords 0 := by
  obtain ⟨A, hrun, -⟩ := twoWords_run
  have hthrow : ((SharedMemoryVector.pushBack wordType 0 7).run twoWords).1 = .error .element := by decide +kernel
  have hkept := throwing_call_keeps_contents hrun (by decide +kernel : (VectorCall.pushBack 0 7).Admissible wordType twoWords)
    (Prod.ext hthrow rfl)
  exact ⟨hthrow, (hkept.2.1 0 (by decide +kernel)).2.1⟩

theorem byte_align : ∃ k < 64, 1 = 2^k := ⟨0, by decide, rfl⟩

/-- Elements of one byte. The second constructor call throws. -/
def byteElement : ElementType ℕ := ⟨1, 1, 0, id, true, fun k => k == 1, Nat.one_pos, byte_align⟩

/-- A full vector of one byte, with free bytes behind its storage. -/
def oneByte : VectorWorld ℕ := afterCalls byteElement [.construct 0, .pushBack 0 5] wordWorld

theorem oneByte_run : ∃ A, VectorRun byteElement oneByte A := by
  have h₀ : VectorRun byteElement wordWorld fun _ => none := .start smallHeap_reachable
  have h₁ := h₀.perform (.construct 0) (by decide +kernel) (by decide +kernel)
  exact ⟨_, h₁.perform (.pushBack 0 5) (by decide +kernel) (by decide +kernel)⟩

/-- `resize(2^64-40)` is expanded in place by a layout that wraps, and `end_of_storage` wraps to an address below `start`;
the constructor that throws then leaves it there. -/
theorem wrapped_resize_breaks_order : ¬ ∀ (w w' : VectorWorld ℕ) (A : ℕ → Option (List ℕ)) (v count : ℕ) (e : VectorThrown),
    VectorRun byteElement w A → v ∈ w.names → count < 2^64 → ((VectorCall.resize v count).perform byteElement).run w = (.error e, w') →
    (w'.vec v).start ≤ (w'.vec v).finish ∧ (w'.vec v).finish ≤ (w'.vec v).endOfStorage := by
  intro hall
  obtain ⟨A, hrun⟩ := oneByte_run
  have hthrow : (((VectorCall.resize 0 (2^64-40)).perform byteElement).run oneByte).1 = .error .element := by decide +kernel
  have horder := hall oneByte _ A 0 (2^64-40) .element hrun (by decide +kernel) (by decide) (Prod.ext hthrow rfl)
  have hwrapped : ((((VectorCall.resize 0 (2^64-40)).perform byteElement).run oneByte).2.vec 0) = ⟨4256, 4257, 4216⟩ := by decide +kernel
  rw [hwrapped] at horder
  exact absurd horder.2 (by decide)

end ShmNext
