import ShmNext.HashTableRefinement

/-! The constructors of the hash table that insert elements, where one of them throws: what of the segment is given back. -/
namespace ShmNext
open Prog NodeOp SharedMemoryHashTable HashLink

variable {K V F α : Type} {T : TableType K V F} {w w' t u s : TableWorld K V F} {vs : List ℕ} {kept : List LiveAlloc}
  {mine others rest : List (ℕ × ℕ)} {v n : ℕ} {f : F} {e : NodeThrown} {x : K × V} {values done more : List (K × V)}

/-- The constructors that insert elements. Those from an initializer list are those from its range. -/
inductive ElementConstruction (K V : Type) where
  | range (v bucketCount : ℕ) (values : List (K × V))
  | copy (v other : ℕ)

namespace ElementConstruction

def toCall : ElementConstruction K V → TableCall K V F
  | range v bucketCount values => .rangeConstruct v bucketCount values
  | copy v other => .copyConstruct v other

/-- The exception that a failed construction throws, and the index of the insertion that threw it, or none where it was the
allocation of the bucket array. -/
def failure (T : TableType K V F) (w : TableWorld K V F) : ElementConstruction K V → Option (NodeThrown × Option ℕ)
  | range v bucketCount values => constructionFailure T v bucketCount T.factors.initial values w
  | copy v other => constructionFailure T v (w.obj other).bucketCount (w.obj other).maxLoadFactor (elements w other) w

/-- The copy constructor does not empty its cache, which is empty only before the first node. -/
def RestoresAt : ElementConstruction K V → Option ℕ → Prop
  | range _ _ _, _ => True
  | copy _ _, point => point = none ∨ point = some 0

instance : (c : ElementConstruction K V) → (point : Option ℕ) → Decidable (c.RestoresAt point)
  | range _ _ _, _ => inferInstanceAs (Decidable True)
  | copy _ _, _ => inferInstanceAs (Decidable (_ ∨ _))

end ElementConstruction

theorem Heap.mem_beside_nil {g : Heap} {a : LiveAlloc} : a ∈ g.beside [] ↔ a ∈ g.live :=
  Heap.mem_beside.trans (and_iff_left List.not_mem_nil)

/-- A construction fails because an allocation fails or an element constructor throws: the exception reaches the caller, and the segment
is what it was exactly where the constructor is not the copy constructor, or no element had been inserted yet. -/
theorem throwing_constructor_exact {point : Option ℕ} (hrun : TableRun T (TableCall.Careful T) w) (c : ElementConstruction K V)
    (hadm : (c.toCall : TableCall K V F).Admissible T w) (hfail : c.failure T w = some (e, point)) (he : e ≠ .hash) :
    ∃ w', ((c.toCall : TableCall K V F).perform T).run w = (.error e, w') ∧
      ((blockChain w'.heap.alloc = blockChain w.heap.alloc ∧ freeList w'.heap.alloc = freeList w.heap.alloc) ↔ c.RestoresAt point) := by
  obtain ⟨own, others, hw⟩ := hrun.hold fun _ _ hcall => hcall
  obtain ⟨bs, l, hinv⟩ := hw.owns.holding.heap
  have hfocus : ∀ vs, Owning T.toNodeType vs w (w.heap.beside []) w [] := SideBySide.focus_none hw
  have hiff : ∀ {vs w' lost}, Owning T.toNodeType vs w (w.heap.beside []) w' lost →
      ((blockChain w'.heap.alloc = blockChain w.heap.alloc ∧ freeList w'.heap.alloc = freeList w.heap.alloc) ↔ lost = []) :=
    fun hown => hown.holding.restored_iff hinv (fun _ => Heap.mem_beside_nil.mpr) fun _ => Heap.mem_beside_nil.mp
  cases c with
  | range v bucketCount values =>
    obtain ⟨hv, hroom, hfit⟩ := hadm
    have hends := ends_rangeConstruct (hfocus [v]) (List.mem_singleton_self v) hroom hfit
    rcases hends.cases with ⟨_, t, -, -, -, -, -, -, -, hnone⟩ | ⟨e', t, ht, lost, hown, hlost, point', hsome⟩
    · cases hfail.symm.trans hnone
    · cases hfail.symm.trans hsome
      have hnone := hlost he
      rw [hnone] at hown
      exact ⟨t, ht, iff_of_true ((hiff hown).mpr rfl) trivial⟩
  | copy v other =>
    obtain ⟨hv, hother, hroom, hfit⟩ := hadm
    have helems := hw.elements_eq hother
    rw [helems] at hfit
    have hends := ends_copyConstruct (hfocus [v]) (List.mem_singleton_self v) hroom (hw.source hother)
      (hw.holds other hother).1.iterates.head_eq (hw.length_le hother) hfit
    change constructionFailure T v _ _ (elements w other) w = _ at hfail
    rw [helems] at hfail
    rcases hends.cases with ⟨_, t, -, -, -, -, -, -, -, hnone⟩ | ⟨e', t, ht, leaked, point', hown, hsome, hleaked⟩
    · cases hfail.symm.trans hnone
    · cases hfail.symm.trans hsome
      rw [List.append_nil] at hown
      exact ⟨t, ht, (hiff hown).trans (hleaked he)⟩

/-- The fifth call of an element constructor throws. -/
abbrev brittleTable : TableType ℕ ℕ ℚ := wordTable (fun k => k == 4) fun _ => false

/-- A table of two elements, made by two calls of element constructors. -/
def brittlePair : TableWorld ℕ ℕ ℚ :=
  afterTableCalls brittleTable [.construct 0 8, .edit 0 (.tryEmplace 5 50), .edit 0 (.tryEmplace 6 60)] tableWorld

theorem brittlePair_run : TableRun brittleTable (TableCall.Careful brittleTable) brittlePair := by
  have hsafe : ∀ (w : TableWorld ℕ ℕ ℚ) (call : TableCall ℕ ℕ ℚ), call.HashSafe brittleTable w :=
    fun w call => call.hashSafe_of_nothrow (fun _ => rfl) w
  have h₀ : TableRun brittleTable (TableCall.Careful brittleTable) tableWorld := .start smallHeap_reachable
  have h₁ := h₀.perform (.construct 0 8) ⟨⟨by decide, by decide +kernel⟩, hsafe _ _⟩ (by decide +kernel)
  have h₂ := h₁.perform (.edit 0 (.tryEmplace 5 50)) ⟨⟨by decide +kernel, by decide +kernel, by decide +kernel⟩, hsafe _ _⟩ (by decide +kernel)
  exact h₂.perform (.edit 0 (.tryEmplace 6 60)) ⟨⟨by decide +kernel, by decide +kernel, by decide +kernel⟩, hsafe _ _⟩ (by decide +kernel)

/-- A range constructor that throws at its second element gives everything back. -/
theorem throwing_constructor_exact_range : ∃ w', ((TableCall.rangeConstruct 1 8 [(7, 70), (8, 80)]).perform brittleTable).run brittlePair =
    (.error .element, w') ∧ blockChain w'.heap.alloc = blockChain brittlePair.heap.alloc := by
  have hfit : ConstructionFits brittleTable 1 8 1 [(7, 70), (8, 80)] brittlePair := by decide +kernel
  have hfail : (ElementConstruction.range 1 8 [(7, 70), (8, 80)]).failure brittleTable brittlePair = some (.element, some 1) := by
    decide +kernel
  obtain ⟨w', hrun, hiff⟩ := throwing_constructor_exact brittlePair_run (.range 1 8 [(7, 70), (8, 80)])
    ⟨by decide +kernel, by decide +kernel, hfit⟩ hfail (by decide)
  exact ⟨w', hrun, (hiff.mpr trivial).1⟩

/-- The copy throws at its second element, with the node of the first in its cache. -/
theorem copy_construct_leaks : TableRun brittleTable (TableCall.Careful brittleTable) brittlePair ∧
    ((TableCall.copyConstruct 1 0).perform brittleTable).run brittlePair =
      (.error .element, (((TableCall.copyConstruct 1 0).perform brittleTable).run brittlePair).2) ∧
    blockChain (((TableCall.copyConstruct 1 0).perform brittleTable).run brittlePair).2.heap.alloc ≠ blockChain brittlePair.heap.alloc := by
  refine ⟨brittlePair_run, Prod.ext (by decide +kernel) rfl, by decide +kernel⟩

end ShmNext
