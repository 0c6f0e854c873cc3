import ShmNext.StringMembers
import ShmNext.OwnedBlocks

/-! Any number of strings over one segment, next to the sequences of characters they stand for. -/
namespace ShmNext
open Prog

variable {C : Type} {T : CharType C} {w w' : VectorWorld C} {A : ℕ → Option (List C)} {own : ℕ → List (Region C)}
  {others : List (ℕ × ℕ)} {rest : List (Region C)} {s : CharSource C} {v other n : ℕ} {xs ys : List C} {g : Heap} {L : List ℕ}

namespace CharSource

/-- The characters of the range, as they are before the call. -/
def chars (T : CharType C) (w : VectorWorld C) : CharSource C → List C
  | outside chars => chars
  | inside p n => (List.range n).map fun i => ((w.objects.slot (p+i*T.sizeofT)).map Prod.snd).getD T.zero

/-- There are characters in the whole range. -/
def Readable (T : CharType C) (w : VectorWorld C) : CharSource C → Prop
  | outside _ => True
  | inside p n => ∀ i < n, (w.objects.slot (p+i*T.sizeofT)).isSome = true

/-- The range lies outside the buffer of `v`. -/
def OutsideBuffer (T : CharType C) (w : VectorWorld C) (v : ℕ) : CharSource C → Prop
  | outside _ => True
  | inside p n => (w.vec v).start ≠ 0 → ∀ i < n, p+i*T.sizeofT < (w.vec v).start ∨ (w.vec v).endOfStorage+T.sizeofT ≤ p+i*T.sizeofT

instance (T : CharType C) (w : VectorWorld C) : (s : CharSource C) → Decidable (s.Readable T w)
  | outside _ => inferInstanceAs (Decidable True)
  | inside _ _ => inferInstanceAs (Decidable (∀ i < _, _ = true))

instance (T : CharType C) (w : VectorWorld C) (v : ℕ) : (s : CharSource C) → Decidable (s.OutsideBuffer T w v)
  | outside _ => inferInstanceAs (Decidable True)
  | inside _ _ => inferInstanceAs (Decidable (_ → ∀ i < _, _ ∨ _))

theorem length_chars (T : CharType C) (w : VectorWorld C) (s : CharSource C) : (s.chars T w).length = s.length := by
  cases s with
  | outside chars => rfl
  | inside p n => exact (List.length_map _).trans List.length_range

theorem Readable.readsAs (h : s.Readable T w) : SharedMemoryString.ReadsAs T w (s.chars T w) s := by
  cases s with
  | outside chars => exact rfl
  | inside p n =>
    refine ⟨(length_chars T w (.inside p n)).symm, fun i x hx => ?_⟩
    have hi : i < n := by
      have := (List.getElem?_eq_some_iff.mp hx).1
      rwa [length_chars] at this
    unfold chars at hx
    rw [List.getElem?_map, List.getElem?_range hi] at hx
    obtain ⟨y, hy⟩ := Option.isSome_iff_exists.mp (h i hi)
    rw [Option.map_some, hy] at hx
    rw [hy]
    exact hx

end CharSource

/-- The calls of the class. Those that take a C string or a `std::basic_string` are the ones with a range. -/
inductive StringCall (C : Type) where
  | construct (v : ℕ)
  | constructFrom (v : ℕ) (s : CharSource C)
  | copyConstruct (v other : ℕ)
  | moveConstruct (v other : ℕ)
  | destruct (v : ℕ)
  | assign (v : ℕ) (s : CharSource C)
  | copyAssign (v other : ℕ)
  | moveAssign (v other : ℕ)
  | append (v : ℕ) (s : CharSource C)
  | reserve (v n : ℕ)
  | clear (v : ℕ)

namespace StringCall

def perform (T : CharType C) : StringCall C → StringOp C Unit
  | construct v => SharedMemoryString.construct T v
  | constructFrom v s => SharedMemoryString.constructFrom T v s
  | copyConstruct v other => SharedMemoryString.copyConstruct T v other
  | moveConstruct v other => SharedMemoryString.moveConstruct v other
  | destruct v => SharedMemoryString.destruct T v
  | assign v s => SharedMemoryString.assign T v s
  | copyAssign v other => SharedMemoryString.copyAssign T v other
  | moveAssign v other => SharedMemoryString.moveAssign T v other
  | append v s => SharedMemoryString.append T v s
  | reserve v n => SharedMemoryString.reserve T v n
  | clear v => SharedMemoryString.clear T v

/-- What the calls mean for sequences: `A v` is the sequence of the string `v`, where there is one. -/
def onTexts (T : CharType C) (w : VectorWorld C) (A : ℕ → Option (List C)) : StringCall C → ℕ → Option (List C)
  | construct v => Function.update A v (some [])
  | constructFrom v s => Function.update A v (some (s.chars T w))
  | copyConstruct v other => Function.update A v (A other)
  | moveConstruct v other => Function.update (Function.update A other (some [])) v (A other)
  | destruct v => Function.update A v none
  | assign v s => Function.update A v (some (s.chars T w))
  | copyAssign v other => Function.update A v (A other)
  | moveAssign v other => if v = other then A else Function.update (Function.update A other (some [])) v (A other)
  | append v s => Function.update A v ((A v).map (· ++ s.chars T w))
  | reserve _ _ => A
  | clear v => Function.update A v ((A v).map fun _ => [])

open SharedMemoryString in
/-- What callers keep to: they name strings that exist, or a new one that does not, and ranges that can be read, outside
the buffer of the string; nothing is appended only where there is a buffer; and no layout wraps. -/
def Admissible (T : CharType C) (w : VectorWorld C) : StringCall C → Prop
  | construct v => v ∉ w.names ∧ Fits T w 0
  | constructFrom v s => v ∉ w.names ∧ s.Readable T w ∧ Fits T w s.length
  | copyConstruct v other => v ∉ w.names ∧ other ∈ w.names ∧ Fits T w (size T (w.vec other))
  | moveConstruct v other => v ∉ w.names ∧ other ∈ w.names
  | destruct v => v ∈ w.names
  | assign v s => v ∈ w.names ∧ (s.Readable T w ∧ s.OutsideBuffer T w v) ∧ ((w.vec v).start = 0 → Fits T w 0) ∧
      (capacity T (w.vec v) < s.length → Fits T w s.length)
  | copyAssign v other => v ∈ w.names ∧ other ∈ w.names ∧ ((w.vec v).start = 0 → Fits T w 0) ∧
      (capacity T (w.vec v) < size T (w.vec other) → Fits T w (size T (w.vec other)))
  | moveAssign v other => v ∈ w.names ∧ other ∈ w.names
  | append v s => v ∈ w.names ∧ (s.Readable T w ∧ s.OutsideBuffer T w v) ∧ ((w.vec v).start ≠ 0 ∨ 0 < s.length) ∧
      (capacity T (w.vec v) < size T (w.vec v)+s.length → Fits T w (size T (w.vec v)+s.length))
  | reserve v n => v ∈ w.names ∧ ((w.vec v).start = 0 ∨ capacity T (w.vec v) < n → Fits T w n)
  | clear v => v ∈ w.names

instance (T : CharType C) (w : VectorWorld C) : (call : StringCall C) → Decidable (call.Admissible T w)
  | .construct _ | .moveConstruct _ _ | .moveAssign _ _ => inferInstanceAs (Decidable (_ ∧ _))
  | .constructFrom _ _ | .copyConstruct _ _ => inferInstanceAs (Decidable (_ ∧ _ ∧ _))
  | .destruct _ | .clear _ => inferInstanceAs (Decidable (_ ∈ _))
  | .assign _ _ => inferInstanceAs (Decidable (_ ∧ (_ ∧ _) ∧ (_ → _) ∧ (_ → _)))
  | .copyAssign _ _ => inferInstanceAs (Decidable (_ ∧ _ ∧ (_ → _) ∧ (_ → _)))
  | .append _ _ => inferInstanceAs (Decidable (_ ∧ (_ ∧ _) ∧ (_ ∨ _) ∧ (_ → _)))
  | .reserve _ _ => inferInstanceAs (Decidable (_ ∧ (_ ∨ _ → _)))

end StringCall

/-- Allocations of others, in which no string has characters. -/
def idleRegions (C : Type) (others : List (ℕ × ℕ)) : List (Region C) := others.map fun r => ⟨r.1, r.2, []⟩

/-- Each string has its buffer and its sequence there; what else is held is `others`. -/
structure StringsHold (T : CharType C) (w : VectorWorld C) (A : ℕ → Option (List C)) (own : ℕ → List (Region C))
    (others : List (ℕ × ℕ)) : Prop where
  nodup : w.names.Nodup
  stores : w.Stores T.toElementType (w.names.flatMap own ++ idleRegions C others)
  owns : ∀ v ∈ w.names, ∃ xs, SharedMemoryString.Owns T (w.vec v) (own v) xs ∧ A v = some xs
  absent : ∀ v, v ∉ w.names → A v = none

open SharedMemoryString
open SharedMemoryVector (Beside)

namespace StringsHold

/-- What `v` holds, and what the others own. -/
theorem focus (h : StringsHold T w A own others) (hv : v ∈ w.names) :
    ∃ xs, A v = some xs ∧ Owns T (w.vec v) (own v) xs ∧
      w.Stores T.toElementType (own v ++ ((w.names.erase v).flatMap own ++ idleRegions C others)) := by
  obtain ⟨xs, ho, hA⟩ := h.owns v hv
  exact ⟨xs, hA, ho, h.stores.focus hv⟩

theorem contains (h : StringsHold T w A own others) (hv : v ∈ w.names) (hA : A v = some xs) :
    Contains T w v ((w.names.erase v).flatMap own ++ idleRegions C others) xs := by
  obtain ⟨xs', hA', ho, hst⟩ := h.focus hv
  obtain rfl := Option.some.inj (hA.symm.trans hA')
  exact ⟨own v, hst, ho⟩

/-- A string `v` beside those of `L`, whose members and buffers are as they were. -/
theorem assemble (hL : L.Nodup) (hv : v ∉ L) (hc : Contains T w v (L.flatMap own ++ idleRegions C others) xs)
    (howns : ∀ u ∈ L, ∃ xs, Owns T (w.vec u) (own u) xs ∧ A u = some xs) (hnames : w.names.Perm (v :: L))
    (habs : ∀ u, u ≠ v → u ∉ L → A u = none) : ∃ own', StringsHold T w (Function.update A v (some xs)) own' others := by
  obtain ⟨mine, hst, ho⟩ := hc
  obtain ⟨hnodup, hstores, hown, hnone⟩ := hst.assemble (P := fun u rs m => ∃ xs, Owns T (w.vec u) rs xs ∧ m = some xs)
    hL hv hnames ⟨xs, ho, rfl⟩ howns habs
  exact ⟨_, hnodup, hstores, hown, hnone⟩

theorem not_mem_erase (h : StringsHold T w A own others) : v ∉ w.names.erase v := h.nodup.not_mem_erase

/-- A call that changes the string `v` and its buffer only. -/
theorem beside (h : StringsHold T w A own others) (hv : v ∈ w.names)
    (hc : Contains T w' v ((w.names.erase v).flatMap own ++ idleRegions C others) xs) (hb : Beside v w w') :
    ∃ own', StringsHold T w' (Function.update A v (some xs)) own' others := by
  refine assemble (h.nodup.erase v) h.not_mem_erase hc (fun u hu => ?_) ?_ fun u hu hu' => ?_
  · have hne : u ≠ v := fun heq => h.not_mem_erase (heq ▸ hu)
    rw [hb.vec_eq u hne]
    exact h.owns u (List.mem_of_mem_erase hu)
  · rw [hb.names_eq]
    exact List.perm_cons_erase hv
  · exact h.absent u fun hm => hu' ((List.mem_erase_of_ne hu).mpr hm)

theorem beside_same (h : StringsHold T w A own others) (hv : v ∈ w.names) (hA : A v = some xs)
    (hc : Contains T w' v ((w.names.erase v).flatMap own ++ idleRegions C others) xs) (hb : Beside v w w') :
    ∃ own', StringsHold T w' A own' others := by
  obtain ⟨own', h'⟩ := h.beside hv hc hb
  rw [← hA, Function.update_eq_self] at h'
  exact ⟨own', h'⟩

/-- A constructor that has returned. -/
theorem born (h : StringsHold T w A own others) (hv : v ∉ w.names)
    (hb : Born T v (w.names.flatMap own ++ idleRegions C others) xs w w') :
    ∃ own', StringsHold T w' (Function.update A v (some xs)) own' others := by
  obtain ⟨hc, hvec, hnames⟩ := hb
  refine assemble h.nodup hv hc (fun u hu => ?_) (by rw [hnames]) fun u _ hu => h.absent u hu
  rw [hvec u fun heq => hv (heq ▸ hu)]
  exact h.owns u hu

/-- A constructor that has thrown. -/
theorem unborn (h : StringsHold T w A own others) (hv : v ∉ w.names)
    (hb : Unborn T v (w.names.flatMap own ++ idleRegions C others) w w') : ∃ own', StringsHold T w' A own' others := by
  obtain ⟨hst, hb⟩ := hb
  have hnames := hb.names_eq
  refine ⟨own, by rw [hnames]; exact h.nodup, by rw [hnames]; exact hst, fun u hu => ?_, by rw [hnames]; exact h.absent⟩
  rw [hnames] at hu
  rw [hb.vec_eq u fun heq => hv (heq ▸ hu)]
  exact h.owns u hu

/-- The range that `other.data()` and `other.size()` give lies in the buffer of `other`. -/
theorem readsIn (h : StringsHold T w A own others) (hother : other ∈ w.names) (hA : A other = some xs) (hL : other ∈ L) :
    ReadsIn T (L.flatMap own ++ idleRegions C others) xs (contents T w other) := by
  obtain ⟨xs', ho, hA'⟩ := h.owns other hother
  obtain rfl := Option.some.inj (hA.symm.trans hA')
  exact ho.readsIn fun r hr => List.mem_append_left _ (List.mem_flatMap.mpr ⟨other, hL, hr⟩)

/-- A range outside the buffer of `v` lies in the other buffers. -/
theorem readsIn_outside (h : StringsHold T w A own others) (hv : v ∈ w.names) (hs : s.Readable T w) (hout : s.OutsideBuffer T w v) :
    ReadsIn T ((w.names.erase v).flatMap own ++ idleRegions C others) (s.chars T w) s := by
  have hreads := hs.readsAs
  cases s with
  | outside chars => exact hreads
  | inside p n =>
    refine ⟨hreads.1, fun i x hx => ?_⟩
    have hslot := hreads.2 i x hx
    have hi : i < n := hreads.1 ▸ (List.getElem?_eq_some_iff.mp hx).1
    obtain ⟨y, hy, -⟩ := Option.map_eq_some_iff.mp hslot
    obtain ⟨xs, hA, ho, hst⟩ := h.focus hv
    obtain ⟨r, hr, h1, h2⟩ := hst.outside _ y hy
    refine ⟨r, ?_, h1, h2, ?_⟩
    · rcases List.mem_append.mp hr with hmine | hr
      · -- not in the buffer of the string itself
        generalize hx : w.vec v = x at ho
        generalize own v = mine at ho hmine
        cases ho with
        | null => cases hmine
        | @storage p cap ys xs zs hp hle hvals =>
          obtain rfl := List.mem_singleton.mp hmine
          unfold CharSource.OutsideBuffer at hout
          rw [hx] at hout
          have hplace := hout hp i hi
          dsimp only at hplace h1 h2
          rw [Nat.succ_mul] at h2
          omega
      · exact hr
    · rw [← hst.filled r hr _ h1 h2]
      exact hslot

/-- In a new string's constructor every range lies outside. -/
theorem readsIn_all (h : StringsHold T w A own others) (hs : s.Readable T w) :
    ReadsIn T (w.names.flatMap own ++ idleRegions C others) (s.chars T w) s := by
  have hreads := hs.readsAs
  cases s with
  | outside chars => exact hreads
  | inside p n =>
    refine ⟨hreads.1, fun i x hx => ?_⟩
    have hslot := hreads.2 i x hx
    obtain ⟨y, hy, -⟩ := Option.map_eq_some_iff.mp hslot
    obtain ⟨r, hr, h1, h2⟩ := h.stores.outside _ y hy
    refine ⟨r, hr, h1, h2, ?_⟩
    rw [← h.stores.filled r hr _ h1 h2]
    exact hslot

/-- The members of `other` are taken over by `v`, which has none of the buffers of `L`. -/
theorem ends_take (hL : L.Nodup) (hv : v ∉ L) (hother : other ∈ L) (hst : w.Stores T.toElementType (L.flatMap own ++ idleRegions C others))
    (howns : ∀ u ∈ L, ∃ xs, Owns T (w.vec u) (own u) xs ∧ A u = some xs) {E : VectorThrown → VectorWorld C → Prop} :
    (SharedMemoryVector.takeFrom v other : StringOp C Unit).Ends w (fun _ w' => w'.names = w.names ∧ ∃ xs own', A other = some xs ∧
      Contains T w' v (L.flatMap own' ++ idleRegions C others) xs ∧
      ∀ u ∈ L, ∃ xs, Owns T (w'.vec u) (own' u) xs ∧ Function.update A other (some []) u = some xs) E := by
  have hne : other ≠ v := fun heq => hv (heq ▸ hother)
  obtain ⟨xs, ho, hA⟩ := howns other hother
  refine ends_takeMembers.mono (fun _ w' hw => ?_) fun _ _ he => he
  obtain rfl := hw
  refine ⟨rfl, xs, Function.update own other [], hA, ⟨own other, ?_, ?_⟩, fun u hu => ?_⟩
  · have hsame : (L.erase other).flatMap (Function.update own other []) = (L.erase other).flatMap own :=
      List.flatMap_congr fun u hu => Function.update_of_ne (fun heq => hL.not_mem_erase (heq ▸ hu)) _ _
    have hperm := (List.perm_cons_erase hother).flatMap_right own
    have hperm' := (List.perm_cons_erase hother).flatMap_right (Function.update own other [])
    rw [List.flatMap_cons, Function.update_self, List.nil_append, hsame] at hperm'
    rw [List.flatMap_cons] at hperm
    have hall := (hperm.trans (List.Perm.append_left _ hperm'.symm)).append_right (idleRegions C others)
    rw [List.append_assoc] at hall
    exact hst.perm hall
  · dsimp only
    rw [Function.update_of_ne hne.symm, Function.update_self]
    exact ho
  · dsimp only
    by_cases hu' : u = other
    · subst hu'
      rw [Function.update_self, Function.update_self, Function.update_self]
      exact ⟨[], .null, rfl⟩
    · have huv : u ≠ v := fun heq => hv (heq ▸ hu)
      rw [Function.update_of_ne hu', Function.update_of_ne hu', Function.update_of_ne hu', Function.update_of_ne huv]
      exact howns u hu

theorem size_eq (h : StringsHold T w A own others) (hv : v ∈ w.names) (hA : A v = some xs) : size T (w.vec v) = xs.length :=
  (h.contains hv hA).size_eq

/-- One call, whether it returns or throws. -/
theorem ends_perform (h : StringsHold T w A own others) (call : StringCall C) (hadm : call.Admissible T w) :
    (call.perform T).Ends w (fun _ w' => ∃ own', StringsHold T w' (call.onTexts T w A) own' others)
      fun _ w' => ∃ own', StringsHold T w' A own' others := by
  cases call with
  | construct v =>
    exact (SharedMemoryString.ends_construct h.stores hadm.2).mono (fun _ _ hw => h.born hadm.1 hw) fun _ _ he => h.unborn hadm.1 he
  | constructFrom v s =>
    obtain ⟨hv, hs, hfits⟩ := hadm
    rw [← CharSource.length_chars T w s] at hfits
    exact (ends_constructFrom h.stores (h.readsIn_all hs) hfits).mono (fun _ _ hw => h.born hv hw) fun _ _ he => h.unborn hv he
  | copyConstruct v other =>
    obtain ⟨hv, hother, hfits⟩ := hadm
    obtain ⟨xs, -, hA⟩ := h.owns other hother
    rw [h.size_eq hother hA] at hfits
    have hne : other ≠ v := fun heq => hv (heq ▸ hother)
    dsimp only [StringCall.onTexts]
    rw [hA]
    exact (ends_copyConstruct h.stores (h.readsIn hother hA hother) hne hfits).mono (fun _ _ hw => h.born hv hw)
      fun _ _ he => h.unborn hv he
  | moveConstruct v other =>
    obtain ⟨hv, hother⟩ := hadm
    -- the new string takes the members of the other, which is left as one without a buffer
    refine (ends_take h.nodup hv hother h.stores h.owns).bind fun _ t ht => ?_
    obtain ⟨hnames, xs, own', hA, hc, howns⟩ := ht
    dsimp only [StringCall.onTexts]
    rw [hA]
    apply ends_store
    refine assemble h.nodup hv hc howns (by rw [hnames]) fun u hu hu' => ?_
    have hne : u ≠ other := fun heq => hu' (heq ▸ hother)
    rw [Function.update_of_ne hne]
    exact h.absent u hu'
  | destruct v =>
    obtain ⟨xs, hA, -⟩ := h.focus hadm
    refine (ends_destruct (h.contains hadm hA)).mono (fun _ w' hw => ?_) fun _ _ he => he
    obtain ⟨hst, hvec, hnames⟩ := hw
    refine ⟨own, by rw [hnames]; exact h.nodup.erase v, by rw [hnames]; exact hst, fun u hu => ?_, fun u hu => ?_⟩
    · rw [hnames] at hu
      have hne : u ≠ v := fun heq => h.not_mem_erase (heq ▸ hu)
      rw [hvec]
      dsimp only [StringCall.onTexts]
      rw [Function.update_of_ne hne]
      exact h.owns u (List.mem_of_mem_erase hu)
    · dsimp only [StringCall.onTexts]
      by_cases huv : u = v
      · rw [huv]
        exact Function.update_self ..
      · rw [Function.update_of_ne huv]
        rw [hnames] at hu
        exact h.absent u fun hm => hu ((List.mem_erase_of_ne huv).mpr hm)
  | assign v s =>
    obtain ⟨hv, ⟨hs, hout⟩, hempty, hfits⟩ := hadm
    obtain ⟨xs, hA, -⟩ := h.focus hv
    rw [← CharSource.length_chars T w s] at hfits
    exact (ends_assign (h.contains hv hA) (h.readsIn_outside hv hs hout) hempty hfits).mono
      (fun _ _ hw => h.beside hv hw.1 hw.2) fun _ _ he => h.beside_same hv hA he.1 he.2
  | copyAssign v other =>
    obtain ⟨hv, hother, hempty, hfits⟩ := hadm
    dsimp only [StringCall.perform, StringCall.onTexts]
    unfold SharedMemoryString.copyAssign
    by_cases heq : v = other
    · subst heq
      rw [if_pos rfl, Function.update_eq_self]
      exact ends_pure ⟨own, h⟩
    rw [if_neg heq]
    obtain ⟨xs, hA, -⟩ := h.focus hv
    obtain ⟨ys, -, hA'⟩ := h.owns other hother
    rw [h.size_eq hother hA'] at hfits
    rw [hA']
    apply ends_get_bind
    have hreads := h.readsIn hother hA' ((List.mem_erase_of_ne (Ne.symm heq)).mpr hother)
    exact (ends_assign (h.contains hv hA) hreads hempty hfits).mono
      (fun _ _ hw => h.beside hv hw.1 hw.2) fun _ _ he => h.beside_same hv hA he.1 he.2
  | moveAssign v other =>
    obtain ⟨hv, hother⟩ := hadm
    dsimp only [StringCall.perform, StringCall.onTexts]
    unfold SharedMemoryString.moveAssign
    by_cases heq : v = other
    · rw [if_pos heq, if_pos heq]
      exact ends_pure ⟨own, h⟩
    rw [if_neg heq, if_neg heq]
    obtain ⟨xs, hA, -⟩ := h.focus hv
    -- the old buffer is returned before the members are taken
    refine (ends_releaseBuffer (h.contains hv hA)).bind fun _ t ht => ?_
    obtain ⟨hst, -, hb⟩ := ht
    have howns : ∀ u ∈ w.names.erase v, ∃ xs, Owns T (t.vec u) (own u) xs ∧ A u = some xs := by
      intro u hu
      rw [hb.vec_eq u fun heq => h.not_mem_erase (heq ▸ hu)]
      exact h.owns u (List.mem_of_mem_erase hu)
    have hmem := (List.mem_erase_of_ne (Ne.symm heq)).mpr hother
    refine (ends_take (h.nodup.erase v) h.not_mem_erase hmem hst howns).mono (fun _ t' ht' => ?_) fun _ _ he => he
    obtain ⟨hnames, ys, own', hA', hc, howns'⟩ := ht'
    rw [hA']
    refine assemble (h.nodup.erase v) h.not_mem_erase hc howns' ?_ fun u hu hu' => ?_
    · rw [hnames, hb.names_eq]
      exact List.perm_cons_erase hv
    · have hne : u ≠ other := fun heq => hu' (heq ▸ hmem)
      rw [Function.update_of_ne hne]
      exact h.absent u fun hm => hu' ((List.mem_erase_of_ne hu).mpr hm)
  | append v s =>
    obtain ⟨hv, ⟨hs, hout⟩, hsome, hfits⟩ := hadm
    obtain ⟨xs, hA, -⟩ := h.focus hv
    rw [h.size_eq hv hA] at hfits
    rw [← CharSource.length_chars T w s] at hfits hsome
    dsimp only [StringCall.onTexts]
    rw [hA]
    exact (ends_append (h.contains hv hA) (h.readsIn_outside hv hs hout) (hsome.imp_right fun hpos => List.length_pos_iff.mp hpos)
      hfits).mono (fun _ _ ⟨⟨_, _, hheld⟩, hb⟩ => h.beside hv hheld.contains hb) fun _ _ he => h.beside_same hv hA he.1 he.2
  | reserve v n =>
    obtain ⟨hv, hfits⟩ := hadm
    obtain ⟨xs, hA, -⟩ := h.focus hv
    refine (ends_reserve (h.contains hv hA) hfits).mono (fun _ w' hw => ?_) fun _ w' he => ?_
    · obtain ⟨⟨p, cap, hheld, -⟩, hb, -⟩ := hw
      exact h.beside_same hv hA hheld.contains hb
    · exact h.beside_same hv hA he.1 (SharedMemoryVector.beside_of_same he.2 v)
  | clear v =>
    obtain ⟨xs, hA, -⟩ := h.focus hadm
    dsimp only [StringCall.onTexts]
    rw [hA]
    exact (ends_clear (h.contains hadm hA)).mono (fun _ _ hw => h.beside hadm hw.1 hw.2) fun _ _ he => he

end StringsHold

/-- The buffer of `v`, where it has one. -/
def bufferOf (T : CharType C) (w : VectorWorld C) (v : ℕ) : List (ℕ × ℕ) :=
  if (w.vec v).start ≠ 0 then [((w.vec v).start, (capacity T (w.vec v)+1)*T.sizeofT)] else []

/-- The allocations of `g` that are no buffers of the strings of `w`. -/
def foreignAllocations (w : VectorWorld C) (g : Heap) : List (ℕ × ℕ) := g.allocations.filter fun r => ∀ v ∈ w.names, (w.vec v).start ≠ r.1

/-- A call of somebody else does not touch the buffers of the strings. -/
def SparesBuffers (T : CharType C) (w : VectorWorld C) : Call → Prop
  | .deallocate p => ∀ v ∈ w.names, (w.vec v).start ≠ p
  | .deallocateMany ps => ∀ v ∈ w.names, (w.vec v).start ∉ ps
  | .tryExpand p n al => (∀ v ∈ w.names, (w.vec v).start ≠ p) ∧ ExpandsApart w.heap.alloc w.heap.live p n al
  | .userWrite x _ => ∀ v ∈ w.names, x < (w.vec v).start ∨ (w.vec v).endOfStorage+T.sizeofT ≤ x
  | _ => True

namespace SharedMemoryString.Owns
variable {x : SharedMemoryString} {mine : List (Region C)} {r : Region C}

/-- Where the regions of a string are. -/
theorem regions_eq (h : Owns T x mine xs) (v : ℕ) (hx : w.vec v = x) : mine.map (fun r => (r.base, r.bytes)) = bufferOf T w v := by
  unfold bufferOf
  rw [hx]
  cases h with
  | null => rfl
  | @storage p cap ys xs zs hp hle hvals =>
    rw [if_pos hp]
    unfold SharedMemoryString.capacity
    rw [SharedMemoryVector.capacity_storage hp]
    rfl

theorem base_eq (h : Owns T x mine xs) (hr : r ∈ mine) : r.base = x.start ∧ r.base+r.bytes = x.endOfStorage+T.sizeofT := by
  cases h with
  | null => cases hr
  | storage =>
    obtain rfl := List.mem_singleton.mp hr
    refine ⟨rfl, ?_⟩
    dsimp only
    rw [Nat.succ_mul, Nat.add_assoc]

theorem mem_bases (h : Owns T x mine xs) {p : ℕ} (hp : p ≠ 0) : p ∈ mine.map Region.base ↔ x.start = p := by
  cases h with
  | null => exact iff_of_false List.not_mem_nil (Ne.symm hp)
  | storage =>
    rw [List.map_singleton, List.mem_singleton]
    exact eq_comm

end SharedMemoryString.Owns

theorem idleRegions_cells {r : Region C} (hr : r ∈ idleRegions C others) : r.cells = [] := by
  obtain ⟨a, -, rfl⟩ := List.mem_map.mp hr
  rfl

theorem StringsHold.elsewhere {call : Call} (h : StringsHold T w A own others) (hadm : w.heap.Admissible call)
    (hforeign : SparesBuffers T w call) (hexec : w.heap.exec call = some g) :
    StringsHold T (w.withHeap T.toElementType g) A own (foreignAllocations w g) := by
  have hstored : Stored T.sizeofT w.heap w.objects (w.names.flatMap own) := h.stores.toStored.dropIdle fun _ hr => idleRegions_cells hr
  obtain ⟨bs, l, hinv⟩ := hstored.heap
  have hinv' := (hinv.step hadm hexec).1
  refine ⟨h.nodup, ?_, h.owns, h.absent⟩
  have hmoved : Stored T.sizeofT g (w.objects.surviving T.sizeofT w.heap.alloc.mem g.alloc.mem) (w.names.flatMap own) := by
    refine hstored.reheap hinv' fun r hr a ha hb => ?_
    -- the region is the buffer of one of the strings
    obtain ⟨v, hv, hrv⟩ := List.mem_flatMap.mp hr
    obtain ⟨xs, ho, -⟩ := h.owns v hv
    have hplace : (w.vec v).start = a.payload ∧ (w.vec v).endOfStorage+T.sizeofT = a.payload+a.size := by
      obtain ⟨a', ha', hb', hs'⟩ := hstored.live r hr
      obtain rfl := hinv.payload_unique ha ha' (hb.trans hb'.symm)
      obtain ⟨h1, h2⟩ := ho.base_eq hrv
      exact ⟨by rw [← h1, hb], by rw [← h2, hb, hs']⟩
    refine Heap.exec_keeps ⟨bs, l, hinv⟩ hadm hexec ha ?_ ?_ ?_
    · intro hfree
      cases call with
      | deallocate p => exact hforeign v hv (hplace.1.trans hfree)
      | deallocateMany ps => exact hforeign v hv (hplace.1 ▸ hfree)
      | _ => exact hfree
    · rintro p n al rfl
      exact ⟨fun heq => hforeign.1 v hv (hplace.1.trans heq), hforeign.2⟩
    · rintro x b rfl
      have := hforeign v hv
      rwa [hplace.1, hplace.2] at this
  -- what is held besides belongs to others
  have hothers : unownedRegions g (w.names.flatMap own) = idleRegions C (foreignAllocations w g) := by
    obtain ⟨bs', l', hinv'⟩ := hinv'
    unfold unownedRegions idleRegions foreignAllocations Heap.allocations
    rw [List.filter_map, List.map_map]
    congr 1
    refine List.filter_congr fun a ha => decide_eq_decide.mpr ?_
    have hp := hinv'.payload_pos ha
    rw [List.map_flatMap, List.mem_flatMap]
    simp only [not_exists, not_and]
    refine forall₂_congr fun v hv => ?_
    obtain ⟨xs, ho, -⟩ := h.owns v hv
    exact not_congr (ho.mem_bases hp)
  have hexactly := hmoved.exactly
  rw [hothers] at hexactly
  exact hexactly

/-- The runs: string calls in any order, each returning or throwing, and calls of others between them, from a
segment without strings. `others` are the allocations that are not the buffer of a string. -/
inductive StringRun (T : CharType C) : VectorWorld C → (ℕ → Option (List C)) → List (ℕ × ℕ) → Prop
  | start {g : Heap} {vec : ℕ → SharedMemoryString} (hg : Reachable g) : StringRun T ⟨g, .empty, vec, []⟩ (fun _ => none) g.allocations
  | returns {w w' : VectorWorld C} {A : ℕ → Option (List C)} {others : List (ℕ × ℕ)} (call : StringCall C) (h : StringRun T w A others)
      (hadm : call.Admissible T w) (hrun : (call.perform T).run w = (.ok (), w')) : StringRun T w' (call.onTexts T w A) others
  | throws {w w' : VectorWorld C} {A : ℕ → Option (List C)} {others : List (ℕ × ℕ)} {e : VectorThrown} (call : StringCall C)
      (h : StringRun T w A others) (hadm : call.Admissible T w) (hrun : (call.perform T).run w = (.error e, w')) : StringRun T w' A others
  | elsewhere {w : VectorWorld C} {A : ℕ → Option (List C)} {others : List (ℕ × ℕ)} {g : Heap} (call : Call) (h : StringRun T w A others)
      (hadm : w.heap.Admissible call) (hforeign : SparesBuffers T w call) (hexec : w.heap.exec call = some g) :
      StringRun T (w.withHeap T.toElementType g) A (foreignAllocations w g)

theorem StringRun.hold (h : StringRun T w A others) : ∃ own, StringsHold T w A own others := by
  induction h with
  | @start g vec hg =>
    have hstored : Stored T.sizeofT g Objects.empty ([] : List (Region C)) :=
      ⟨hg.inv, fun r hr => (by cases hr), List.nodup_nil, fun r hr => (by cases hr), fun r hr => (by cases hr),
        fun q y hq => (by cases hq), Objects.accounted_empty⟩
    refine ⟨fun _ => [], List.nodup_nil, ?_, fun v hv => (by cases hv), fun _ _ => rfl⟩
    have hall : unownedRegions g ([] : List (Region C)) = idleRegions C g.allocations := by
      unfold unownedRegions idleRegions Heap.allocations
      have hkept : (g.live.filter fun a => a.payload ∉ ([] : List (Region C)).map Region.base) = g.live :=
        List.filter_eq_self.mpr fun a _ => decide_eq_true List.not_mem_nil
      rw [hkept, List.map_map]
      rfl
    have hexactly := hstored.exactly
    rw [hall] at hexactly
    exact hexactly
  | returns call _ hadm hrun ih =>
    obtain ⟨own, hw⟩ := ih
    have hends := hw.ends_perform call hadm
    unfold Ends at hends
    rwa [hrun] at hends
  | throws call _ hadm hrun ih =>
    obtain ⟨own, hw⟩ := ih
    have hends := hw.ends_perform call hadm
    unfold Ends at hends
    rwa [hrun] at hends
  | elsewhere call _ hadm hforeign hexec ih =>
    obtain ⟨own, hw⟩ := ih
    exact ⟨own, hw.elsewhere hadm hforeign hexec⟩

/-- What the slots from `start` to `finish` hold. -/
def text (T : CharType C) (w : VectorWorld C) (v : ℕ) : List (Option C) :=
  (List.range (size T (w.vec v))).map fun i => (w.objects.slot ((w.vec v).start+i*T.sizeofT)).map Prod.snd

theorem text_eq_of_readsAs (h : ReadsAs T w xs (contents T w v)) : text T w v = xs.map some := by
  have hsize : size T (w.vec v) = xs.length := h.1
  unfold text
  rw [hsize]
  apply List.ext_getElem?
  intro i
  rw [List.getElem?_map, List.getElem?_map]
  by_cases hi : i < xs.length
  · rw [List.getElem?_range hi, List.getElem?_eq_getElem hi]
    exact congrArg some (h.2 i _ (List.getElem?_eq_getElem hi))
  · rw [List.getElem?_eq_none (by simpa using hi), List.getElem?_eq_none (by omega)]
    rfl

/-- The allocations held are the regions. -/
theorem SharedMemoryVector.allocations_perm {V : Type} {E : ElementType V} {u : VectorWorld V} {rs : List (Region V)}
    (h : u.Stores E rs) : u.heap.allocations.Perm (rs.map fun r => (r.base, r.bytes)) := by
  obtain ⟨bs, l, hinv⟩ := h.heap
  have hfst : (rs.map fun r => (r.base, r.bytes)).map Prod.fst = rs.map Region.base := List.map_map
  have hnd : u.heap.allocations.Nodup := by
    refine List.Nodup.of_map Prod.fst ?_
    unfold Heap.allocations
    rw [List.map_map]
    exact hinv.payloads_nodup
  have hnd' : (rs.map fun r => (r.base, r.bytes)).Nodup := by
    refine List.Nodup.of_map Prod.fst ?_
    rw [hfst]
    exact h.distinct
  refine (List.perm_ext_iff_of_nodup hnd hnd').mpr fun p => ?_
  constructor
  · intro hp
    obtain ⟨a, ha, rfl⟩ := List.mem_map.mp hp
    obtain ⟨r, hr, hbase⟩ := h.covered a ha
    obtain ⟨a', ha', hb', hs'⟩ := h.live r hr
    obtain rfl := hinv.payload_unique ha ha' (hbase.symm.trans hb'.symm)
    exact List.mem_map.mpr ⟨r, hr, by rw [hb', hs']⟩
  · intro hp
    obtain ⟨r, hr, rfl⟩ := List.mem_map.mp hp
    obtain ⟨a, ha, hb, hs⟩ := h.live r hr
    exact List.mem_map.mpr ⟨a, ha, by rw [hb, hs]⟩

namespace StringsHold

theorem reads (h : StringsHold T w A own others) (hv : v ∈ w.names) (hA : A v = some xs) : ReadsAs T w xs (contents T w v) :=
  (h.readsIn hv hA hv).readsAs h.stores fun _ hr => hr

/-- The buffers and the allocations of others are all there is. -/
theorem allocations_perm (h : StringsHold T w A own others) : w.heap.allocations.Perm (w.names.flatMap (bufferOf T w) ++ others) := by
  have hperm := SharedMemoryVector.allocations_perm h.stores
  have hmine : (w.names.flatMap own).map (fun r => (r.base, r.bytes)) = w.names.flatMap (bufferOf T w) := by
    rw [List.map_flatMap]
    refine List.flatMap_congr fun v hv => ?_
    obtain ⟨xs, ho, -⟩ := h.owns v hv
    exact ho.regions_eq v rfl
  have hothers : (idleRegions C others).map (fun r => (r.base, r.bytes)) = others := by
    unfold idleRegions
    rw [List.map_map]
    exact List.map_id others
  rwa [List.map_append, hmine, hothers] at hperm

/-- A string with a buffer has its three pointers in order and the terminator at `finish`, and the block of the buffer has
been asked for with one character more than the capacity. -/
theorem storage_exact (h : StringsHold T w A own others) (hv : v ∈ w.names) (hstart : (w.vec v).start ≠ 0) :
    ((w.vec v).start ≤ (w.vec v).finish ∧ (w.vec v).finish ≤ (w.vec v).endOfStorage) ∧
      (w.objects.slot (w.vec v).finish).map Prod.snd = some T.zero ∧
      (allocationSize (w.vec v).start).run w.heap.alloc = (.ok ((capacity T (w.vec v)+1)*T.sizeofT), w.heap.alloc) := by
  obtain ⟨xs, hA, -⟩ := h.focus hv
  rcases (h.contains hv hA).cases with ⟨hnull, -, -⟩ | ⟨p, cap, hheld⟩
  · rw [hnull] at hstart
    exact absurd rfl hstart
  · have hle := Nat.mul_le_mul_right T.sizeofT hheld.length_le
    refine ⟨?_, hheld.terminated, ?_⟩
    · rw [hheld.vec_eq]
      exact ⟨Nat.le_add_right _ _, Nat.add_le_add_left hle p⟩
    · obtain ⟨ys, zs, hst, -⟩ := hheld.stores
      obtain ⟨bs, l, hinv⟩ := hst.heap
      obtain ⟨a, ha, hb, hs⟩ := hst.live _ List.mem_cons_self
      have hrun := hinv.run_allocationSize ha
      rw [hheld.capacity_eq, hheld.vec_eq]
      rw [hb, hs] at hrun
      exact hrun

end StringsHold

theorem StringRun.perform (h : StringRun T w A others) (call : StringCall C) (hadm : call.Admissible T w)
    (hok : ((call.perform T).run w).1 = .ok ()) : StringRun T ((call.perform T).run w).2 (call.onTexts T w A) others :=
  .returns call h hadm (Prod.ext hok rfl)

/-- Characters of one byte. -/
def byteType : CharType ℕ := ⟨⟨1, 1, 0, id, true, fun _ => false, by decide, ⟨0, by decide, by decide⟩⟩, 0⟩

/-- The small segment without strings. -/
def byteWorld : VectorWorld ℕ := ⟨smallHeap, .empty, fun _ => .null, []⟩

/-- A string that has been emptied by a move, and the string that took its characters; a terminator is among them. -/
def movedString : VectorWorld ℕ :=
  [StringCall.constructFrom 0 (.outside [7, 0]), .append 0 (.outside [9]), .moveConstruct 1 0].foldl
    (fun w call => ((call.perform byteType).run w).2) byteWorld

theorem movedString_run : ∃ A others, StringRun byteType movedString A others ∧ A 0 = some [] ∧ A 1 = some [7, 0, 9] := by
  have h₀ : StringRun byteType byteWorld (fun _ => none) smallHeap.allocations := .start smallHeap_reachable
  have h₁ := h₀.perform (.constructFrom 0 (.outside [7, 0])) (by decide +kernel) (by decide +kernel)
  have h₂ := h₁.perform (.append 0 (.outside [9])) (by decide +kernel) (by decide +kernel)
  have h₃ := h₂.perform (.moveConstruct 1 0) (by decide +kernel) (by decide +kernel)
  exact ⟨_, _, h₃, rfl, rfl⟩

end ShmNext
