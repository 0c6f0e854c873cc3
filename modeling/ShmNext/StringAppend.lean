import ShmNext.StringRefinement

/-! `append` for every string and every readable range. The string may be without a buffer, there may be nothing to
append, and the range may lie in the string itself. -/
namespace ShmNext
open Prog SharedMemoryString
open SharedMemoryVector (Beside beside_of_same)

variable {C : Type} {T : CharType C} {w w' t : VectorWorld C} {A : ℕ → Option (List C)} {own : ℕ → List (Region C)}
  {others : List (ℕ × ℕ)} {rest : List (Region C)} {s : CharSource C} {v p cap k n : ℕ} {xs ys : List C}

/-- The range lies in the present contents of `v`. -/
def CharSource.InContents (T : CharType C) (w : VectorWorld C) (v : ℕ) : CharSource C → Prop
  | outside _ => False
  | inside p n => ∃ k ∈ List.range (size T (w.vec v)+1), p = (w.vec v).start+k*T.sizeofT ∧ k+n ≤ size T (w.vec v)

instance (T : CharType C) (w : VectorWorld C) (v : ℕ) : (s : CharSource C) → Decidable (s.InContents T w v)
  | .outside _ => inferInstanceAs (Decidable False)
  | .inside _ _ => inferInstanceAs (Decidable (∃ k ∈ List.range _, _ ∧ _))

namespace SharedMemoryString

/-- What callers of `append(s, n)` keep to: the range can be read, and lies outside the buffer of the string or in its
contents. The layout of the buffer that is asked for does not wrap. -/
def Appendable (T : CharType C) (w : VectorWorld C) (v : ℕ) (s : CharSource C) : Prop :=
  v ∈ w.names ∧ (s.Readable T w ∧ (s.OutsideBuffer T w v ∨ s.InContents T w v)) ∧
    (capacity T (w.vec v) < size T (w.vec v)+s.length → Fits T w (size T (w.vec v)+s.length))

instance (T : CharType C) (w : VectorWorld C) (v : ℕ) (s : CharSource C) : Decidable (Appendable T w v s) :=
  inferInstanceAs (Decidable (_ ∧ (_ ∧ (_ ∨ _)) ∧ (_ → _)))

/-- The range lies in contents that go to another buffer before they are read. -/
def ReadsMoved (T : CharType C) (w : VectorWorld C) (v : ℕ) (s : CharSource C) : Prop :=
  (s.InContents T w v ∧ 0 < s.length) ∧ capacity T (w.vec v) < size T (w.vec v)+s.length ∧
    Relocates T w v (size T (w.vec v)+s.length)

instance (T : CharType C) (w : VectorWorld C) (v : ℕ) (s : CharSource C) : Decidable (ReadsMoved T w v s) :=
  inferInstanceAs (Decidable ((_ ∧ _) ∧ _ ∧ _))

/-- `append(s, n)` touches nothing it must not. It leaves the old contents, behind them the characters that were at
`s`, and the terminator. Where there is no memory for that it throws, and the contents are the old ones. -/
def AppendsRight (T : CharType C) (w : VectorWorld C) (v : ℕ) (s : CharSource C) : Prop :=
  match (append T v s).run w with
  | (.ok _, w') => text T w' v = text T w v ++ (s.chars T w).map some ∧
      (w'.objects.slot (w'.vec v).finish).map Prod.snd = some T.zero
  | (.error _, w') => text T w' v = text T w v
  | (.hang, _) => False

theorem not_appendsRight_of_hangs (h : (append T v s).Hangs w) : ¬AppendsRight T w v s := by
  unfold Hangs at h
  unfold AppendsRight
  generalize (append T v s).run w = r at h ⊢
  obtain ⟨r, w'⟩ := r
  subst h
  exact id

theorem ReadsAs.unique (h : ReadsAs T w xs s) (h' : ReadsAs T w ys s) : xs = ys := by
  have hlen : xs.length = ys.length := h.length_eq.symm.trans h'.length_eq
  cases s with
  | outside chars => exact h.symm.trans h'
  | inside p n =>
    apply List.ext_getElem hlen
    intro i h1 h2
    have hx := h.2 i _ (List.getElem?_eq_getElem h1)
    have hy := h'.2 i _ (List.getElem?_eq_getElem h2)
    exact Option.some.inj (hx.symm.trans hy)

/-- A part of the contents is read where it is. -/
theorem Held.readsPart (h : Held T w v p cap xs rest) (hk : k+n ≤ xs.length) :
    ReadsAs T w ((xs.drop k).take n) (.inside (p+k*T.sizeofT) n) := by
  obtain ⟨ys, zs, hst, hvals⟩ := h.stores
  have hsplit : ys.map Prod.snd = xs.take k ++ ((xs.drop k).take n ++ (xs.drop (k+n) ++ T.zero :: zs)) := by
    calc
      ys.map Prod.snd = (xs.take k ++ xs.drop k) ++ T.zero :: zs := by rw [List.take_append_drop, hvals]
      _ = (xs.take k ++ ((xs.drop k).take n ++ (xs.drop k).drop n)) ++ T.zero :: zs := by rw [List.take_append_drop n]
      _ = _ := by rw [List.drop_drop, List.append_assoc, List.append_assoc]
  have hreads := readsAs_of_cells (xs.take k) hst List.mem_cons_self hsplit
  rwa [List.length_take, Nat.min_eq_left (by omega), List.length_take, List.length_drop, Nat.min_eq_left (by omega)] at hreads

/-- The slots behind the contents are not among those of the contents. -/
theorem avoidsRow_part (hk : k+n ≤ xs.length) : AvoidsRow T p xs.length (xs.length+n) (.inside (p+k*T.sizeofT) n) := by
  intro j hj m hm _ heq
  have hlt := Nat.mul_lt_mul_of_pos_right (show k+j < m by omega) T.sizeof_pos
  rw [Nat.add_mul] at hlt
  omega

/-- `reserve` beyond the capacity of a buffer is `reallocate`. -/
theorem Held.ends_reserve {Q : Unit → VectorWorld C → Prop} {E : VectorThrown → VectorWorld C → Prop} (h : Held T w v p cap xs rest)
    (hn : cap < n) (hr : (reallocate T v n).Ends w Q E) : (reserve T v n).Ends w Q E := by
  have hstart : (w.vec v).start ≠ 0 := by
    rw [h.vec_eq]
    exact h.ne_zero
  unfold reserve
  apply ends_get_bind
  rw [if_neg hstart, h.capacity_eq, if_pos hn]
  exact hr

section
variable (h : Held T w v p cap xs rest) (hk : k+n ≤ xs.length)
include h hk

/-- Contents of the string are appended to it, in the buffer where they are. -/
theorem ends_appendOwn (hgrow : cap < xs.length+n → Fits T w (xs.length+n) ∧ ¬Relocates T w v (xs.length+n)) :
    (append T v (.inside (p+k*T.sizeofT) n)).Ends w
      (fun _ w' => (∃ p cap, Held T w' v p cap (xs ++ (xs.drop k).take n) rest) ∧ Beside v w w')
      fun _ w' => Contains T w' v rest xs ∧ Beside v w w' := by
  have hlen : ((xs.drop k).take n).length = n := by
    rw [List.length_take, List.length_drop]
    omega
  have hbehind : ∀ {t c}, Held T t v p c xs rest → Beside v w t → xs.length+n ≤ c → (do
      let w ← Prog.get
      copyChars T (w.vec v).finish (.inside (p+k*T.sizeofT) n) 0 n
      SharedMemoryVector.setFinish v ((w.vec v).finish+n*T.sizeofT)
      terminate T v : StringOp C Unit).Ends t (fun _ w' => (∃ p cap, Held T w' v p cap (xs ++ (xs.drop k).take n) rest) ∧ Beside v w w')
        fun _ w' => Contains T w' v rest xs ∧ Beside v w w' := by
    intro t c hheld hb hle
    have hcopy := ends_copyBehind (E := fun _ w' => Contains T w' v rest xs ∧ Beside v w w') hheld (hheld.readsPart hk)
    rw [hlen] at hcopy
    exact (hcopy (avoidsRow_part hk) hle).mono (fun _ w' hw => ⟨⟨p, c, hw.1⟩, hb.trans hw.2⟩) fun _ _ he => he
  unfold append CharSource.length
  apply ends_get_bind
  dsimp only
  rw [h.size_eq, h.capacity_eq]
  by_cases hcap : cap < xs.length+n
  · obtain ⟨hfits, hstays⟩ := hgrow hcap
    rw [Nat.mod_eq_of_lt (by have := hfits.1; omega), if_pos hcap]
    have hreserved : (reserve T v (xs.length+n)).Ends w (fun _ w' => Held T w' v p (xs.length+n) xs rest ∧ Beside v w w')
        fun _ w' => Contains T w' v rest xs ∧ Beside v w w' := by
      apply h.ends_reserve hcap
      refine (ends_reallocate_held h hcap hfits).mono (fun _ w' hw => ?_) fun _ w' he => ⟨he.1.contains, beside_of_same he.2.1 v⟩
      obtain ⟨q, hheld, hb, hwhere⟩ := hw
      rw [if_neg hstays] at hwhere
      exact ⟨hwhere.1 ▸ hheld, hb⟩
    exact hreserved.bind fun _ t ht => hbehind ht.1 ht.2 le_rfl
  · have hlt := capacity_lt h
    rw [Nat.mod_eq_of_lt (by omega), if_neg hcap]
    exact ends_pure_bind (hbehind h (.refl v w) (Nat.le_of_not_lt hcap))

/-- The contents have gone to another buffer: the range names characters of a buffer that has been given back. -/
theorem hangs_appendOwn (hn : 0 < n) (hcap : cap < xs.length+n) (hfits : Fits T w (xs.length+n))
    (hmoves : Relocates T w v (xs.length+n)) : (append T v (.inside (p+k*T.sizeofT) n)).Hangs w := by
  unfold append CharSource.length
  apply hangs_get_bind
  dsimp only
  rw [h.size_eq, h.capacity_eq, Nat.mod_eq_of_lt (by have := hfits.1; omega), if_pos hcap]
  have hreserved : (reserve T v (xs.length+n)).Ends w (fun _ w' => ∀ i < cap+1, w'.objects.slot (p+i*T.sizeofT) = none)
      fun _ _ => False := by
    apply h.ends_reserve hcap
    refine (ends_reallocate_held h hcap hfits).mono (fun _ w' hw => ?_) fun _ w' he => he.2.2.2 hmoves
    obtain ⟨q, -, -, hwhere⟩ := hw
    rw [if_pos hmoves] at hwhere
    exact hwhere.2.2
  refine hreserved.bind_hangs fun _ t hnone => ?_
  apply hangs_get_bind
  apply Hangs.bind
  -- the first character is not there
  have hfirst := hnone k (by have := h.length_le; omega)
  obtain ⟨m, rfl⟩ := Nat.exists_eq_succ_of_ne_zero hn.ne'
  unfold copyChars
  apply Hangs.bind
  unfold Hangs
  change ((elementAt (p+k*T.sizeofT+0*T.sizeofT)).run t).1 = _
  unfold elementAt
  rw [run_read, Nat.zero_mul, Nat.add_zero, hfirst]
  rfl

end

/-- Without a buffer and with nothing to append the terminator is written through a null pointer. -/
theorem hangs_appendNothing (h : w.Stores T.toElementType rest) (hv : w.vec v = .null) (hn : s.length = 0) : (append T v s).Hangs w := by
  have hsize : size T (w.vec v) = 0 := by
    rw [hv]
    rfl
  have hcap : ¬capacity T (w.vec v) < (0+0)%2^64 := Nat.not_lt_zero _
  -- no allocation begins at the null pointer
  have hin : ¬InAllocation T w.heap 0 := by
    rintro ⟨a, ha, hle, -⟩
    obtain ⟨bs, l, hinv⟩ := h.heap
    have := hinv.payload_pos ha
    omega
  unfold append
  apply hangs_get_bind
  dsimp only
  rw [hn, hsize, if_neg hcap]
  apply hangs_pure_bind
  apply hangs_get_bind
  rw [hv]
  unfold copyChars
  apply hangs_pure_bind
  change (terminate T v).Hangs { w with vec := Function.update w.vec v { w.vec v with finish := 0+0*T.sizeofT } }
  unfold terminate
  apply hangs_get_bind
  dsimp only
  rw [Function.update_self, Nat.zero_mul]
  change (Prog.run (if InAllocation T w.heap 0 then _ else undefined : StringOp C Unit) _).1 = _
  rw [if_neg hin]
  rfl

/-- A range in contents has characters, so there is a buffer. -/
theorem InContents.cases (h : Contains T w v rest xs) (hs : s.InContents T w v) (hn : 0 < s.length) :
    ∃ p cap k n, Held T w v p cap xs rest ∧ k+n ≤ xs.length ∧ s = .inside (p+k*T.sizeofT) n := by
  cases s with
  | outside chars => exact hs.elim
  | inside q n =>
    obtain ⟨k, -, hq, hle⟩ := hs
    rw [h.size_eq] at hle
    rcases h.cases with ⟨-, -, rfl⟩ | ⟨p, cap, hheld⟩
    · have : 0 < n := hn
      rw [List.length_nil] at hle
      omega
    · have hstart : (w.vec v).start = p := by rw [hheld.vec_eq]
      exact ⟨p, cap, k, n, hheld, hle, by rw [hq, hstart]⟩

end SharedMemoryString

/-- One call of `append`, where it does not read what has moved. -/
theorem StringsHold.ends_appendable (h : StringsHold T w A own others) (hadm : Appendable T w v s)
    (hsome : (w.vec v).start ≠ 0 ∨ 0 < s.length) (hstays : ¬ReadsMoved T w v s) :
    (append T v s).Ends w
      (fun _ w' => (w'.vec v).start ≠ 0 ∧ ∃ own', StringsHold T w' (Function.update A v ((A v).map (· ++ s.chars T w))) own' others)
      fun _ w' => ∃ own', StringsHold T w' A own' others := by
  obtain ⟨hv, ⟨hs, hwhere⟩, hfits⟩ := hadm
  obtain ⟨xs, hA, -⟩ := h.focus hv
  have hc := h.contains hv hA
  -- the buffer that is left, with the characters of the range behind the old ones
  have hleft : ∀ {cs w'}, cs = s.chars T w →
      (∃ p cap, Held T w' v p cap (xs ++ cs) ((w.names.erase v).flatMap own ++ idleRegions C others)) ∧ Beside v w w' →
      (w'.vec v).start ≠ 0 ∧ ∃ own', StringsHold T w' (Function.update A v ((A v).map (· ++ s.chars T w))) own' others := by
    intro cs w' hcs ⟨⟨p, cap, hheld⟩, hb⟩
    have hstart : (w'.vec v).start = p := by rw [hheld.vec_eq]
    refine ⟨hstart ▸ hheld.ne_zero, ?_⟩
    rw [hA, ← hcs]
    exact h.beside hv hheld.contains hb
  by_cases hown : s.InContents T w v ∧ 0 < s.length
  · obtain ⟨p, cap, k, n, hheld, hk, rfl⟩ := InContents.cases hc hown.1 hown.2
    have hchars := (hheld.readsPart hk).unique hs.readsAs
    unfold ReadsMoved at hstays
    rw [hheld.size_eq, hheld.capacity_eq] at hfits hstays
    exact (ends_appendOwn hheld hk fun hcap => ⟨hfits hcap, fun hmoves => hstays ⟨hown, hcap, hmoves⟩⟩).mono
      (fun _ w' hw => hleft hchars hw) fun _ _ he => h.beside_same hv hA he.1 he.2
  · have hout : s.OutsideBuffer T w v := by
      refine hwhere.elim id fun hin => ?_
      cases s with
      | outside chars => trivial
      | inside p n => exact fun _ i hi => absurd ⟨hin, Nat.zero_lt_of_lt hi⟩ hown
    rw [hc.size_eq, ← CharSource.length_chars T w s] at hfits
    rw [← CharSource.length_chars T w s] at hsome
    exact (ends_append hc (h.readsIn_outside hv hs hout) (hsome.imp_right List.length_pos_iff.mp) hfits).mono
      (fun _ _ hw => hleft rfl hw) fun _ _ he => h.beside_same hv hA he.1 he.2

/-- And where it does, or has nothing to append and no buffer. -/
theorem StringsHold.hangs_appendable (h : StringsHold T w A own others) (hadm : Appendable T w v s)
    (hbad : ¬((w.vec v).start ≠ 0 ∨ 0 < s.length) ∨ ReadsMoved T w v s) : (append T v s).Hangs w := by
  obtain ⟨hv, -, hfits⟩ := hadm
  obtain ⟨xs, hA, ho, hst⟩ := h.focus hv
  have hc := h.contains hv hA
  rcases hbad with hnone | ⟨⟨hin, hn⟩, hcap, hmoves⟩
  · rw [not_or, not_not, Nat.not_lt_eq, Nat.le_zero] at hnone
    rcases hc.cases with ⟨hnull, hrest, -⟩ | ⟨p, cap, hheld⟩
    · exact hangs_appendNothing hrest hnull hnone.2
    · rw [hheld.vec_eq] at hnone
      exact absurd hnone.1 hheld.ne_zero
  · obtain ⟨p, cap, k, n, hheld, hk, rfl⟩ := InContents.cases hc hin hn
    rw [hheld.size_eq] at hmoves hfits hcap
    rw [hheld.capacity_eq] at hcap hfits
    exact hangs_appendOwn hheld hk hn hcap (hfits hcap) hmoves

/-- The runs, in which contents of a string may be appended to it, and nothing may be appended where there is no buffer. -/
inductive AppendRun (T : CharType C) : VectorWorld C → Prop
  | start {g : Heap} {vec : ℕ → SharedMemoryString} (hg : Reachable g) : AppendRun T ⟨g, .empty, vec, []⟩
  | call {w w' : VectorWorld C} {r : Outcome VectorThrown Unit} (call : StringCall C) (h : AppendRun T w)
      (hadm : call.Admissible T w ∨ ∃ v s, call = .append v s ∧ Appendable T w v s)
      (hrun : (call.perform T).run w = (r, w')) (hends : r ≠ .hang) : AppendRun T w'
  | elsewhere {w : VectorWorld C} {g : Heap} (call : Call) (h : AppendRun T w) (hadm : w.heap.Admissible call)
      (hforeign : SparesBuffers T w call) (hexec : w.heap.exec call = some g) : AppendRun T (w.withHeap T.toElementType g)

theorem StringRun.appendRun (h : StringRun T w A others) : AppendRun T w := by
  induction h with
  | start hg => exact .start hg
  | returns call _ hadm hrun ih => exact .call call ih (Or.inl hadm) hrun (by simp)
  | throws call _ hadm hrun ih => exact .call call ih (Or.inl hadm) hrun (by simp)
  | elsewhere call _ hadm hforeign hexec ih => exact .elsewhere call ih hadm hforeign hexec

theorem AppendRun.hold (h : AppendRun T w) : ∃ A own others, StringsHold T w A own others := by
  induction h with
  | start hg =>
    obtain ⟨own, hw⟩ := (StringRun.start (T := T) hg).hold
    exact ⟨_, own, _, hw⟩
  | elsewhere call _ hadm hforeign hexec ih =>
    obtain ⟨A, own, others, hw⟩ := ih
    exact ⟨A, own, _, hw.elsewhere hadm hforeign hexec⟩
  | @call w w' r call _ hadm hrun hends ih =>
    obtain ⟨A, own, others, hw⟩ := ih
    have hstep : ∀ {B : ℕ → Option (List C)}, (call.perform T).Ends w (fun _ w' => ∃ own', StringsHold T w' B own' others)
        (fun _ w' => ∃ own', StringsHold T w' A own' others) → ∃ A own others, StringsHold T w' A own others := by
      intro B hB
      rcases hB.cases with ⟨_, t, hr, own', ht⟩ | ⟨_, t, hr, own', ht⟩ <;> cases hrun.symm.trans hr <;> exact ⟨_, own', others, ht⟩
    rcases hadm with hadm | ⟨v, s, rfl, hadm⟩
    · exact hstep (hw.ends_perform call hadm)
    · by_cases hgood : ((w.vec v).start ≠ 0 ∨ 0 < s.length) ∧ ¬ReadsMoved T w v s
      · exact hstep ((hw.ends_appendable hadm hgood.1 hgood.2).mono (fun _ _ hq => hq.2) fun _ _ he => he)
      · -- such a call has no end
        rw [not_and_or, not_not] at hgood
        have hhangs := hw.hangs_appendable hadm hgood
        unfold Hangs at hhangs
        change ((append T v s).run w) = _ at hrun
        rw [hrun] at hhangs
        exact absurd hhangs hends

/-- `append` is right for every string and every readable range, but for two kinds: nothing appended to a string without a
buffer, and contents of the string that go to another buffer before they are read. -/
theorem append_exact (h : AppendRun T w) (hadm : Appendable T w v s) :
    AppendsRight T w v s ↔ ((w.vec v).start ≠ 0 ∨ 0 < s.length) ∧ ¬ReadsMoved T w v s := by
  obtain ⟨A, own, others, hw⟩ := h.hold
  obtain ⟨xs, hA, -⟩ := hw.focus hadm.1
  have hold : text T w v = xs.map some := text_eq_of_readsAs (hw.reads hadm.1 hA)
  constructor
  · intro hright
    by_contra hbad
    rw [not_and_or, not_not] at hbad
    exact not_appendsRight_of_hangs (hw.hangs_appendable hadm hbad) hright
  · intro ⟨hsome, hstays⟩
    have hnames : ∀ {w' B own'}, StringsHold T w' B own' others → B v ≠ none → v ∈ w'.names := by
      intro w' B own' hw' hB
      by_contra hcon
      exact hB (hw'.absent v hcon)
    unfold AppendsRight
    rcases (hw.ends_appendable hadm hsome hstays).cases with ⟨_, w', hr, hstart, own', hw'⟩ | ⟨_, w', hr, own', hw'⟩ <;> rw [hr]
    · have hB : Function.update A v ((A v).map (· ++ s.chars T w)) v = some (xs ++ s.chars T w) := by
        rw [Function.update_self, hA]
        rfl
      have hv := hnames hw' (by rw [hB]; exact Option.some_ne_none _)
      refine ⟨?_, ?_⟩
      · rw [text_eq_of_readsAs (hw'.reads hv hB), hold, List.map_append]
      · exact (hw'.storage_exact hv hstart).2.1
    · have hv := hnames hw' (by rw [hA]; exact Option.some_ne_none _)
      change text T w' v = text T w v
      rw [text_eq_of_readsAs (hw'.reads hv hA), hold]

theorem append_exact_moved : AppendsRight byteType movedString 0 (.inside (movedString.vec 1).start 3) := by
  obtain ⟨A, others, hrun, -⟩ := movedString_run
  exact (append_exact hrun.appendRun (by decide +kernel)).mpr (by decide +kernel)

/-- A string of twenty characters, with an allocation right behind its buffer. -/
def hemmedString : VectorWorld ℕ :=
  let w := ((StringCall.constructFrom 0 (.outside (List.replicate 20 7))).perform byteType).run byteWorld
  w.2.withHeap byteType.toElementType ((w.2.heap.exec (.allocate 16 16)).getD w.2.heap)

theorem hemmedString_run : AppendRun byteType hemmedString := by
  have h₀ : StringRun byteType byteWorld (fun _ => none) smallHeap.allocations := .start smallHeap_reachable
  have h₁ := h₀.perform (.constructFrom 0 (.outside (List.replicate 20 7))) (by decide +kernel) (by decide +kernel)
  generalize hu : ((StringCall.constructFrom 0 (.outside (List.replicate 20 7))).perform byteType).run byteWorld = u at h₁
  have hheap : u.2.heap.Admissible (.allocate 16 16) ∧ (u.2.heap.exec (.allocate 16 16)).isSome = true := by
    rw [← hu]
    decide +kernel
  obtain ⟨g, hg⟩ := Option.isSome_iff_exists.mp hheap.2
  have hnext := h₁.appendRun.elsewhere (.allocate 16 16) hheap.1 trivial hg
  unfold hemmedString
  rw [hu]
  dsimp only
  rw [hg]
  exact hnext

/-- `append(s, 0)` writes through the null pointer of a string that has been moved from; `append(data(), size())`
reads the buffer it has given back. -/
theorem append_fails :
    ((∃ A others, StringRun byteType movedString A others) ∧ Appendable byteType movedString 0 (.outside []) ∧
      ¬AppendsRight byteType movedString 0 (.outside [])) ∧
    (AppendRun byteType hemmedString ∧ Appendable byteType hemmedString 0 (contents byteType hemmedString 0) ∧
      ¬AppendsRight byteType hemmedString 0 (contents byteType hemmedString 0)) := by
  obtain ⟨A, others, hrun, -⟩ := movedString_run
  refine ⟨⟨⟨A, others, hrun⟩, by decide +kernel, not_appendsRight_of_hangs ?_⟩, hemmedString_run, by decide +kernel, not_appendsRight_of_hangs ?_⟩
  · unfold Hangs
    decide +kernel
  · unfold Hangs
    decide +kernel

end ShmNext
