import ShmNext.StringOps

/-! The public members of the string: what each does to the characters of its string, whether it returns or throws. -/
namespace ShmNext
open Prog

variable {C : Type} {T : CharType C} {w w' t : VectorWorld C} {r : Region C} {rs rest : List (Region C)} {xs cs : List C}
  {s : CharSource C} {v other p q n k cap : ℕ} {E : VectorThrown → VectorWorld C → Prop}

namespace SharedMemoryString
open SharedMemoryVector (Beside beside_of_same beside_update)

/-- The characters `cs` of the range lie in the regions `rest`, or outside all buffers. -/
def ReadsIn (T : CharType C) (rest : List (Region C)) (cs : List C) : CharSource C → Prop
  | .outside chars => chars = cs
  | .inside p n => n = cs.length ∧ ∀ i x, cs[i]? = some x → ∃ r ∈ rest, r.base ≤ p+i*T.sizeofT ∧ p+i*T.sizeofT < r.base+r.bytes ∧
      (cellAt r.base T.sizeofT r.cells (p+i*T.sizeofT)).map Prod.snd = some x

namespace ReadsIn

theorem readsAs (h : ReadsIn T rest cs s) (hst : w.Stores T.toElementType rs) (hsub : ∀ r ∈ rest, r ∈ rs) : ReadsAs T w cs s := by
  cases s with
  | outside chars => exact h
  | inside p n =>
    refine ⟨h.1, fun i x hx => ?_⟩
    obtain ⟨r, hr, h1, h2, hcell⟩ := h.2 i x hx
    rw [hst.filled r (hsub r hr) _ h1 h2]
    exact hcell

theorem avoidsRow (lo : ℕ) {hi : ℕ} (h : ReadsIn T rest cs s) (hst : w.Stores T.toElementType (r :: rest)) (hhi : hi*T.sizeofT ≤ r.bytes) :
    AvoidsRow T r.base lo hi s := by
  cases s with
  | outside chars => trivial
  | inside p n =>
    intro j hj k _ hk heq
    have hjc : j < cs.length := h.1 ▸ hj
    obtain ⟨r', hr', h1, h2, -⟩ := h.2 j _ (List.getElem?_eq_getElem hjc)
    have hsz := T.sizeof_pos
    have hk' : (k+1)*T.sizeofT ≤ r.bytes := (Nat.mul_le_mul_right _ hk).trans hhi
    rw [Nat.succ_mul] at hk'
    have hne : r'.base ≠ r.base := fun hbase => (List.nodup_cons.mp hst.distinct).1 (hbase ▸ List.mem_map_of_mem hr')
    have hapart := hst.apart List.mem_cons_self (List.mem_cons_of_mem _ hr') hne
    omega

end ReadsIn

/-- `x` is a string over the regions `mine`, with the characters `xs`. -/
inductive Owns (T : CharType C) : SharedMemoryString → List (Region C) → List C → Prop
  | null : Owns T .null [] []
  | storage {p cap : ℕ} {ys : List (ℕ × C)} {xs zs : List C} (hp : p ≠ 0) (hle : xs.length ≤ cap)
      (hvals : ys.map Prod.snd = xs ++ T.zero :: zs) :
      Owns T ⟨p, p+xs.length*T.sizeofT, p+cap*T.sizeofT⟩ [⟨p, (cap+1)*T.sizeofT, ys⟩] xs

/-- The string `v` has the characters `xs`, in a buffer apart from `rest` or without one. -/
def Contains (T : CharType C) (w : VectorWorld C) (v : ℕ) (rest : List (Region C)) (xs : List C) : Prop :=
  ∃ mine, w.Stores T.toElementType (mine ++ rest) ∧ Owns T (w.vec v) mine xs

theorem Held.contains (h : Held T w v p cap xs rest) : Contains T w v rest xs := by
  obtain ⟨ys, zs, hst, hvals⟩ := h.stores
  refine ⟨[⟨p, (cap+1)*T.sizeofT, ys⟩], hst, ?_⟩
  rw [h.vec_eq]
  exact .storage h.ne_zero h.length_le hvals

theorem contains_null (h : w.Stores T.toElementType rest) (hv : w.vec v = .null) : Contains T w v rest [] := by
  refine ⟨[], h, ?_⟩
  rw [hv]
  exact .null

theorem Contains.cases (h : Contains T w v rest xs) :
    (w.vec v = .null ∧ w.Stores T.toElementType rest ∧ xs = []) ∨ ∃ p cap, Held T w v p cap xs rest := by
  obtain ⟨mine, hst, ho⟩ := h
  generalize hx : w.vec v = x at ho
  cases ho with
  | null => exact Or.inl ⟨rfl, hst, rfl⟩
  | @storage p cap ys xs zs hp hle hvals => exact Or.inr ⟨p, cap, ⟨ys, zs, hst, hvals⟩, hx, hle⟩

theorem Contains.size_eq (h : Contains T w v rest xs) : size T (w.vec v) = xs.length := by
  rcases h.cases with ⟨hnull, -, rfl⟩ | ⟨p, cap, hheld⟩
  · rw [hnull]
    rfl
  · exact hheld.size_eq

theorem Contains.of_same (h : Contains T w v rest xs) (hst : ∀ mine, w.Stores T.toElementType (mine ++ rest) →
    w'.Stores T.toElementType (mine ++ rest)) (hv : w'.vec v = w.vec v) : Contains T w' v rest xs := by
  obtain ⟨mine, hmine, ho⟩ := h
  refine ⟨mine, hst mine hmine, ?_⟩
  rwa [hv]

/-! Members that only make room. -/

theorem ends_initEmpty (h : w.Stores T.toElementType rest) (hv : w.vec v = .null) (hfits : Fits T w 0) :
    (initEmpty T v).Ends w (fun _ w' => (∃ p, Held T w' v p 0 [] rest) ∧ Beside v w w' ∧ SamePlace w w')
      fun _ w' => w'.Stores T.toElementType rest ∧ SameVecs w w' := by
  unfold initEmpty
  refine ((ends_reallocate_null h hv hfits).mono (fun _ _ hq => hq) fun _ _ he => ⟨he.1, he.2.1⟩).bind fun _ t ht => ?_
  obtain ⟨⟨p, hheld⟩, hb, hr⟩ := ht
  obtain ⟨ys, zs, hst, hvals⟩ := hheld.stores
  apply ends_get_bind
  rw [hheld.vec_eq]
  have hset := ends_setChar (i := 0) (E := fun _ w' => w'.Stores T.toElementType rest ∧ SameVecs w w') hst (Nat.zero_le _)
    (Nat.mul_le_mul_right _ le_rfl) T.zero
  rw [Nat.zero_mul, Nat.add_zero] at hset
  refine hset.bind fun _ u hu => ?_
  obtain ⟨hobj, -, ys', hst', hys'⟩ := hu
  apply ends_store
  refine ⟨⟨p, ⟨ys', zs, hst', ?_⟩, ?_, le_rfl⟩, hb.trans ?_, hr.trans (.of_heap ?_)⟩
  · rw [hys']
    change overwritten (ys.map Prod.snd) ([] : List C).length [T.zero] = _
    rw [hvals, overwritten_append]
    rfl
  · dsimp only
    rw [Function.update_self, hobj]
    dsimp only
    rw [hheld.vec_eq, List.length_nil, Nat.zero_mul, Nat.add_zero]
  · rw [hobj]
    exact ⟨fun x hx => Function.update_of_ne hx _ _, rfl⟩
  · rw [hobj]

theorem ends_reserve (h : Contains T w v rest xs) (hfits : (w.vec v).start = 0 ∨ capacity T (w.vec v) < n → Fits T w n) :
    (reserve T v n).Ends w (fun _ w' => (∃ p cap, Held T w' v p cap xs rest ∧ n ≤ cap) ∧ Beside v w w' ∧ SamePlace w w')
      fun _ w' => Contains T w' v rest xs ∧ SameVecs w w' := by
  unfold reserve
  apply ends_get_bind
  rcases h.cases with ⟨hnull, hst, rfl⟩ | ⟨p, cap, hheld⟩
  · have hstart : (w.vec v).start = 0 := by rw [hnull]; rfl
    rw [if_pos hstart]
    refine (ends_reallocate_null hst hnull (hfits (Or.inl hstart))).mono (fun _ w' hw => ?_) fun _ w' he => ?_
    · obtain ⟨⟨p, hheld⟩, hb, hr⟩ := hw
      exact ⟨⟨p, n, hheld, le_rfl⟩, hb, hr⟩
    · refine ⟨contains_null he.1 ?_, he.2.1⟩
      rw [he.2.1.vec_eq, hnull]
  · have hstart : (w.vec v).start ≠ 0 := by
      rw [hheld.vec_eq]
      exact hheld.ne_zero
    rw [if_neg hstart]
    by_cases hcap : capacity T (w.vec v) < n
    · rw [if_pos hcap]
      have hlt := hcap
      rw [hheld.capacity_eq] at hlt
      refine (ends_reallocate_held hheld hlt (hfits (Or.inr hcap))).mono (fun _ w' hw => ?_) fun _ w' he => ?_
      · obtain ⟨q, hheld', hb, hwhere⟩ := hw
        refine ⟨⟨q, n, hheld', le_rfl⟩, hb, ?_⟩
        split at hwhere
        · exact hwhere.2.1
        · exact hwhere.2
      · exact ⟨he.1.contains, he.2.1⟩
    · rw [if_neg hcap]
      rw [hheld.capacity_eq] at hcap
      exact ends_pure ⟨⟨p, cap, hheld, Nat.le_of_not_lt hcap⟩, .refl v w, .refl w⟩

theorem ends_clear (h : Contains T w v rest xs) : (clear T v).Ends w (fun _ w' => Contains T w' v rest [] ∧ Beside v w w') E := by
  unfold clear
  apply ends_get_bind
  rcases h.cases with ⟨hnull, hst, rfl⟩ | ⟨p, cap, hheld⟩
  · have hstart : ¬(w.vec v).start ≠ 0 := by
      rw [hnull]
      exact fun hne => hne rfl
    rw [if_neg hstart]
    exact ends_pure ⟨contains_null hst hnull, .refl v w⟩
  · have hstart : (w.vec v).start ≠ 0 := by
      rw [hheld.vec_eq]
      exact hheld.ne_zero
    rw [if_pos hstart]
    apply ends_store_bind
    obtain ⟨ys, zs, hst, hvals⟩ := hheld.stores
    refine Ends.mono (ends_terminate cap [] (p := p) hst hvals ?_ (Nat.zero_le _))
      (fun _ w' hw => ?_) fun _ _ he => he
    · dsimp only
      rw [Function.update_self, hheld.vec_eq, List.length_nil, Nat.zero_mul, Nat.add_zero]
    · exact ⟨hw.1.contains, (beside_update _ _ _).trans (beside_of_same hw.2.1 v)⟩

/-! Members that copy characters. -/

/-- The characters `cs` have been written from the start of the buffer on; `finish` is where it was. -/
structure Filled (T : CharType C) (w : VectorWorld C) (v p cap : ℕ) (cs : List C) (rest : List (Region C)) : Prop where
  stores : ∃ ys zs, w.Stores T.toElementType (⟨p, (cap+1)*T.sizeofT, ys⟩ :: rest) ∧ ys.map Prod.snd = cs ++ zs
  vec_eq : ∃ q, w.vec v = ⟨p, q, p+cap*T.sizeofT⟩
  length_le : cs.length ≤ cap

theorem Filled.ends_finishAt (h : Filled T w v p cap cs rest) :
    (finishAt T v cs.length).Ends w (fun _ w' => Held T w' v p cap cs rest ∧ Beside v w w' ∧ SamePlace w w') E := by
  obtain ⟨ys, zs, hst, hvals⟩ := h.stores
  obtain ⟨q, hv⟩ := h.vec_eq
  exact SharedMemoryString.ends_finishAt hst hvals hv h.length_le

/-- `Traits::copy(start.get(), s, n)`. -/
theorem ends_copyFirst (h : Held T w v p cap xs rest) (hs : ReadsIn T rest cs s) (hle : cs.length ≤ cap) :
    (copyChars T p s 0 cs.length).Ends w (fun _ w' => Filled T w' v p cap cs rest ∧ SameVecs w w') E := by
  obtain ⟨ys, zs, hst, hvals⟩ := h.stores
  have hroom : cs.length*T.sizeofT ≤ (cap+1)*T.sizeofT := Nat.mul_le_mul_right _ (by omega)
  have havoid := hs.avoidsRow 0 hst hroom
  have hcopy := ends_copyChars cs.length (i := 0) (k := 0) (E := E) hst
    (hs.readsAs hst fun r hr => List.mem_cons_of_mem _ hr) (Nat.zero_add _) (by rwa [Nat.zero_add]) (Nat.zero_le _) (by rwa [Nat.zero_add])
  dsimp only at hcopy
  rw [Nat.zero_mul, Nat.add_zero] at hcopy
  refine hcopy.mono (fun _ t ht => ?_) fun _ _ he => he
  obtain ⟨hobj, ys', hst', hys'⟩ := ht
  refine ⟨⟨⟨ys', (ys.map Prod.snd).drop cs.length, hst', ?_⟩, ⟨p+xs.length*T.sizeofT, ?_⟩, hle⟩, ?_, ?_⟩
  · rw [hys', Nat.add_zero, List.drop_zero]
    unfold overwritten
    rw [List.take_zero, Nat.zero_add, List.nil_append]
  · rw [hobj]
    exact h.vec_eq
  · rw [hobj]
  · rw [hobj]

theorem Held.filled_nil (h : Held T w v p cap xs rest) : Filled T w v p cap [] rest := by
  obtain ⟨ys, zs, hst, hvals⟩ := h.stores
  exact ⟨⟨ys, _, hst, (List.nil_append _).symm⟩, ⟨_, h.vec_eq⟩, Nat.zero_le _⟩

/-- Characters are copied, where there are any. -/
theorem ends_fill {f : StringOp C Unit} {Q : Unit → VectorWorld C → Prop} (h : Held T w v p cap xs rest) (hs : ReadsIn T rest cs s)
    (hle : cs.length ≤ cap) (hf : ∀ t, Filled T t v p cap cs rest → SameVecs w t → f.Ends t Q E) :
    (if cs.length ≠ 0 then copyChars T p s 0 cs.length >>= fun _ => f else f).Ends w Q E := by
  by_cases hz : cs.length = 0
  · rw [if_neg (not_not.mpr hz)]
    obtain rfl := List.length_eq_zero_iff.mp hz
    exact hf w h.filled_nil (.refl w)
  · rw [if_pos hz]
    exact (ends_copyFirst h hs hle).bind fun _ t ht => hf t ht.1 ht.2

theorem ReadsIn.length_eq (h : ReadsIn T rest cs s) : s.length = cs.length := by
  cases s with
  | outside chars => exact congrArg List.length h
  | inside p n => exact h.1

theorem ends_assign (h : Contains T w v rest xs) (hs : ReadsIn T rest cs s) (hempty : (w.vec v).start = 0 → Fits T w 0)
    (hfits : capacity T (w.vec v) < cs.length → Fits T w cs.length) :
    (assign T v s).Ends w (fun _ w' => Contains T w' v rest cs ∧ Beside v w w') fun _ w' => Contains T w' v rest xs ∧ Beside v w w' := by
  have hlen := hs.length_eq
  -- from a string with a buffer on
  have hheldcase : ∀ {t p cap}, Held T t v p cap xs rest → Beside v w t → SamePlace w t → (cap < cs.length → Fits T w cs.length) →
      (do
        let w ← Prog.get
        if capacity T (w.vec v) < cs.length then reallocate T v cs.length else pure ()
        let w ← Prog.get
        if cs.length ≠ 0 then copyChars T (w.vec v).start s 0 cs.length else pure ()
        finishAt T v cs.length : StringOp C Unit).Ends t (fun _ w' => Contains T w' v rest cs ∧ Beside v w w')
        fun _ w' => Contains T w' v rest xs ∧ Beside v w w' := by
    intro t p cap hheld hb hplace hgrow
    have hroom : ∀ {u q k}, Held T u v q k xs rest → Beside v w u → cs.length ≤ k → (do
        let w ← Prog.get
        if cs.length ≠ 0 then copyChars T (w.vec v).start s 0 cs.length else pure ()
        finishAt T v cs.length : StringOp C Unit).Ends u (fun _ w' => Contains T w' v rest cs ∧ Beside v w w')
        fun _ w' => Contains T w' v rest xs ∧ Beside v w w' := by
      intro u q k hu hbu hle
      apply ends_get_bind
      rw [hu.vec_eq]
      refine ends_fill hu hs hle fun t ht hst => ?_
      exact ht.ends_finishAt.mono (fun _ w' hw => ⟨hw.1.contains, hbu.trans ((beside_of_same hst v).trans hw.2.1)⟩) fun _ _ he => he
    apply ends_get_bind
    rw [hheld.capacity_eq]
    by_cases hcap : cap < cs.length
    · rw [if_pos hcap]
      refine ((ends_reallocate_held hheld hcap (hplace.fits (hgrow hcap))).mono (fun _ _ hq => hq)
        fun _ w' he => ⟨he.1.contains, hb.trans (beside_of_same he.2.1 v)⟩).bind fun _ u hu => ?_
      obtain ⟨q, hu, hbu, -⟩ := hu
      exact hroom hu (hb.trans hbu) le_rfl
    · rw [if_neg hcap]
      exact ends_pure_bind (hroom hheld hb (Nat.le_of_not_lt hcap))
  unfold assign
  dsimp only
  rw [hlen]
  apply ends_get_bind
  rcases h.cases with ⟨hnull, hst, rfl⟩ | ⟨p, cap, hheld⟩
  · have hstart : (w.vec v).start = 0 := by rw [hnull]; rfl
    have hzero : capacity T (w.vec v) = 0 := by rw [hnull]; rfl
    rw [if_pos hstart]
    refine ((ends_initEmpty hst hnull (hempty hstart)).mono (fun _ _ hq => hq) fun _ w' he => ?_).bind fun _ t ht => ?_
    · refine ⟨contains_null he.1 ?_, beside_of_same he.2 v⟩
      rw [he.2.vec_eq, hnull]
    · obtain ⟨⟨p, hheld⟩, hb, hplace⟩ := ht
      exact hheldcase hheld hb hplace fun hlt => hfits (hzero ▸ hlt)
  · have hstart : (w.vec v).start ≠ 0 := by
      rw [hheld.vec_eq]
      exact hheld.ne_zero
    rw [if_neg hstart]
    refine ends_pure_bind (hheldcase hheld (.refl v w) (.refl w) fun hlt => hfits ?_)
    rwa [hheld.capacity_eq]

/-- The characters `cs` are written behind those of the string, where the buffer has room for them. -/
theorem ends_copyBehind (h : Held T w v p cap xs rest) (hs : ReadsAs T w cs s)
    (havoid : AvoidsRow T p xs.length (xs.length+cs.length) s) (hle : xs.length+cs.length ≤ cap) :
    (do
      let w ← Prog.get
      copyChars T (w.vec v).finish s 0 cs.length
      SharedMemoryVector.setFinish v ((w.vec v).finish+cs.length*T.sizeofT)
      terminate T v).Ends w (fun _ w' => Held T w' v p cap (xs ++ cs) rest ∧ Beside v w w') E := by
  obtain ⟨ys, zs, hst, hvals⟩ := h.stores
  have hylen : xs.length ≤ ys.length := by
    have := congrArg List.length hvals
    rw [List.length_map, List.length_append] at this
    omega
  apply ends_get_bind
  rw [h.vec_eq]
  dsimp only
  refine (ends_copyChars cs.length (i := 0) (k := xs.length) (E := E) hst hs (Nat.zero_add _) havoid hylen
    (Nat.mul_le_mul_right _ (by omega))).bind fun _ t ht => ?_
  obtain ⟨hobj, ys', hst', hys'⟩ := ht
  have hnew : ys'.map Prod.snd = (xs ++ cs) ++ (T.zero :: zs).drop cs.length := by
    rw [hys', hvals, Nat.add_zero, List.drop_zero, overwritten_append]
  apply ends_store_bind
  refine Ends.mono (ends_terminate cap (xs ++ cs) (p := p) hst' hnew ?_ (by rwa [List.length_append])) (fun _ w' hw => ?_)
    fun _ _ he => he
  · dsimp only
    rw [Function.update_self, hobj]
    dsimp only
    rw [h.vec_eq, List.length_append, Nat.add_mul, Nat.add_assoc]
  · rw [hobj] at hw
    exact ⟨hw.1, fun x hx => (congrFun hw.2.1.vec_eq x).trans (Function.update_of_ne hx _ _), hw.2.1.names_eq⟩

theorem capacity_lt (h : Held T w v p cap xs rest) : cap+1 < 2^64 := by
  obtain ⟨ys, zs, hst, -⟩ := h.stores
  have hbound := (hst.bounds List.mem_cons_self).2.2.1
  have hmul := Nat.le_mul_of_pos_right (cap+1) T.sizeof_pos
  dsimp only at hbound
  omega

theorem ends_append (h : Contains T w v rest xs) (hs : ReadsIn T rest cs s) (hsome : (w.vec v).start ≠ 0 ∨ cs ≠ [])
    (hfits : capacity T (w.vec v) < xs.length+cs.length → Fits T w (xs.length+cs.length)) :
    (append T v s).Ends w (fun _ w' => (∃ p cap, Held T w' v p cap (xs ++ cs) rest) ∧ Beside v w w')
      fun _ w' => Contains T w' v rest xs ∧ Beside v w w' := by
  have hlen := hs.length_eq
  have hbehind : ∀ {t p cap}, Held T t v p cap xs rest → Beside v w t → xs.length+cs.length ≤ cap → (do
      let w ← Prog.get
      copyChars T (w.vec v).finish s 0 cs.length
      SharedMemoryVector.setFinish v ((w.vec v).finish+cs.length*T.sizeofT)
      terminate T v : StringOp C Unit).Ends t (fun _ w' => (∃ p cap, Held T w' v p cap (xs ++ cs) rest) ∧ Beside v w w')
        fun _ w' => Contains T w' v rest xs ∧ Beside v w w' := by
    intro t p cap hheld hb hle
    obtain ⟨ys, zs, hst, -⟩ := hheld.stores
    have havoid := hs.avoidsRow xs.length hst (Nat.mul_le_mul_right _ (show xs.length+cs.length ≤ cap+1 by omega))
    exact (ends_copyBehind hheld (hs.readsAs hst fun r hr => List.mem_cons_of_mem _ hr) havoid hle).mono
      (fun _ w' hw => ⟨⟨p, cap, hw.1⟩, hb.trans hw.2⟩) fun _ _ he => he
  unfold append
  dsimp only
  rw [hlen]
  apply ends_get_bind
  rw [h.size_eq]
  by_cases hcap : capacity T (w.vec v) < xs.length+cs.length
  · have hwanted := hfits hcap
    rw [Nat.mod_eq_of_lt (by have := hwanted.1; omega), if_pos hcap]
    refine ((ends_reserve h fun _ => hwanted).mono (fun _ _ hq => hq) fun _ _ he => ⟨he.1, beside_of_same he.2 v⟩).bind fun _ t ht => ?_
    obtain ⟨⟨p, cap, hheld, hle⟩, hb, -⟩ := ht
    exact hbehind hheld hb hle
  · rcases h.cases with ⟨hnull, hst, rfl⟩ | ⟨p, cap, hheld⟩
    · -- without a buffer something is appended, and there is no room for it
      rw [hnull] at hcap hsome
      have hpos : 0 < cs.length := List.length_pos_iff.mpr (hsome.resolve_left fun hne => hne rfl)
      exact absurd (show 0 < 0+cs.length by omega) hcap
    · rw [hheld.capacity_eq] at hcap ⊢
      have hlt := capacity_lt hheld
      rw [Nat.mod_eq_of_lt (by omega), if_neg hcap]
      exact ends_pure_bind (hbehind hheld (.refl v w) (Nat.le_of_not_lt hcap))

/-! Constructors and the destructor. -/

/-- The contents of a string whose buffer is among the regions `rest`. -/
theorem Owns.readsIn {x : SharedMemoryString} {mine : List (Region C)} (h : Owns T x mine xs) (hsub : ∀ r ∈ mine, r ∈ rest) :
    ReadsIn T rest xs (.inside x.start (size T x)) := by
  cases h with
  | null => exact ⟨rfl, fun i x hx => (by cases hx)⟩
  | @storage p cap ys xs zs hp hle hvals =>
    refine ⟨SharedMemoryVector.size_storage hp, fun i x hx => ⟨_, hsub _ (List.mem_singleton_self _), Nat.le_add_right _ _, ?_, ?_⟩⟩
    · have hlt := (List.getElem?_eq_some_iff.mp hx).1
      have hmul := Nat.mul_lt_mul_of_pos_right (show i < cap+1 by omega) T.sizeof_pos
      dsimp only
      omega
    · dsimp only
      rw [cellAt_slot T.sizeof_pos, ← List.getElem?_map, hvals, List.getElem?_append_left (List.getElem?_eq_some_iff.mp hx).1]
      exact hx

/-- A constructor begins with null pointers. -/
theorem ends_setNull_stores (h : w.Stores T.toElementType rest) :
    (SharedMemoryVector.setNull v : StringOp C Unit).Ends w
      (fun _ w' => w'.Stores T.toElementType rest ∧ w'.vec v = .null ∧ Beside v w w' ∧ SamePlace w w') E := by
  apply SharedMemoryVector.ends_setNull
  exact ⟨h, Function.update_self .., beside_update _ _ _, .of_heap rfl⟩

/-- What a constructor leaves where it throws: no string, and nothing held for one. -/
def Unborn (T : CharType C) (v : ℕ) (rest : List (Region C)) (w w' : VectorWorld C) : Prop :=
  w'.Stores T.toElementType rest ∧ Beside v w w'

/-- What it leaves where it returns. -/
def Born (T : CharType C) (v : ℕ) (rest : List (Region C)) (xs : List C) (w w' : VectorWorld C) : Prop :=
  Contains T w' v rest xs ∧ (∀ u, u ≠ v → w'.vec u = w.vec u) ∧ w'.names = v :: w.names

theorem Held.ends_born (h : Held T t v p cap xs rest) (hb : Beside v w t) :
    (SharedMemoryVector.born v).Ends t (fun _ w' => Born T v rest xs w w') E := by
  apply ends_store
  exact ⟨h.contains, hb.vec_eq, congrArg (v :: ·) hb.names_eq⟩

theorem ends_construct (h : w.Stores T.toElementType rest) (hfits : Fits T w 0) :
    (construct T v).Ends w (fun _ w' => Born T v rest [] w w') fun _ w' => Unborn T v rest w w' := by
  unfold construct
  refine (ends_setNull_stores h).bind fun _ t ht => ?_
  obtain ⟨hst, hnull, hb, hplace⟩ := ht
  refine ((ends_initEmpty hst hnull (hplace.fits hfits)).mono (fun _ _ hq => hq)
    fun _ w' he => ⟨he.1, hb.trans (beside_of_same he.2 v)⟩).bind fun _ u hu => ?_
  obtain ⟨⟨p, hheld⟩, hb', -⟩ := hu
  exact hheld.ends_born (hb.trans hb')

/-- `reserve` in a constructor. -/
theorem ends_reserveFirst (h : t.Stores T.toElementType rest) (hnull : t.vec v = .null) (hb : Beside v w t) (hfits : Fits T t n) :
    (reserve T v n).Ends t (fun _ w' => ∃ p cap, Held T w' v p cap [] rest ∧ n ≤ cap ∧ Beside v w w') fun _ w' => Unborn T v rest w w' := by
  refine (ends_reserve (contains_null h hnull) fun _ => hfits).mono (fun _ w' hw => ?_) fun _ w' he => ?_
  · obtain ⟨⟨p, cap, hheld, hle⟩, hb', -⟩ := hw
    exact ⟨p, cap, hheld, hle, hb.trans hb'⟩
  · obtain ⟨hcon, hs⟩ := he
    rcases hcon.cases with ⟨-, hst, -⟩ | ⟨p, cap, hheld⟩
    · exact ⟨hst, hb.trans (beside_of_same hs v)⟩
    · have hv := hheld.vec_eq
      rw [hs.vec_eq, hnull] at hv
      exact absurd (congrArg SharedMemoryVector.start hv).symm hheld.ne_zero

theorem ends_constructFrom (h : w.Stores T.toElementType rest) (hs : ReadsIn T rest cs s) (hfits : Fits T w cs.length) :
    (constructFrom T v s).Ends w (fun _ w' => Born T v rest cs w w') fun _ w' => Unborn T v rest w w' := by
  unfold constructFrom
  rw [hs.length_eq]
  refine (ends_setNull_stores h).bind fun _ t ht => ?_
  obtain ⟨hst, hnull, hb, hplace⟩ := ht
  refine (ends_reserveFirst hst hnull hb (hplace.fits hfits)).bind fun _ u hu => ?_
  obtain ⟨p, cap, hheld, hle, hb'⟩ := hu
  apply ends_get_bind
  rw [hheld.vec_eq]
  refine (ends_copyFirst hheld hs hle).bind fun _ u' hu' => ?_
  obtain ⟨hfilled, hsame⟩ := hu'
  refine hfilled.ends_finishAt.bind fun _ u'' hu'' => ?_
  exact hu''.1.ends_born ((hb'.trans (beside_of_same hsame v)).trans hu''.2.1)

theorem ends_copyConstruct (h : w.Stores T.toElementType rest) (hs : ReadsIn T rest cs (contents T w other)) (hne : other ≠ v)
    (hfits : Fits T w cs.length) :
    (copyConstruct T v other).Ends w (fun _ w' => Born T v rest cs w w') fun _ w' => Unborn T v rest w w' := by
  unfold copyConstruct
  refine (ends_setNull_stores h).bind fun _ t ht => ?_
  obtain ⟨hst, hnull, hb, hplace⟩ := ht
  apply ends_get_bind
  have hsame : contents T t other = contents T w other := by
    unfold contents
    rw [hb.vec_eq other hne]
  dsimp only
  rw [hsame, hs.length_eq]
  refine (ends_reserveFirst hst hnull hb (hplace.fits hfits)).bind fun _ u hu => ?_
  obtain ⟨p, cap, hheld, hle, hb'⟩ := hu
  apply ends_get_bind
  rw [hheld.vec_eq]
  refine ends_fill hheld hs hle fun u' hfilled hsame' => ?_
  refine hfilled.ends_finishAt.bind fun _ u'' hu'' => ?_
  exact hu''.1.ends_born ((hb'.trans (beside_of_same hsame' v)).trans hu''.2.1)

theorem ends_releaseBuffer (h : Contains T w v rest xs) :
    (releaseStorage T v).Ends w (fun _ w' => w'.Stores T.toElementType rest ∧ w'.vec v = .null ∧ Beside v w w') E := by
  unfold releaseStorage
  apply ends_get_bind
  rcases h.cases with ⟨hnull, hst, -⟩ | ⟨p, cap, hheld⟩
  · have hstart : ¬(w.vec v).start ≠ 0 := by
      rw [hnull]
      exact fun hne => hne rfl
    rw [if_neg hstart]
    exact ends_pure ⟨hst, hnull, .refl v w⟩
  · obtain ⟨ys, zs, hst, -⟩ := hheld.stores
    have hstart : (w.vec v).start = p := by rw [hheld.vec_eq]
    rw [hstart, if_pos hheld.ne_zero, hheld.capacity_eq]
    refine (ends_deallocateChars hst rfl).bind fun _ t ht => ?_
    obtain ⟨hst', hs, -⟩ := ht
    apply SharedMemoryVector.ends_setNull
    exact ⟨hst', Function.update_self .., (beside_of_same hs v).trans (beside_update _ _ _)⟩

theorem ends_destruct (h : Contains T w v rest xs) :
    (destruct T v).Ends w
      (fun _ w' => w'.Stores T.toElementType rest ∧ w'.vec = w.vec ∧ w'.names = w.names.erase v) E := by
  unfold destruct
  apply ends_get_bind
  rcases h.cases with ⟨hnull, hst, -⟩ | ⟨p, cap, hheld⟩
  · have hstart : ¬(w.vec v).start ≠ 0 := by
      rw [hnull]
      exact fun hne => hne rfl
    rw [if_neg hstart]
    exact ends_pure_bind (ends_store ⟨hst, rfl, rfl⟩)
  · obtain ⟨ys, zs, hst, -⟩ := hheld.stores
    have hstart : (w.vec v).start = p := by rw [hheld.vec_eq]
    rw [hstart, if_pos hheld.ne_zero, hheld.capacity_eq]
    refine (ends_deallocateChars hst rfl).bind fun _ t ht => ?_
    obtain ⟨hst', hs, -⟩ := ht
    exact ends_store ⟨hst', hs.vec_eq, congrArg (·.erase v) hs.names_eq⟩

/-- The members of `other` become those of `v`, and `other` has none left. -/
theorem ends_takeMembers :
    (SharedMemoryVector.takeFrom v other : StringOp C Unit).Ends w
      (fun _ w' => w' = { w with vec := Function.update (Function.update w.vec v (w.vec other)) other .null }) E := by
  unfold SharedMemoryVector.takeFrom
  apply ends_get_bind
  apply ends_store_bind
  apply SharedMemoryVector.ends_setNull
  rfl

/-! Comparisons. -/

section
variable [LinearOrder C] {ys : List C} {s' : CharSource C}

end

end SharedMemoryString

end ShmNext
