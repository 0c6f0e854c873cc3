import Mathlib.Data.List.Basic
import Mathlib.Logic.Function.Basic
import Mathlib.Data.List.Nodup

/-! Object lifetimes: which object is alive at an address, which construction made it, and
which objects have been destroyed. Storage of equal slots is described by a list of objects. -/
namespace ShmNext

/-- The objects alive by address, each with the number of the construction that made it. `made`
counts the constructions that went through, `calls` also those that threw. -/
structure Objects (V : Type) where
  slot : ℕ → Option (ℕ × V)
  made : ℕ
  ended : List ℕ
  calls : ℕ

namespace Objects
variable {V : Type} {o : Objects V} {p q : ℕ} {v : V}

def empty : Objects V := ⟨fun _ => none, 0, [], 0⟩

def insert (o : Objects V) (p : ℕ) (v : V) : Objects V :=
  ⟨Function.update o.slot p (some (o.made, v)), o.made+1, o.ended, o.calls+1⟩

/-- A constructor that throws makes no object. -/
def throwing (o : Objects V) : Objects V := { o with calls := o.calls+1 }

def remove (o : Objects V) (p : ℕ) : Objects V :=
  { o with
    slot := Function.update o.slot p none
    ended := ((o.slot p).map Prod.fst).toList ++ o.ended }

/-- Assignment gives an object another value; it stays the same object. -/
def assign (o : Objects V) (p : ℕ) (v : V) : Objects V :=
  { o with slot := Function.update o.slot p ((o.slot p).map fun y => (y.1, v)) }

@[simp] theorem insert_slot (o : Objects V) (p : ℕ) (v : V) :
    (o.insert p v).slot = Function.update o.slot p (some (o.made, v)) := rfl

@[simp] theorem remove_slot (o : Objects V) (p : ℕ) : (o.remove p).slot = Function.update o.slot p none := rfl

@[simp] theorem assign_slot (o : Objects V) (p : ℕ) (v : V) :
    (o.assign p v).slot = Function.update o.slot p ((o.slot p).map fun y => (y.1, v)) := rfl

@[simp] theorem throwing_slot (o : Objects V) : o.throwing.slot = o.slot := rfl

/-- Every construction that went through is alive at one address or has ended once, and not both. -/
structure Accounted (o : Objects V) : Prop where
  alive_made : ∀ p y, o.slot p = some y → y.1 < o.made
  alive_once : ∀ p q y z, o.slot p = some y → o.slot q = some z → y.1 = z.1 → p = q
  alive_not_ended : ∀ p y, o.slot p = some y → y.1 ∉ o.ended
  ended_made : ∀ i ∈ o.ended, i < o.made
  ended_once : o.ended.Nodup
  covered : ∀ i < o.made, i ∈ o.ended ∨ ∃ p y, o.slot p = some y ∧ y.1 = i

theorem accounted_empty : (empty : Objects V).Accounted :=
  ⟨fun _ _ h => (by cases h), fun _ _ _ _ h => (by cases h), fun _ _ h => (by cases h), fun _ h => (by cases h),
    List.nodup_nil, fun _ h => absurd h (Nat.not_lt_zero _)⟩

namespace Accounted

theorem throwing (h : o.Accounted) : o.throwing.Accounted := ⟨h.1, h.2, h.3, h.4, h.5, h.6⟩

theorem insert (h : o.Accounted) (hp : o.slot p = none) (v : V) : (o.insert p v).Accounted := by
  obtain ⟨h1, h2, h3, h4, h5, h6⟩ := h
  -- what is alive is the new object or an older one elsewhere
  have hslot : ∀ q y, (o.insert p v).slot q = some y → q = p ∧ y = (o.made, v) ∨ q ≠ p ∧ o.slot q = some y := by
    intro q y hq
    by_cases hqp : q = p
    · subst hqp
      rw [insert_slot, Function.update_self] at hq
      exact Or.inl ⟨rfl, (Option.some.inj hq).symm⟩
    · rw [insert_slot, Function.update_of_ne hqp] at hq
      exact Or.inr ⟨hqp, hq⟩
  refine ⟨fun q y hq => ?_, fun q r y z hq hr heq => ?_, fun q y hq hm => ?_, fun i hi => ?_, h5, fun i hi => ?_⟩
  · rcases hslot q y hq with ⟨-, rfl⟩ | ⟨-, hq⟩
    · exact Nat.lt_succ_self _
    · exact Nat.lt_succ_of_lt (h1 q y hq)
  · rcases hslot q y hq with ⟨rfl, rfl⟩ | ⟨-, hq'⟩ <;> rcases hslot r z hr with ⟨rfl, rfl⟩ | ⟨-, hr'⟩
    · rfl
    · exact absurd heq (Nat.ne_of_gt (h1 r z hr'))
    · exact absurd heq (Nat.ne_of_lt (h1 q y hq'))
    · exact h2 q r y z hq' hr' heq
  · rcases hslot q y hq with ⟨-, rfl⟩ | ⟨-, hq⟩
    · exact absurd (h4 _ hm) (Nat.lt_irrefl _)
    · exact h3 q y hq hm
  · exact Nat.lt_succ_of_lt (h4 i hi)
  · rcases Nat.lt_succ_iff_lt_or_eq.mp hi with hlt | rfl
    · refine (h6 i hlt).imp_right fun ⟨q, y, hq, hy⟩ => ⟨q, y, ?_, hy⟩
      have hqp : q ≠ p := by
        rintro rfl
        rw [hp] at hq
        cases hq
      exact (Function.update_of_ne hqp _ _).trans hq
    · exact Or.inr ⟨p, _, Function.update_self .., rfl⟩

theorem remove {y : ℕ × V} (h : o.Accounted) (hp : o.slot p = some y) : (o.remove p).Accounted := by
  obtain ⟨h1, h2, h3, h4, h5, h6⟩ := h
  have hended : (o.remove p).ended = y.1 :: o.ended := by
    unfold Objects.remove
    rw [hp]
    rfl
  have hslot : ∀ q z, (o.remove p).slot q = some z → q ≠ p ∧ o.slot q = some z := by
    intro q z hq
    by_cases hqp : q = p
    · subst hqp
      rw [remove_slot, Function.update_self] at hq
      cases hq
    · rw [remove_slot, Function.update_of_ne hqp] at hq
      exact ⟨hqp, hq⟩
  refine ⟨fun q z hq => h1 q z (hslot q z hq).2, fun q r z z' hq hr => h2 q r z z' (hslot q z hq).2 (hslot r z' hr).2,
    fun q z hq hm => ?_, fun i hi => ?_, ?_, fun i hi => ?_⟩
  · obtain ⟨hne, hq⟩ := hslot q z hq
    rw [hended] at hm
    rcases List.mem_cons.mp hm with heq | hm
    · exact hne (h2 q p z y hq hp heq)
    · exact h3 q z hq hm
  · rw [hended] at hi
    rcases List.mem_cons.mp hi with rfl | hi
    · exact h1 p y hp
    · exact h4 i hi
  · rw [hended]
    exact List.nodup_cons.mpr ⟨h3 p y hp, h5⟩
  · rw [hended]
    rcases h6 i hi with hm | ⟨q, z, hq, rfl⟩
    · exact Or.inl (List.mem_cons_of_mem _ hm)
    · by_cases hqp : q = p
      · subst hqp
        obtain rfl := Option.some.inj (hp.symm.trans hq)
        exact Or.inl List.mem_cons_self
      · exact Or.inr ⟨q, z, (Function.update_of_ne hqp _ _).trans hq, rfl⟩

theorem assign (h : o.Accounted) (p : ℕ) (v : V) : (o.assign p v).Accounted := by
  obtain ⟨h1, h2, h3, h4, h5, h6⟩ := h
  have hslot : ∀ q z, (o.assign p v).slot q = some z → ∃ y, o.slot q = some y ∧ y.1 = z.1 := by
    intro q z hq
    by_cases hqp : q = p
    · subst hqp
      rw [assign_slot, Function.update_self] at hq
      obtain ⟨y, hy, rfl⟩ := Option.map_eq_some_iff.mp hq
      exact ⟨y, hy, rfl⟩
    · rw [assign_slot, Function.update_of_ne hqp] at hq
      exact ⟨z, hq, rfl⟩
  refine ⟨fun q z hq => ?_, fun q r z z' hq hr heq => ?_, fun q z hq => ?_, h4, h5, fun i hi => ?_⟩
  · obtain ⟨y, hy, he⟩ := hslot q z hq
    exact he ▸ h1 q y hy
  · obtain ⟨y, hy, he⟩ := hslot q z hq
    obtain ⟨y', hy', he'⟩ := hslot r z' hr
    exact h2 q r y y' hy hy' (by rw [he, he', heq])
  · obtain ⟨y, hy, he⟩ := hslot q z hq
    exact he ▸ h3 q y hy
  · refine (h6 i hi).imp_right fun ⟨q, y, hq, hy⟩ => ?_
    by_cases hqp : q = p
    · subst hqp
      exact ⟨q, (y.1, v), (Function.update_self ..).trans (by rw [hq]; rfl), hy⟩
    · exact ⟨q, y, (Function.update_of_ne hqp _ _).trans hq, hy⟩

end Accounted

/-- The objects that live on where storage changes from `m` to `m'`: those whose bytes are the same. -/
def surviving {B : Type} [DecidableEq B] (o : Objects V) (sizeofV : ℕ) (m m' : ℕ → B) : Objects V :=
  { o with slot := fun q => if ∀ i < sizeofV, m' (q+i) = m (q+i) then o.slot q else none }

theorem surviving_eq {B : Type} [DecidableEq B] {sizeofV : ℕ} {m m' : ℕ → B}
    (h : ∀ q y, o.slot q = some y → ∀ i < sizeofV, m' (q+i) = m (q+i)) : o.surviving sizeofV m m' = o := by
  unfold surviving
  have hslot : (fun q => if ∀ i < sizeofV, m' (q+i) = m (q+i) then o.slot q else none) = o.slot := by
    funext q
    cases hq : o.slot q with
    | none => exact ite_self _
    | some y => exact if_pos (h q y hq)
  rw [hslot]

end Objects

/-! Slots of `k` bytes from `base` on. -/

section
variable {Y : Type} {slot slot' : ℕ → Option Y} {base bytes k n q : ℕ} {ys zs : List Y} {z : Option Y}

/-- What a row of slots holding `ys` has at `q`. -/
def cellAt (base k : ℕ) (ys : List Y) (q : ℕ) : Option Y :=
  if base ≤ q ∧ (q-base)%k = 0 then ys[(q-base)/k]? else none

theorem cellAt_slot (hk : 0 < k) (n : ℕ) : cellAt base k ys (base+n*k) = ys[n]? := by
  unfold cellAt
  rw [Nat.add_sub_cancel_left, if_pos ⟨Nat.le_add_right _ _, Nat.mul_mod_left _ _⟩, Nat.mul_div_cancel _ hk]

theorem cellAt_between (h : ∀ n, q ≠ base+n*k) : cellAt base k ys q = none := by
  unfold cellAt
  refine if_neg fun ⟨h1, h2⟩ => h ((q-base)/k) ?_
  rw [Nat.div_mul_cancel (Nat.dvd_of_mod_eq_zero h2)]
  omega

theorem cellAt_some {y : Y} (h : cellAt base k ys q = some y) : ∃ n, q = base+n*k ∧ ys[n]? = some y := by
  unfold cellAt at h
  split at h
  · rename_i hq
    refine ⟨(q-base)/k, ?_, h⟩
    rw [Nat.div_mul_cancel (Nat.dvd_of_mod_eq_zero hq.2)]
    omega
  · cases h

theorem cellAt_beyond (hk : 0 < k) (h : base+ys.length*k ≤ q) : cellAt base k ys q = none := by
  by_contra hcon
  obtain ⟨y, hy⟩ := Option.ne_none_iff_exists'.mp hcon
  obtain ⟨n, rfl, hn⟩ := cellAt_some hy
  have hlt : n+1 ≤ ys.length := (List.getElem?_eq_some_iff.mp hn).1
  have hmul := Nat.mul_le_mul_right k hlt
  rw [Nat.succ_mul] at hmul
  omega

/-- The bytes from `base` hold the objects `ys`, one after the other, and no others. -/
def Filled (slot : ℕ → Option Y) (base bytes k : ℕ) (ys : List Y) : Prop :=
  ∀ q, base ≤ q → q < base+bytes → slot q = cellAt base k ys q

theorem Filled.slot_eq (h : Filled slot base bytes k ys) (hk : 0 < k) (hn : n*k < bytes) : slot (base+n*k) = ys[n]? :=
  (h _ (Nat.le_add_right _ _) (by omega)).trans (cellAt_slot hk n)

theorem Filled.congr (h : Filled slot base bytes k ys) (heq : ∀ q, base ≤ q → q < base+bytes → slot' q = slot q) :
    Filled slot' base bytes k ys := fun q h1 h2 => (heq q h1 h2).trans (h q h1 h2)

/-- One slot of the row is written. -/
theorem Filled.update (h : Filled slot base bytes k ys) (hk : 0 < k) (hz : ∀ j, zs[j]? = if j = n then z else ys[j]?) :
    Filled (Function.update slot (base+n*k) z) base bytes k zs := by
  intro q h1 h2
  by_cases hq : q = base+n*k
  · subst hq
    rw [Function.update_self, cellAt_slot hk, hz, if_pos rfl]
  rw [Function.update_of_ne hq, h q h1 h2]
  by_cases hrow : ∃ j, q = base+j*k
  · obtain ⟨j, rfl⟩ := hrow
    rw [cellAt_slot hk, cellAt_slot hk, hz, if_neg fun hj => hq (by rw [hj])]
  · rw [cellAt_between fun j hj => hrow ⟨j, hj⟩, cellAt_between fun j hj => hrow ⟨j, hj⟩]

theorem getElem?_push (ys : List Y) (y : Y) (j : ℕ) : (ys ++ [y])[j]? = if j = ys.length then some y else ys[j]? := by
  rcases Nat.lt_trichotomy j ys.length with hlt | rfl | hgt
  · rw [if_neg (by omega), List.getElem?_append_left hlt]
  · rw [if_pos rfl, List.getElem?_append_right (Nat.le_refl _), Nat.sub_self]
    rfl
  · rw [if_neg (by omega), List.getElem?_eq_none (by rw [List.length_append, List.length_singleton]; omega),
      List.getElem?_eq_none (by omega)]

theorem getElem?_pop (ys : List Y) (y : Y) (j : ℕ) : ys[j]? = if j = ys.length then none else (ys ++ [y])[j]? := by
  rw [getElem?_push]
  by_cases hj : j = ys.length
  · rw [if_pos hj, hj, List.getElem?_eq_none (Nat.le_refl _)]
  · rw [if_neg hj, if_neg hj]

end

end ShmNext
