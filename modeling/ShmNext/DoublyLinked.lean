import Mathlib.Data.List.Nodup
import ShmNext.LinkedChain

/-! Stretches of doubly linked nodes over arbitrary link functions. A stretch knows what its first
node points back to and what its last node points on to: null, a sentinel, or its neighbours. -/
namespace ShmNext

/-- Each node links to the one after it, the last one to `e`. -/
def ForwardLinked (next : ℕ → ℕ) (e : ℕ) : List ℕ → Prop
  | [] => True
  | a :: l => next a = l.headD e ∧ ForwardLinked next e l

variable {next next' prev prev' : ℕ → ℕ} {b b' e e' x p : ℕ} {l as bs : List ℕ}

theorem headD_append (as bs : List ℕ) (e : ℕ) : (as ++ bs).headD e = as.headD (bs.headD e) := by
  cases as <;> rfl

theorem headD_mem_or (l : List ℕ) (e : ℕ) : l.headD e ∈ l ∨ l = [] ∧ l.headD e = e := by
  cases l with
  | nil => exact Or.inr ⟨rfl, rfl⟩
  | cons a l => exact Or.inl List.mem_cons_self

/-- The last node of `as ++ x :: bs` is that of `bs`, or `x`. -/
theorem last_append_cons (as bs : List ℕ) (x e : ℕ) : (as ++ x :: bs).reverse.headD e = bs.reverse.headD x := by
  rw [List.reverse_append, List.reverse_cons, List.append_assoc, headD_append]
  rfl

theorem headD_default (h : l ≠ []) (x y : ℕ) : l.headD x = l.headD y := by
  cases l with
  | nil => exact absurd rfl h
  | cons a l => rfl

/-- Whether there is a first node can be told from the last one. -/
theorem headD_of_last (h0 : 0 ∉ l) (x y : ℕ) : (if l.reverse.headD 0 ≠ 0 then l.headD x else y) = l.headD y := by
  rcases headD_mem_or l.reverse 0 with hm | ⟨hnil, hz⟩
  · have hne : l.reverse.headD 0 ≠ 0 := fun hz => h0 (List.mem_reverse.mp (hz ▸ hm))
    rw [if_pos hne]
    cases l with
    | nil => cases hm
    | cons a l => rfl
  · rw [if_neg (not_not.mpr hz), List.reverse_eq_nil_iff.mp hnil]
    rfl

namespace ForwardLinked

theorem append_iff : ForwardLinked next e (as ++ bs) ↔ ForwardLinked next (bs.headD e) as ∧ ForwardLinked next e bs := by
  induction as with
  | nil => exact (true_and _).symm.to_iff
  | cons a as ih =>
    have hcons : ∀ e l, ForwardLinked next e (a :: l) ↔ next a = l.headD e ∧ ForwardLinked next e l := fun _ _ => Iff.rfl
    rw [List.cons_append, hcons, hcons, ih, headD_append, and_assoc]

theorem congr (h : ForwardLinked next e l) (hn : ∀ p ∈ l, next' p = next p) : ForwardLinked next' e l := by
  induction l with
  | nil => trivial
  | cons a l ih =>
    refine ⟨?_, ih h.2 fun p hp => hn p (List.mem_cons_of_mem _ hp)⟩
    rw [hn a List.mem_cons_self]
    exact h.1

/-- What a node in the middle links to. -/
theorem next_eq (h : ForwardLinked next e (as ++ x :: bs)) : next x = bs.headD e := (append_iff.mp h).2.1

/-- The last node links elsewhere, the others as they did. -/
theorem retarget (h : ForwardLinked next e l) (hnd : l.Nodup)
    (hn : ∀ p ∈ l, next' p = if p = l.reverse.headD b then e' else next p) : ForwardLinked next' e' l := by
  rcases List.eq_nil_or_concat l with rfl | ⟨as, z, rfl⟩
  · trivial
  rw [List.concat_eq_append] at h hnd hn ⊢
  have hlast : (as ++ [z]).reverse.headD b = z := last_append_cons as [] z b
  rw [hlast] at hn
  obtain ⟨has, -⟩ := append_iff.mp h
  refine append_iff.mpr ⟨has.congr fun p hp => ?_, ?_, trivial⟩
  · have hne : p ≠ z := fun heq => (List.nodup_append.mp hnd).2.2 p hp z List.mem_cons_self heq
    rw [hn p (List.mem_append_left _ hp), if_neg hne]
  · rw [hn z (List.mem_append_right _ List.mem_cons_self), if_pos rfl]
    rfl

end ForwardLinked

/-- Linked both ways: `b` stands before the first node and `e` after the last. -/
structure DoublyLinked (next prev : ℕ → ℕ) (b e : ℕ) (l : List ℕ) : Prop where
  forward : ForwardLinked next e l
  backward : ForwardLinked prev b l.reverse

namespace DoublyLinked

theorem nil : DoublyLinked next prev b e [] := ⟨trivial, trivial⟩

/-- Seen from the other end. -/
theorem flip (h : DoublyLinked next prev b e l) : DoublyLinked prev next e b l.reverse := by
  refine ⟨h.backward, ?_⟩
  rw [List.reverse_reverse]
  exact h.forward

theorem append_iff : DoublyLinked next prev b e (as ++ bs) ↔
    DoublyLinked next prev b (bs.headD e) as ∧ DoublyLinked next prev (as.reverse.headD b) e bs := by
  constructor
  · rintro ⟨hf, hb⟩
    rw [List.reverse_append] at hb
    obtain ⟨hf1, hf2⟩ := ForwardLinked.append_iff.mp hf
    obtain ⟨hb1, hb2⟩ := ForwardLinked.append_iff.mp hb
    exact ⟨⟨hf1, hb2⟩, ⟨hf2, hb1⟩⟩
  · rintro ⟨⟨hf1, hb2⟩, ⟨hf2, hb1⟩⟩
    refine ⟨ForwardLinked.append_iff.mpr ⟨hf1, hf2⟩, ?_⟩
    rw [List.reverse_append]
    exact ForwardLinked.append_iff.mpr ⟨hb1, hb2⟩

theorem cons_iff : DoublyLinked next prev b e (x :: l) ↔ next x = l.headD e ∧ prev x = b ∧ DoublyLinked next prev x e l := by
  have hsingle : DoublyLinked next prev b (l.headD e) [x] ↔ next x = l.headD e ∧ prev x = b :=
    ⟨fun h => ⟨h.1.1, h.2.1⟩, fun h => ⟨⟨h.1, trivial⟩, ⟨h.2, trivial⟩⟩⟩
  rw [show x :: l = [x] ++ l from rfl, append_iff, hsingle, and_assoc]
  rfl

/-- A node in the middle, and what is on either side of it. -/
theorem middle_iff : DoublyLinked next prev b e (as ++ x :: bs) ↔ DoublyLinked next prev b x as ∧
    next x = bs.headD e ∧ prev x = as.reverse.headD b ∧ DoublyLinked next prev x e bs := by
  rw [append_iff, cons_iff]
  rfl

theorem congr (h : DoublyLinked next prev b e l) (hn : ∀ p ∈ l, next' p = next p) (hp : ∀ p ∈ l, prev' p = prev p) :
    DoublyLinked next' prev' b e l :=
  ⟨h.forward.congr hn, h.backward.congr fun p hm => hp p (List.mem_reverse.mp hm)⟩

/-- Only the link out of the last node changes. -/
theorem retarget_end (h : DoublyLinked next prev b e l) (hnd : l.Nodup)
    (hn : ∀ p ∈ l, next' p = if p = l.reverse.headD b then e' else next p) (hp : ∀ p ∈ l, prev' p = prev p) :
    DoublyLinked next' prev' b e' l :=
  ⟨h.forward.retarget hnd hn, h.backward.congr fun p hm => hp p (List.mem_reverse.mp hm)⟩

/-- Only the link out of the first node changes. -/
theorem retarget_begin (h : DoublyLinked next prev b e l) (hnd : l.Nodup) (hn : ∀ p ∈ l, next' p = next p)
    (hp : ∀ p ∈ l, prev' p = if p = l.headD e then b' else prev p) : DoublyLinked next' prev' b' e l := by
  refine ⟨h.forward.congr hn, h.backward.retarget (b := e) (List.nodup_reverse.mpr hnd) fun p hm => ?_⟩
  rw [List.reverse_reverse]
  exact hp p (List.mem_reverse.mp hm)

/-- One node taken out: its neighbours are linked to each other. -/
theorem remove (h : DoublyLinked next prev b e (as ++ x :: bs)) (hnd : (as ++ x :: bs).Nodup) (hb : b ∉ bs) (he : e ∉ as)
    (hn : ∀ p ∈ as ++ bs, next' p = if p = prev x then next x else next p)
    (hp : ∀ p ∈ as ++ bs, prev' p = if p = next x then prev x else prev p) : DoublyLinked next' prev' b e (as ++ bs) := by
  obtain ⟨ha, hnx, hpx, hbs⟩ := middle_iff.mp h
  obtain ⟨hnda, hndx, hdisj⟩ := List.nodup_append.mp hnd
  obtain ⟨hxbs, hndb⟩ := List.nodup_cons.mp hndx
  rw [hnx, hpx] at hn hp
  refine append_iff.mpr ⟨ha.retarget_end hnda (fun p hm => ?_) fun p hm => ?_, hbs.retarget_begin hndb (fun p hm => ?_) fun p hm => ?_⟩
  · rw [hn p (List.mem_append_left _ hm)]
  · rw [hp p (List.mem_append_left _ hm)]
    refine if_neg fun heq => ?_
    rcases headD_mem_or bs e with hmem | ⟨-, hnil⟩
    · exact hdisj p hm _ (List.mem_cons_of_mem _ hmem) heq
    · exact he (hnil ▸ heq ▸ hm)
  · rw [hn p (List.mem_append_right _ hm)]
    refine if_neg fun heq => ?_
    rcases headD_mem_or as.reverse b with hmem | ⟨-, hnil⟩
    · exact hdisj _ (List.mem_reverse.mp hmem) p (List.mem_cons_of_mem _ hm) heq.symm
    · exact hb (hnil ▸ heq ▸ hm)
  · exact hp p (List.mem_append_right _ hm)

/-- One node put in: it is linked to its neighbours and they to it. -/
theorem insert (h : DoublyLinked next prev b e (as ++ bs)) (hnd : (as ++ bs).Nodup) (hb : b ∉ bs) (he : e ∉ as)
    (hn : ∀ p ∈ as ++ bs, next' p = if p = as.reverse.headD b then x else next p)
    (hp : ∀ p ∈ as ++ bs, prev' p = if p = bs.headD e then x else prev p)
    (hnx : next' x = bs.headD e) (hpx : prev' x = as.reverse.headD b) : DoublyLinked next' prev' b e (as ++ x :: bs) := by
  obtain ⟨ha, hbs⟩ := append_iff.mp h
  obtain ⟨hnda, hndb, hdisj⟩ := List.nodup_append.mp hnd
  refine middle_iff.mpr ⟨ha.retarget_end hnda (fun p hm => hn p (List.mem_append_left _ hm)) fun p hm => ?_, hnx, hpx,
    hbs.retarget_begin hndb (fun p hm => ?_) fun p hm => hp p (List.mem_append_right _ hm)⟩
  · rw [hp p (List.mem_append_left _ hm)]
    refine if_neg fun heq => ?_
    rcases headD_mem_or bs e with hmem | ⟨-, hnil⟩
    · exact hdisj p hm _ hmem heq
    · exact he (hnil ▸ heq ▸ hm)
  · rw [hn p (List.mem_append_right _ hm)]
    refine if_neg fun heq => ?_
    rcases headD_mem_or as.reverse b with hmem | ⟨-, hnil⟩
    · exact hdisj _ (List.mem_reverse.mp hmem) p hm heq.symm
    · exact hb (hnil ▸ heq ▸ hm)

end DoublyLinked

end ShmNext
