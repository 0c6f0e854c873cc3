import Mathlib.Data.List.Basic
import Mathlib.Data.Nat.Notation
import Mathlib.Logic.Function.Basic

/-! Null-terminated singly linked chains over an arbitrary link function, and the
one loop that walks them. Null is `0`. -/
namespace ShmNext

/-- Following `next` from `head` visits exactly `as`, in order, and then ends. -/
def LinkedFrom (next : ℕ → ℕ) : ℕ → List ℕ → Prop
  | head, [] => head = 0
  | head, a :: as => head = a ∧ a ≠ 0 ∧ LinkedFrom next (next a) as

/-- `while (curr != null && !stop(curr)) { prev = curr; curr = curr->next; }`,
answering the last `prev` and `curr`; `none` when the loop does not end in time. -/
def scanChain (next : ℕ → ℕ) (stop : ℕ → Bool) : ℕ → ℕ → ℕ → Option (ℕ × ℕ)
  | fuel, prev, curr =>
    if curr = 0 then some (prev, 0)
    else if stop curr then some (prev, curr)
    else match fuel with
      | 0 => none
      | fuel+1 => scanChain next stop fuel curr (next curr)

namespace LinkedFrom
variable {next next' : ℕ → ℕ} {head : ℕ} {as bs : List ℕ}

@[simp] theorem nil_iff : LinkedFrom next head [] ↔ head = 0 := Iff.rfl

@[simp] theorem cons_iff {a : ℕ} : LinkedFrom next head (a :: as) ↔
    head = a ∧ a ≠ 0 ∧ LinkedFrom next (next a) as := Iff.rfl

theorem head_eq (h : LinkedFrom next head as) : head = as.headD 0 := by
  cases as with
  | nil => exact h
  | cons a as => exact h.1

theorem ne_zero (h : LinkedFrom next head as) : ∀ a ∈ as, a ≠ 0 := by
  induction as generalizing head with
  | nil => simp
  | cons a as ih =>
    intro b hb
    rcases List.mem_cons.mp hb with rfl | hb
    · exact h.2.1
    · exact ih h.2.2 b hb

theorem congr (h : LinkedFrom next head as) (hn : ∀ a ∈ as, next' a = next a) :
    LinkedFrom next' head as := by
  induction as generalizing head with
  | nil => exact h
  | cons a as ih =>
    refine ⟨h.1, h.2.1, ?_⟩
    rw [hn a List.mem_cons_self]
    exact ih h.2.2 (fun b hb => hn b (List.mem_cons_of_mem _ hb))

theorem unique (h : LinkedFrom next head as) (h' : LinkedFrom next head bs) : as = bs := by
  induction as generalizing head bs with
  | nil =>
    cases bs with
    | nil => rfl
    | cons b bs => exact absurd (h'.1.symm.trans h) h'.2.1
  | cons a as ih =>
    cases bs with
    | nil => exact absurd (h.1.symm.trans h') h.2.1
    | cons b bs =>
      have hab : a = b := h.1.symm.trans h'.1
      subst hab
      rw [ih h.2.2 h'.2.2]

theorem append_iff {xs ys : List ℕ} : LinkedFrom next head (xs ++ ys) ↔
    ∃ mid, (∀ as, LinkedFrom next mid as → LinkedFrom next head (xs ++ as)) ∧ LinkedFrom next mid ys := by
  induction xs generalizing head with
  | nil =>
    constructor
    · intro h; exact ⟨head, fun _ h => h, h⟩
    · rintro ⟨mid, hx, hy⟩; exact hx ys hy
  | cons a xs ih =>
    constructor
    · rintro ⟨rfl, h0, h⟩
      obtain ⟨mid, hx, hy⟩ := ih.mp h
      exact ⟨mid, fun as has => ⟨rfl, h0, hx as has⟩, hy⟩
    · rintro ⟨mid, hx, hy⟩
      exact hx ys hy

/-- The rest of a chain is the chain from the link of its last node. -/
theorem drop_append {xs ys : List ℕ} {p : ℕ} (h : LinkedFrom next head (xs ++ p :: ys)) :
    LinkedFrom next (next p) ys := by
  obtain ⟨mid, _, hy⟩ := append_iff.mp h
  exact hy.2.2

/-- A chain that ends visits no node twice: after the second visit it would go on as after the first. -/
theorem nodup (h : LinkedFrom next head as) : as.Nodup := by
  induction as generalizing head with
  | nil => exact List.nodup_nil
  | cons a as ih =>
    refine List.nodup_cons.mpr ⟨?_, ih h.2.2⟩
    intro ha
    obtain ⟨xs, ys, rfl⟩ := List.append_of_mem ha
    have hl := congrArg List.length (unique h.2.2 (drop_append h.2.2))
    simp only [List.length_append, List.length_cons] at hl
    omega

/-- Relinking the last node of the front part to another chain. -/
theorem relink {xs ys zs : List ℕ} {p : ℕ} (h : LinkedFrom next head (xs ++ p :: ys))
    (hx : ∀ a ∈ xs, next' a = next a) (hz : LinkedFrom next' (next' p) zs) :
    LinkedFrom next' head (xs ++ p :: zs) := by
  induction xs generalizing head with
  | nil => exact ⟨h.1, h.2.1, hz⟩
  | cons a xs ih =>
    refine ⟨h.1, h.2.1, ?_⟩
    rw [hx a List.mem_cons_self]
    exact ih h.2.2 (fun b hb => hx b (List.mem_cons_of_mem _ hb))

/-- What the loop answers on a chain of nodes `f b`: the last node of the part `p`
lets pass, and the first of the rest. -/
theorem scan {β : Type} {f : β → ℕ} {l : List β} {stop : ℕ → Bool} {p : β → Bool}
    (h : LinkedFrom next head (l.map f)) (hp : ∀ b ∈ l, stop (f b) = !p b) (prev fuel : ℕ)
    (hf : l.length ≤ fuel) :
    scanChain next stop fuel prev head =
      some ((prev :: (l.takeWhile p).map f).getLast (List.cons_ne_nil _ _),
        ((l.dropWhile p).map f).headD 0) := by
  induction l generalizing head prev fuel with
  | nil =>
    rw [nil_iff.mp h]
    unfold scanChain
    simp
  | cons b l ih =>
    obtain ⟨rfl, h0, ht⟩ := h
    unfold scanChain
    rw [if_neg h0, hp b List.mem_cons_self]
    cases hpb : p b with
    | false => simp [hpb]
    | true =>
      obtain ⟨n, rfl⟩ : ∃ n, fuel = n+1 := ⟨fuel-1, by simp only [List.length_cons] at hf; omega⟩
      have hr := ih ht (fun c hc => hp c (List.mem_cons_of_mem _ hc)) (f b) n (by simpa using hf)
      simp [hpb, hr]

end LinkedFrom

end ShmNext
