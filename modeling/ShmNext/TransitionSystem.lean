import Mathlib.Data.Fintype.Card
import Mathlib.Algebra.BigOperators.Group.Finset.Piecewise

/-! Transition systems over an arbitrary state type, their reachable states, and counting the
processes of a finite family whose local state satisfies a predicate. -/
namespace ShmNext

structure TransitionSystem (σ : Type*) where
  init : σ → Prop
  step : σ → σ → Prop

namespace TransitionSystem
variable {σ : Type*} {T : TransitionSystem σ}

inductive Reachable (T : TransitionSystem σ) : σ → Prop
  | init {s : σ} (h : T.init s) : Reachable T s
  | step {s s' : σ} (h : Reachable T s) (hstep : T.step s s') : Reachable T s'

/-- What holds at the start and is kept by every step holds in every reachable state. -/
theorem Reachable.invariant {I : σ → Prop} {s : σ} (h : T.Reachable s) (hinit : ∀ s, T.init s → I s)
    (hstep : ∀ s s', I s → T.step s s' → I s') : I s := by
  induction h with
  | init h => exact hinit _ h
  | step _ hs ih => exact hstep _ _ ih hs

end TransitionSystem

section Population
variable {P L : Type*} [Fintype P]

/-- How many processes have a local state that satisfies `A`. -/
def population (A : L → Prop) [DecidablePred A] (pc : P → L) : ℕ := (Finset.univ.filter fun p => A (pc p)).card

variable {A : L → Prop} [DecidablePred A] {pc : P → L} {p : P} {v : L}

/-- One process moves: its old place is given up, its new one taken. -/
theorem population_update [DecidableEq P] : population A (Function.update pc p v)+(if A (pc p) then 1 else 0) =
    population A pc+(if A v then 1 else 0) := by
  have hsplit : ∀ f : P → L, population A f =
      (if A (f p) then 1 else 0)+((Finset.univ.erase p).filter fun q => A (f q)).card := by
    intro f
    unfold population
    rw [Finset.card_filter, Finset.card_filter, ← Finset.add_sum_erase _ _ (Finset.mem_univ p)]
  have hrest : ((Finset.univ.erase p).filter fun q => A (Function.update pc p v q)) =
      (Finset.univ.erase p).filter fun q => A (pc q) := by
    refine Finset.filter_congr fun q hq => ?_
    rw [Function.update_of_ne (Finset.ne_of_mem_erase hq)]
  rw [hsplit, hsplit pc, hrest, Function.update_self]
  omega

end Population

end ShmNext
