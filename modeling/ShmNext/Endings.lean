import ShmNext.StoreProgram

/-! Programs that come back: each ends by returning or by throwing, and what holds then. -/
namespace ShmNext

namespace Prog
variable {σ ε α β : Type}

/-- From `s`, `p` comes back: it returns with `Q`, or throws with `E`. -/
def Ends (p : Prog σ ε α) (s : σ) (Q : α → σ → Prop) (E : ε → σ → Prop) : Prop :=
  match p.run s with
  | (.ok a, s') => Q a s'
  | (.error e, s') => E e s'
  | (.hang, _) => False

variable {p : Prog σ ε α} {s : σ} {Q R : α → σ → Prop} {E F : ε → σ → Prop}

theorem ends_pure {a : α} (h : Q a s) : (pure a : Prog σ ε α).Ends s Q E := h

theorem ends_throw {e : ε} (h : E e s) : (throw e : Prog σ ε α).Ends s Q E := h

theorem ends_store {f : σ → σ} {Q : Unit → σ → Prop} (h : Q () (f s)) : (store f : Prog σ ε Unit).Ends s Q E := h

theorem ends_pure_bind {a : α} {f : α → Prog σ ε β} {Q : β → σ → Prop} (h : (f a).Ends s Q E) :
    (pure a >>= f).Ends s Q E := h

theorem ends_get_bind {f : σ → Prog σ ε β} {Q : β → σ → Prop} (h : (f s).Ends s Q E) : (get >>= f).Ends s Q E := h

theorem ends_store_bind {f : σ → σ} {k : Unit → Prog σ ε α} (h : (k ()).Ends (f s) Q E) : (store f >>= k).Ends s Q E := h

theorem Ends.cases (h : p.Ends s Q E) :
    (∃ a s', p.run s = (.ok a, s') ∧ Q a s') ∨ ∃ e s', p.run s = (.error e, s') ∧ E e s' := by
  unfold Ends at h
  rcases hr : p.run s with ⟨a | e | _, s'⟩ <;> rw [hr] at h
  · exact Or.inl ⟨a, s', rfl, h⟩
  · exact Or.inr ⟨e, s', rfl, h⟩
  · exact h.elim

theorem ends_of_ok {a : α} {s' : σ} (hr : p.run s = (.ok a, s')) (h : Q a s') : p.Ends s Q E := by
  unfold Ends
  rw [hr]
  exact h

theorem ends_of_error {e : ε} {s' : σ} (hr : p.run s = (.error e, s')) (h : E e s') : p.Ends s Q E := by
  unfold Ends
  rw [hr]
  exact h

theorem Ends.bind {f : α → Prog σ ε β} {R : β → σ → Prop} (hp : p.Ends s Q E)
    (hf : ∀ a s', Q a s' → (f a).Ends s' R E) : (p >>= f).Ends s R E := by
  rcases hp.cases with ⟨a, s', hr, hq⟩ | ⟨e, s', hr, he⟩
  · have h := hf a s' hq
    unfold Ends at h ⊢
    rwa [run_bind_ok hr f]
  · exact ends_of_error (run_bind_error hr f) he

theorem Ends.mono (hp : p.Ends s Q E) (hq : ∀ a s', Q a s' → R a s') (he : ∀ e s', E e s' → F e s') : p.Ends s R F := by
  rcases hp.cases with ⟨a, s', hr, h⟩ | ⟨e, s', hr, h⟩
  · exact ends_of_ok hr (hq a s' h)
  · exact ends_of_error hr (he e s' h)

/-- Two things that hold of the same program. -/
theorem Ends.and (hp : p.Ends s Q E) (hp' : p.Ends s R F) : p.Ends s (fun a s' => Q a s' ∧ R a s') fun e s' => E e s' ∧ F e s' := by
  rcases hp.cases with ⟨a, s', hr, h⟩ | ⟨e, s', hr, h⟩
  · unfold Ends at hp'
    rw [hr] at hp'
    exact ends_of_ok hr ⟨h, hp'⟩
  · unfold Ends at hp'
    rw [hr] at hp'
    exact ends_of_error hr ⟨h, hp'⟩

/-- What is known of a return includes the run itself. -/
theorem Ends.with_run (hp : p.Ends s Q E) : p.Ends s (fun a s' => Q a s' ∧ p.run s = (.ok a, s')) E := by
  rcases hp.cases with ⟨a, s', hr, h⟩ | ⟨e, s', hr, h⟩
  · exact ends_of_ok hr ⟨h, hr⟩
  · exact ends_of_error hr h

/-- The same of a throw. -/
theorem Ends.with_error (hp : p.Ends s Q E) : p.Ends s Q fun e s' => E e s' ∧ p.run s = (.error e, s') := by
  rcases hp.cases with ⟨a, s', hr, h⟩ | ⟨e, s', hr, h⟩
  · exact ends_of_ok hr h
  · exact ends_of_error hr ⟨h, hr⟩

/-- What follows an `attempt`, by what has come of it. -/
theorem Ends.attempt_bind {k : Except ε α → Prog σ ε β} {R : β → σ → Prop} (hp : p.Ends s Q E)
    (he : ∀ e s', E e s' → (k (.error e)).Ends s' R F) (hq : ∀ a s', Q a s' → (k (.ok a)).Ends s' R F) :
    (p.attempt >>= k).Ends s R F := by
  unfold Ends
  rcases hp.cases with ⟨a, s', hr, h⟩ | ⟨e, s', hr, h⟩
  · have hattempt : p.attempt.run s = (.ok (.ok a), s') := by rw [run_attempt, hr]
    rw [run_bind_ok hattempt]
    exact hq a s' h
  · have hattempt : p.attempt.run s = (.ok (.error e), s') := by rw [run_attempt, hr]
    rw [run_bind_ok hattempt]
    exact he e s' h

/-- `for (; i < from+left; ++i) body(i)` in a `try` block whose `catch (...)` runs `handler(i)` and throws on. -/
def tryLoop (body handler : ℕ → Prog σ ε Unit) : ℕ → ℕ → Prog σ ε Unit
  | _, 0 => pure ()
  | i, left+1 => do
    match ← (body i).attempt with
    | .ok () => tryLoop body handler (i+1) left
    | .error e =>
      handler i
      throw e

/-- The loop rule: `I` holds before each round, `J` where a round has thrown. -/
theorem ends_tryLoop_throws {body handler : ℕ → Prog σ ε Unit} {I : ℕ → σ → Prop} {J : ℕ → ε → σ → Prop} {E : ε → σ → Prop} {i left : ℕ}
    (hbody : ∀ j t, i ≤ j → j < i+left → I j t → (body j).Ends t (fun _ t' => I (j+1) t') (J j))
    (hhandler : ∀ j t e, i ≤ j → j < i+left → J j e t → (handler j).Ends t (fun _ t' => E e t') E) (h : I i s) :
    (tryLoop body handler i left).Ends s (fun _ t => I (i+left) t) E := by
  induction left generalizing i s with
  | zero => exact h
  | succ left ih =>
    unfold tryLoop
    refine (hbody i s (Nat.le_refl _) (by omega) h).attempt_bind (fun e t ht => ?_) fun _ t ht => ?_
    · exact (hhandler i t e (Nat.le_refl _) (by omega) ht).bind fun _ t' ht' => ends_throw ht'
    · have hrest := ih (i := i+1) (s := t) (fun j t' h1 h2 => hbody j t' (by omega) (by omega))
        (fun j t' e' h1 h2 => hhandler j t' e' (by omega) (by omega)) ht
      rwa [show i+1+left = i+(left+1) from by omega] at hrest

/-- Where what is thrown does not matter. -/
theorem ends_tryLoop {body handler : ℕ → Prog σ ε Unit} {I J : ℕ → σ → Prop} {E : ε → σ → Prop} {i left : ℕ}
    (hbody : ∀ j t, i ≤ j → j < i+left → I j t → (body j).Ends t (fun _ t' => I (j+1) t') fun _ t' => J j t')
    (hhandler : ∀ j t e, i ≤ j → j < i+left → J j t → (handler j).Ends t (fun _ t' => E e t') E) (h : I i s) :
    (tryLoop body handler i left).Ends s (fun _ t => I (i+left) t) E := ends_tryLoop_throws hbody hhandler h

/-- From `s`, `p` does not come back. -/
def Hangs (p : Prog σ ε α) (s : σ) : Prop := (p.run s).1 = .hang

theorem Hangs.not_ends (h : p.Hangs s) : ¬p.Ends s Q E := by
  intro he
  unfold Hangs at h
  rcases he.cases with ⟨a, s', hr, -⟩ | ⟨e, s', hr, -⟩
  · rw [hr] at h
    cases h
  · rw [hr] at h
    cases h

theorem Hangs.bind (h : p.Hangs s) (f : α → Prog σ ε β) : (p >>= f).Hangs s := by
  unfold Hangs at h ⊢
  rw [run_bind]
  generalize p.run s = r at h ⊢
  obtain ⟨r, s'⟩ := r
  subst h
  rfl

theorem hangs_get_bind {f : σ → Prog σ ε β} (h : (f s).Hangs s) : (get >>= f).Hangs s := h

theorem hangs_pure_bind {a : α} {f : α → Prog σ ε β} (h : (f a).Hangs s) : (pure a >>= f).Hangs s := h

/-- `p` returns, and what comes after it does not come back. -/
theorem Ends.bind_hangs {f : α → Prog σ ε β} (hp : p.Ends s Q fun _ _ => False) (hf : ∀ a s', Q a s' → (f a).Hangs s') :
    (p >>= f).Hangs s := by
  rcases hp.cases with ⟨a, s', hr, hq⟩ | ⟨_, _, _, he⟩
  · unfold Hangs
    rw [run_bind_ok hr]
    exact hf a s' hq
  · exact he.elim

theorem hangs_tryLoop {body handler : ℕ → Prog σ ε Unit} {i left : ℕ} (hleft : 0 < left) (h : (body i).Hangs s) :
    (tryLoop body handler i left).Hangs s := by
  obtain ⟨left, rfl⟩ := Nat.exists_eq_succ_of_ne_zero (Nat.pos_iff_ne_zero.mp hleft)
  unfold tryLoop
  apply Hangs.bind
  unfold Hangs at h ⊢
  rw [run_attempt]
  generalize (body i).run s = r at h ⊢
  obtain ⟨r, s'⟩ := r
  subst h
  rfl

end Prog

end ShmNext
