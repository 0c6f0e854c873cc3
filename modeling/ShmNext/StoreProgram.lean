import Mathlib.Data.List.Basic

/-! Programs made of reads and atomic stores. A program has a run, and a trace
of the states its stores leave behind: what a writer that dies can leave is the
initial state or a state of the trace. -/
namespace ShmNext

inductive Outcome (ε α : Type) where
  | ok (a : α)
  | error (e : ε)
  | hang
  deriving DecidableEq, Repr

/-- `read` looks at the whole state; `write` is one store. -/
inductive Prog (σ ε α : Type) where
  | ret (a : α)
  | throw (e : ε)
  | hang
  | read (k : σ → Prog σ ε α)
  | write (f : σ → σ) (k : Prog σ ε α)

namespace Prog
variable {σ τ ε α β : Type}

def bind : Prog σ ε α → (α → Prog σ ε β) → Prog σ ε β
  | ret a, f => f a
  | throw e, _ => throw e
  | hang, _ => hang
  | read k, f => read fun s => (k s).bind f
  | write g k, f => write g (k.bind f)

instance : Monad (Prog σ ε) where
  pure := ret
  bind := bind

def get : Prog σ ε σ := read ret

def store (f : σ → σ) : Prog σ ε Unit := write f (ret ())

/-- Turns a thrown error into a value; a loop that never ends is not caught. -/
def attempt : Prog σ ε α → Prog σ ε (Except ε α)
  | ret a => ret (.ok a)
  | throw e => ret (.error e)
  | hang => hang
  | read k => read fun s => (k s).attempt
  | write f k => write f k.attempt

def run : Prog σ ε α → σ → Outcome ε α × σ
  | ret a, s => (.ok a, s)
  | throw e, s => (.error e, s)
  | hang, s => (.hang, s)
  | read k, s => (k s).run s
  | write f k, s => k.run (f s)

/-- The states after each store, in program order. -/
def trace : Prog σ ε α → σ → List σ
  | ret _, _ => []
  | throw _, _ => []
  | hang, _ => []
  | read k, s => (k s).trace s
  | write f k, s => f s :: k.trace (f s)

/-- What an executor that dies during the program can leave. -/
def Crash (p : Prog σ ε α) (s c : σ) : Prop := c ∈ s :: p.trace s

@[simp] theorem run_pure (a : α) (s : σ) : (pure a : Prog σ ε α).run s = (.ok a, s) := rfl

@[simp] theorem run_get (s : σ) : (get : Prog σ ε σ).run s = (.ok s, s) := rfl

@[simp] theorem run_store (f : σ → σ) (s : σ) : (store f : Prog σ ε Unit).run s = (.ok (), f s) := rfl

@[simp] theorem run_throw (e : ε) (s : σ) : (throw e : Prog σ ε α).run s = (.error e, s) := rfl

@[simp] theorem run_hang (s : σ) : (hang : Prog σ ε α).run s = (.hang, s) := rfl

theorem run_bind (p : Prog σ ε α) (f : α → Prog σ ε β) (s : σ) :
    (p >>= f).run s = match p.run s with
      | (.ok a, s') => (f a).run s'
      | (.error e, s') => (.error e, s')
      | (.hang, s') => (.hang, s') := by
  change (p.bind f).run s = _
  induction p generalizing s with
  | ret a => rfl
  | throw e => rfl
  | hang => rfl
  | read k ih => exact ih s s
  | write g k ih => exact ih (g s)

theorem run_bind_ok {p : Prog σ ε α} {s s' : σ} {a : α} (h : p.run s = (.ok a, s'))
    (f : α → Prog σ ε β) : (p >>= f).run s = (f a).run s' := by
  rw [run_bind, h]

theorem run_bind_error {p : Prog σ ε α} {s s' : σ} {e : ε} (h : p.run s = (.error e, s'))
    (f : α → Prog σ ε β) : (p >>= f).run s = (.error e, s') := by
  rw [run_bind, h]

/-- The state after a sequence is that after its first part, or what the second part has made of it. -/
theorem snd_run_bind (p : Prog σ ε α) (f : α → Prog σ ε β) (s : σ) :
    ((p >>= f).run s).2 = (p.run s).2 ∨ ∃ a, ((p >>= f).run s).2 = ((f a).run (p.run s).2).2 := by
  rw [run_bind]
  rcases p.run s with ⟨a | e | _, c⟩
  · exact Or.inr ⟨a, rfl⟩
  · exact Or.inl rfl
  · exact Or.inl rfl

theorem run_read (k : σ → Prog σ ε α) (s : σ) : (read k).run s = (k s).run s := rfl

theorem run_read_bind (k : σ → Prog σ ε α) (f : α → Prog σ ε β) (s : σ) : (read k >>= f).run s = (k s >>= f).run s := rfl

@[simp] theorem run_get_bind (f : σ → Prog σ ε β) (s : σ) : (get >>= f).run s = (f s).run s := rfl

@[simp] theorem run_store_bind (g : σ → σ) (f : Unit → Prog σ ε β) (s : σ) :
    (store g >>= f).run s = (f ()).run (g s) := rfl

theorem trace_bind (p : Prog σ ε α) (f : α → Prog σ ε β) (s : σ) :
    (p >>= f).trace s = p.trace s ++ match p.run s with
      | (.ok a, s') => (f a).trace s'
      | _ => [] := by
  change (p.bind f).trace s = _
  induction p generalizing s with
  | ret a => rfl
  | throw e => rfl
  | hang => rfl
  | read k ih => exact ih s s
  | write g k ih => exact congrArg (g s :: ·) (ih (g s))

theorem run_attempt (p : Prog σ ε α) (s : σ) :
    p.attempt.run s = match p.run s with
      | (.ok a, s') => (.ok (.ok a), s')
      | (.error e, s') => (.ok (.error e), s')
      | (.hang, s') => (.hang, s') := by
  induction p generalizing s with
  | ret a => rfl
  | throw e => rfl
  | hang => rfl
  | read k ih => exact ih s s
  | write g k ih => exact ih (g s)

/-- The last state of a crash-free run is itself a crash state. -/
theorem crash_run (p : Prog σ ε α) (s : σ) : p.Crash s (p.run s).2 := by
  unfold Crash
  induction p generalizing s with
  | ret a => simp [run, trace]
  | throw e => simp [run, trace]
  | hang => simp [run, trace]
  | read k ih => exact ih s s
  | write g k ih => exact List.mem_cons_of_mem _ (ih (g s))

/-- From `s`, every store of `p` leaves a state in `C`, and `p` ends by returning
a value and a state related by `Q`. -/
def Runs (p : Prog σ ε α) (s : σ) (C : σ → Prop) (Q : α → σ → Prop) : Prop :=
  (∀ c ∈ p.trace s, C c) ∧ ∃ a s', p.run s = (.ok a, s') ∧ Q a s'

/-- The same for a program that ends by throwing. -/
def Throws (p : Prog σ ε α) (s : σ) (C : σ → Prop) (Q : ε → σ → Prop) : Prop :=
  (∀ c ∈ p.trace s, C c) ∧ ∃ e s', p.run s = (.error e, s') ∧ Q e s'

variable {C C' : σ → Prop} {Q R : α → σ → Prop} {E : ε → σ → Prop} {s : σ}

theorem runs_pure {a : α} (h : Q a s) : (pure a : Prog σ ε α).Runs s C Q :=
  ⟨fun _ hc => (List.not_mem_nil hc).elim, a, s, rfl, h⟩

theorem throws_throw {e : ε} (h : E e s) : (throw e : Prog σ ε α).Throws s C E :=
  ⟨fun _ hc => (List.not_mem_nil hc).elim, e, s, rfl, h⟩

theorem runs_store {f : σ → σ} {Q : Unit → σ → Prop} (hc : C (f s)) (hq : Q () (f s)) :
    (store f : Prog σ ε Unit).Runs s C Q :=
  ⟨fun c h => by rw [List.mem_singleton.mp h]; exact hc, (), f s, rfl, hq⟩

theorem runs_get_bind {f : σ → Prog σ ε β} {Q : β → σ → Prop} (h : (f s).Runs s C Q) :
    (get >>= f).Runs s C Q := h

theorem throws_get_bind {f : σ → Prog σ ε β} (h : (f s).Throws s C E) :
    (get >>= f).Throws s C E := h

theorem Runs.bind {p : Prog σ ε α} {f : α → Prog σ ε β} {R : β → σ → Prop}
    (hp : p.Runs s C Q) (hf : ∀ a s', Q a s' → (f a).Runs s' C R) : (p >>= f).Runs s C R := by
  obtain ⟨hc, a, s', hr, hq⟩ := hp
  obtain ⟨hc', b, s'', hr', hq'⟩ := hf a s' hq
  refine ⟨?_, b, s'', (run_bind_ok hr f).trans hr', hq'⟩
  intro c h
  rw [trace_bind, hr, List.mem_append] at h
  exact h.elim (hc c) (hc' c)

theorem runs_store_bind {f : σ → σ} {k : Unit → Prog σ ε α} (hc : C (f s))
    (hk : (k ()).Runs (f s) C Q) : (store f >>= k).Runs s C Q :=
  (runs_store (Q := fun _ s' => s' = f s) hc rfl).bind fun _ _ hs' => hs' ▸ hk

theorem Runs.bind_throws {p : Prog σ ε α} {f : α → Prog σ ε β}
    (hp : p.Runs s C Q) (hf : ∀ a s', Q a s' → (f a).Throws s' C E) : (p >>= f).Throws s C E := by
  obtain ⟨hc, a, s', hr, hq⟩ := hp
  obtain ⟨hc', e, s'', hr', hq'⟩ := hf a s' hq
  refine ⟨?_, e, s'', (run_bind_ok hr f).trans hr', hq'⟩
  intro c h
  rw [trace_bind, hr, List.mem_append] at h
  exact h.elim (hc c) (hc' c)

theorem throws_store_bind {f : σ → σ} {k : Unit → Prog σ ε α} (hc : C (f s))
    (hk : (k ()).Throws (f s) C E) : (store f >>= k).Throws s C E :=
  (runs_store (Q := fun _ s' => s' = f s) hc rfl).bind_throws fun _ _ hs' => hs' ▸ hk

theorem Runs.mono {p : Prog σ ε α} (hp : p.Runs s C Q) (hc : ∀ c, C c → C' c)
    (hq : ∀ a s', Q a s' → R a s') : p.Runs s C' R := by
  obtain ⟨h, a, s', hr, hQ⟩ := hp
  exact ⟨fun c hm => hc c (h c hm), a, s', hr, hq a s' hQ⟩

theorem Throws.mono {p : Prog σ ε α} {F : ε → σ → Prop} (hp : p.Throws s C E) (hc : ∀ c, C c → C' c)
    (hq : ∀ e s', E e s' → F e s') : p.Throws s C' F := by
  obtain ⟨h, e, s', hr, hE⟩ := hp
  exact ⟨fun c hm => hc c (h c hm), e, s', hr, hq e s' hE⟩

theorem Runs.crash {p : Prog σ ε α} (hp : p.Runs s C Q) (h0 : C s) {c : σ} (hc : p.Crash s c) : C c := by
  rcases List.mem_cons.mp hc with rfl | hm
  · exact h0
  · exact hp.1 c hm

theorem Throws.crash {p : Prog σ ε α} (hp : p.Throws s C E) (h0 : C s) {c : σ} (hc : p.Crash s c) :
    C c := by
  rcases List.mem_cons.mp hc with rfl | hm
  · exact h0
  · exact hp.1 c hm

theorem Runs.run {p : Prog σ ε α} (hp : p.Runs s C Q) : ∃ a s', p.run s = (.ok a, s') ∧ Q a s' := hp.2

/-- A program on a part of the state, `get` and `set` being the part's accessors. -/
def zoom (get : τ → σ) (set : τ → σ → τ) : Prog σ ε α → Prog τ ε α
  | ret a => ret a
  | throw e => throw e
  | hang => hang
  | read k => read fun t => (k (get t)).zoom get set
  | write f k => write (fun t => set t (f (get t))) (k.zoom get set)

theorem run_zoom {get : τ → σ} {set : τ → σ → τ} (hgs : ∀ t s, get (set t s) = s) (hsg : ∀ t, set t (get t) = t)
    (hss : ∀ t s s', set (set t s) s' = set t s') (p : Prog σ ε α) (t : τ) :
    (p.zoom get set).run t = ((p.run (get t)).1, set t (p.run (get t)).2) := by
  induction p generalizing t with
  | ret a => rw [zoom, run, run, hsg]
  | throw e => rw [zoom, run, run, hsg]
  | hang => rw [zoom, run, run, hsg]
  | read k ih => exact ih (get t) t
  | write f k ih =>
    rw [zoom, run, run, ih, hgs, hss]

/-- Every error `p` can throw satisfies `T`. -/
def ThrowsOnly (T : ε → Prop) (p : Prog σ ε α) : Prop := ∀ s e s', p.run s = (.error e, s') → T e

variable {T : ε → Prop}

theorem ThrowsOnly.bind {p : Prog σ ε α} {f : α → Prog σ ε β} (hp : p.ThrowsOnly T)
    (hf : ∀ a, (f a).ThrowsOnly T) : (p >>= f).ThrowsOnly T := by
  intro s e s' h
  rw [run_bind] at h
  rcases hr : p.run s with ⟨_ | _ | _, c⟩ <;> rw [hr] at h
  · exact hf _ _ _ _ h
  · cases h
    exact hp _ _ _ hr
  · cases h

/-- No run of `p` changes what `φ` reads of the state. -/
def Keeps {γ : Type} (φ : σ → γ) (p : Prog σ ε α) : Prop := ∀ s, φ (p.run s).2 = φ s

section Keeps
variable {γ : Type} {φ : σ → γ}

theorem keeps_pure (a : α) : (pure a : Prog σ ε α).Keeps φ := fun _ => rfl

theorem keeps_throw (e : ε) : (throw e : Prog σ ε α).Keeps φ := fun _ => rfl

theorem keeps_hang : (hang : Prog σ ε α).Keeps φ := fun _ => rfl

theorem keeps_store {f : σ → σ} (h : ∀ s, φ (f s) = φ s) : (store f : Prog σ ε Unit).Keeps φ := h

/-- What comes after `p` leaves `φ` as `p` did. -/
theorem keeps_after {p : Prog σ ε α} {f : α → Prog σ ε β} (hf : ∀ a, (f a).Keeps φ) (s : σ) :
    φ ((p >>= f).run s).2 = φ (p.run s).2 := by
  rcases snd_run_bind p f s with hend | ⟨a, hend⟩
  · rw [hend]
  · rw [hend]
    exact hf a _

theorem Keeps.bind {p : Prog σ ε α} {f : α → Prog σ ε β} (hp : p.Keeps φ) (hf : ∀ a, (f a).Keeps φ) :
    (p >>= f).Keeps φ := fun s => (keeps_after hf s).trans (hp s)

theorem keeps_get_bind {f : σ → Prog σ ε β} (hf : ∀ s, (f s).Keeps φ) : (get >>= f).Keeps φ := fun s => hf s s

theorem keeps_read {k : σ → Prog σ ε α} (hk : ∀ s, (k s).Keeps φ) : (read k).Keeps φ := fun s => hk s s

theorem keeps_ite {c : Prop} [Decidable c] {p q : Prog σ ε α} (hp : p.Keeps φ) (hq : q.Keeps φ) : (if c then p else q).Keeps φ := by
  split
  · exact hp
  · exact hq

theorem Keeps.attempt {p : Prog σ ε α} (hp : p.Keeps φ) : p.attempt.Keeps φ := by
  intro s
  rw [run_attempt, ← hp s]
  rcases p.run s with ⟨_ | _ | _, c⟩ <;> rfl

theorem keeps_forM {f : β → Prog σ ε Unit} (hf : ∀ b, (f b).Keeps φ) (l : List β) : (l.forM f).Keeps φ := by
  induction l with
  | nil => exact keeps_pure ()
  | cons b l ih => exact (hf b).bind fun _ => ih

end Keeps

/-- Every run of `p` from a state with `I` ends in one, however it ends. -/
def Preserves (I : σ → Prop) (p : Prog σ ε α) : Prop := ∀ s, I s → I (p.run s).2

section Preserves
variable {I : σ → Prop}

theorem preserves_pure (a : α) : (pure a : Prog σ ε α).Preserves I := fun _ h => h

theorem Preserves.bind {p : Prog σ ε α} {f : α → Prog σ ε β} (hp : p.Preserves I) (hf : ∀ a, (f a).Preserves I) :
    (p >>= f).Preserves I := by
  intro s h
  have hc := hp s h
  rw [run_bind]
  rcases hr : p.run s with ⟨_ | _ | _, c⟩ <;> rw [hr] at hc
  · exact hf _ c hc
  · exact hc
  · exact hc

theorem preserves_forM {f : β → Prog σ ε Unit} (hf : ∀ b, (f b).Preserves I) (l : List β) :
    (l.forM f).Preserves I := by
  induction l with
  | nil => exact preserves_pure ()
  | cons b l ih => exact (hf b).bind fun _ => ih

theorem Runs.preserves {C : σ → Prop} {Q : α → σ → Prop} {p : Prog σ ε α} {s : σ} (hp : p.Runs s C Q)
    (h : ∀ a c, Q a c → I c) : I (p.run s).2 := by
  obtain ⟨-, a, c, hr, hc⟩ := hp
  rw [hr]
  exact h a c hc

theorem Throws.preserves {C : σ → Prop} {E : ε → σ → Prop} {p : Prog σ ε α} {s : σ} (hp : p.Throws s C E)
    (h : ∀ e c, E e c → I c) : I (p.run s).2 := by
  obtain ⟨-, e, c, hr, hc⟩ := hp
  rw [hr]
  exact h e c hc

end Preserves

end Prog

end ShmNext
