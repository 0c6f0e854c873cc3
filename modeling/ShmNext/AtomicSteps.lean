import ShmNext.Endings

/-! Programs made of atomic steps: between two of them others may act. Alone, a program is an ordinary one. -/
namespace ShmNext

inductive Steps (σ ε α : Type) where
  | ret (a : α)
  | throw (e : ε)
  | hang
  | step (next : σ → σ) (rest : σ → Steps σ ε α)

namespace Steps
variable {σ ε α β : Type}

def bind : Steps σ ε α → (α → Steps σ ε β) → Steps σ ε β
  | ret a, f => f a
  | throw e, _ => throw e
  | hang, _ => hang
  | step next rest, f => step next fun s => (rest s).bind f

instance : Monad (Steps σ ε) where
  pure := ret
  bind := bind

def attempt : Steps σ ε α → Steps σ ε (Except ε α)
  | ret a => ret (.ok a)
  | throw e => ret (.error e)
  | hang => hang
  | step next rest => step next fun s => (rest s).attempt

/-- How a program has ended, as a program without steps. -/
def ofOutcome : Outcome ε α → Steps σ ε α
  | .ok a => ret a
  | .error e => throw e
  | .hang => hang

/-- The whole of `p` is one step. -/
def atomically (p : Prog σ ε α) : Steps σ ε α := step (fun s => (p.run s).2) fun s => ofOutcome (p.run s).1

/-- `for (; i < from+left; ++i) body(i)` in a `try` block whose `catch (...)` runs `handler(i)` and throws on. -/
def tryLoop (body handler : ℕ → Steps σ ε Unit) : ℕ → ℕ → Steps σ ε Unit
  | _, 0 => pure ()
  | i, left+1 => do
    match ← (body i).attempt with
    | .ok () => tryLoop body handler (i+1) left
    | .error e =>
      handler i
      throw e

/-- Nobody acts in between. -/
def alone : Steps σ ε α → Prog σ ε α
  | ret a => .ret a
  | throw e => .throw e
  | hang => .hang
  | step next rest => .read fun s => .write next (rest s).alone

@[simp] theorem pure_bind (a : α) (f : α → Steps σ ε β) : (pure a >>= f : Steps σ ε β) = f a := rfl

@[simp] theorem bind_pure (p : Steps σ ε α) : p >>= pure = p := by
  change p.bind ret = p
  induction p with
  | ret a => rfl
  | throw e => rfl
  | hang => rfl
  | step next rest ih => exact congrArg (step next) (funext ih)

theorem bind_assoc {γ : Type} (p : Steps σ ε α) (f : α → Steps σ ε β) (g : β → Steps σ ε γ) :
    p >>= f >>= g = p >>= fun a => f a >>= g := by
  change (p.bind f).bind g = p.bind fun a => (f a).bind g
  induction p with
  | ret a => rfl
  | throw e => rfl
  | hang => rfl
  | step next rest ih => exact congrArg (step next) (funext ih)

@[simp] theorem throw_bind (e : ε) (f : α → Steps σ ε β) : (throw e >>= f : Steps σ ε β) = throw e := rfl

@[simp] theorem alone_pure (a : α) : (pure a : Steps σ ε α).alone = pure a := rfl

@[simp] theorem alone_throw (e : ε) : (throw e : Steps σ ε α).alone = Prog.throw e := rfl

@[simp] theorem alone_bind (p : Steps σ ε α) (f : α → Steps σ ε β) : (p >>= f).alone = p.alone >>= fun a => (f a).alone := by
  change (p.bind f).alone = p.alone.bind fun a => (f a).alone
  induction p with
  | ret a => rfl
  | throw e => rfl
  | hang => rfl
  | step next rest ih => exact congrArg Prog.read (funext fun s => congrArg (Prog.write next) (ih s))

@[simp] theorem alone_attempt (p : Steps σ ε α) : p.attempt.alone = p.alone.attempt := by
  induction p with
  | ret a => rfl
  | throw e => rfl
  | hang => rfl
  | step next rest ih => exact congrArg Prog.read (funext fun s => congrArg (Prog.write next) (ih s))

@[simp] theorem alone_tryLoop (body handler : ℕ → Steps σ ε Unit) (i left : ℕ) :
    (tryLoop body handler i left).alone = Prog.tryLoop (fun i => (body i).alone) (fun i => (handler i).alone) i left := by
  induction left generalizing i with
  | zero => rfl
  | succ left ih =>
    rw [tryLoop, Prog.tryLoop, alone_bind, alone_attempt]
    congr 1
    funext r
    rcases r with e | u
    · exact alone_bind _ _
    · exact ih (i+1)

theorem run_alone_atomically (p : Prog σ ε α) (s : σ) : (atomically p).alone.run s = p.run s := by
  change ((ofOutcome (p.run s).1 : Steps σ ε α).alone).run (p.run s).2 = p.run s
  rcases p.run s with ⟨_ | _ | _, c⟩ <;> rfl

variable {p : Prog σ ε α} {s : σ} {Q : α → σ → Prop} {E : ε → σ → Prop}

/-- Alone, an atomic step does what its program does. -/
@[simp] theorem ends_alone_atomically : (atomically p).alone.Ends s Q E ↔ p.Ends s Q E := by
  unfold Prog.Ends
  rw [run_alone_atomically]

end Steps

end ShmNext
