import ShmNext.TransitionSystem

/-! `InterprocessSemaphore`: any number of processes running `post`, `wait` and `try_wait`
statement by statement. The mutex excludes, waiting on the condition releases it in the same
step, and a sleeping waiter may also wake up by itself. -/
namespace ShmNext.Semaphore

/-- `std::numeric_limits<unsigned int>::max()`. -/
def uintMax : ℕ := 2^32-1

inductive Result where
  | posted
  | overflow
  | waited
  | taken
  | refused
  deriving DecidableEq, Repr

/-- The statement a process is about to run. `postLock`, `waitLock`, `tryLock` and `woken` wait
for the mutex, `asleep` for a notification. -/
inductive Pc where
  | idle
  | postLock
  | postTest
  | postStore
  | postNotify
  | waitLock
  | waitTest (again : Bool)
  | asleep
  | woken
  | waitStore
  | tryLock
  | tryTest
  | tryStore
  | unlock (r : Result)
  deriving DecidableEq, Repr

/-- `posts`, `waits` and `tries` count the stores to `count` made so far on behalf of `post`,
`wait` and `try_wait`. -/
structure State (P : Type) where
  count : ℕ
  owner : Option P
  pc : P → Pc
  posts : ℕ
  waits : ℕ
  tries : ℕ

variable {P : Type} [DecidableEq P]

namespace State

def goto (s : State P) (p : P) (v : Pc) : State P := { s with pc := Function.update s.pc p v }

end State

/-- What a process that waits for the mutex does next. -/
def Pc.locked : Pc → Option Pc
  | .postLock => some .postTest
  | .waitLock => some (.waitTest false)
  | .woken => some (.waitTest true)
  | .tryLock => some .tryTest
  | _ => none

inductive Step (s : State P) : State P → Prop
  | call (p : P) {v : Pc} (h : s.pc p = .idle) (hv : v ∈ [.postLock, .waitLock, .tryLock]) : Step s (s.goto p v)
  | lock (p : P) {v : Pc} (h : (s.pc p).locked = some v) (hfree : s.owner = none) :
    Step s { s.goto p v with owner := some p }
  | postThrow (p : P) (h : s.pc p = .postTest) (hmax : s.count = uintMax) : Step s (s.goto p (.unlock .overflow))
  | postPass (p : P) (h : s.pc p = .postTest) (hmax : s.count ≠ uintMax) : Step s (s.goto p .postStore)
  | postStore (p : P) (h : s.pc p = .postStore) :
    Step s { s.goto p .postNotify with count := (s.count+1)%2^32, posts := s.posts+1 }
  | notify (p q : P) (h : s.pc p = .postNotify) (hq : s.pc q = .asleep) :
    Step s ((s.goto q .woken).goto p (.unlock .posted))
  | notifyNobody (p : P) (h : s.pc p = .postNotify) (hno : ∀ q, s.pc q ≠ .asleep) : Step s (s.goto p (.unlock .posted))
  | waitSleep (p : P) {again : Bool} (h : s.pc p = .waitTest again) (hzero : ¬ 0 < s.count) :
    Step s { s.goto p .asleep with owner := none }
  | waitPass (p : P) {again : Bool} (h : s.pc p = .waitTest again) (hpos : 0 < s.count) : Step s (s.goto p .waitStore)
  | spurious (p : P) (h : s.pc p = .asleep) : Step s (s.goto p .woken)
  | waitStore (p : P) (h : s.pc p = .waitStore) :
    Step s { s.goto p (.unlock .waited) with count := (s.count+2^32-1)%2^32, waits := s.waits+1 }
  | tryFail (p : P) (h : s.pc p = .tryTest) (hzero : s.count = 0) : Step s (s.goto p (.unlock .refused))
  | tryPass (p : P) (h : s.pc p = .tryTest) (hzero : s.count ≠ 0) : Step s (s.goto p .tryStore)
  | tryStore (p : P) (h : s.pc p = .tryStore) :
    Step s { s.goto p (.unlock .taken) with count := (s.count+2^32-1)%2^32, tries := s.tries+1 }
  | unlock (p : P) {r : Result} (h : s.pc p = .unlock r) : Step s { s.goto p .idle with owner := none }

/-- All processes start outside, with the given count. -/
def machine (P : Type) [DecidableEq P] (initial : ℕ) : TransitionSystem (State P) where
  init s := s = ⟨initial, none, fun _ => .idle, 0, 0, 0⟩
  step := Step

/-- Between taking the mutex and giving it back. -/
def Pc.Inside : Pc → Prop
  | .postTest | .postStore | .postNotify | .waitTest _ | .waitStore | .tryTest | .tryStore | .unlock _ => True
  | _ => False

instance : DecidablePred Pc.Inside := fun v => by cases v <;> unfold Pc.Inside <;> infer_instance

/-- Woken, with the predicate not checked again yet. -/
def Pc.OnTheWay : Pc → Prop
  | .woken | .waitTest true => True
  | _ => False

instance : DecidablePred Pc.OnTheWay := fun v => by unfold Pc.OnTheWay; split <;> infer_instance

/-- In the middle of handing a unit over: it is stored but not announced, or claimed but not
taken off. -/
def Pc.HandsOver : Pc → Prop
  | .postNotify | .waitStore | .tryStore => True
  | _ => False

instance : DecidablePred Pc.HandsOver := fun v => by unfold Pc.HandsOver; split <;> infer_instance

/-- Exactly the owner of the mutex is inside. -/
def Excludes (pc : P → Pc) (owner : Option P) : Prop := ∀ p, (pc p).Inside ↔ owner = some p

namespace Excludes
variable {pc : P → Pc} {owner : Option P} {p q : P} {v : Pc}

omit [DecidableEq P] in
theorem unique (h : Excludes pc owner) (hp : (pc p).Inside) (hq : (pc q).Inside) : p = q :=
  Option.some.inj (((h p).mp hp).symm.trans ((h q).mp hq))

/-- A move that does not cross the border. -/
theorem move (h : Excludes pc owner) (hv : v.Inside ↔ (pc p).Inside) : Excludes (Function.update pc p v) owner := by
  intro q
  by_cases hq : q = p
  · subst hq
    rw [Function.update_self, hv, h]
  · rw [Function.update_of_ne hq, h]

theorem enter (h : Excludes pc none) (hv : v.Inside) : Excludes (Function.update pc p v) (some p) := by
  intro q
  by_cases hq : q = p
  · subst hq
    simp [hv]
  · have hout : ¬ (pc q).Inside := fun hin => by simpa using (h q).mp hin
    rw [Function.update_of_ne hq]
    simp [hout, Ne.symm hq]

theorem leave (h : Excludes pc owner) (hp : (pc p).Inside) (hv : ¬ v.Inside) : Excludes (Function.update pc p v) none := by
  intro q
  by_cases hq : q = p
  · subst hq
    simp [hv]
  · have hout : ¬ (pc q).Inside := fun hin => hq (h.unique hin hp)
    rw [Function.update_of_ne hq]
    simp [hout]

end Excludes

theorem Pc.locked_some {v w : Pc} (h : v.locked = some w) : ¬ v.Inside ∧ w.Inside ∧ ¬ w.HandsOver ∧ w ≠ .postStore ∧
    ¬ v.HandsOver ∧ v ≠ .asleep ∧ w ≠ .asleep ∧ (v.OnTheWay ↔ w.OnTheWay) := by
  unfold Pc.locked at h
  split at h <;> first | (obtain rfl := Option.some.inj h; simp [Pc.Inside, Pc.HandsOver, Pc.OnTheWay]) | cases h

/-- The mutex excludes: every step crosses the border together with the field `owner`. -/
theorem Step.excludes {s s' : State P} (h : Excludes s.pc s.owner) (hs : Step s s') : Excludes s'.pc s'.owner := by
  cases hs with
  | call p hp hv =>
    refine h.move ?_
    simp only [List.mem_cons, List.not_mem_nil, or_false] at hv
    rcases hv with rfl | rfl | rfl <;> simp [hp, Pc.Inside]
  | lock p hp hfree =>
    rw [hfree] at h
    exact h.enter (Pc.locked_some hp).2.1
  | notify p q hp hq =>
    have hne : p ≠ q := by
      rintro rfl
      rw [hp] at hq
      cases hq
    have hwake : Excludes (Function.update s.pc q .woken) s.owner := h.move (by simp [hq, Pc.Inside])
    exact hwake.move (by rw [Function.update_of_ne hne, hp]; simp [Pc.Inside])
  | waitSleep p hp => exact h.leave (by rw [hp]; trivial) (by simp [Pc.Inside])
  | unlock p hp => exact h.leave (by rw [hp]; trivial) (by simp [Pc.Inside])
  | postThrow p hp | postPass p hp | postStore p hp | notifyNobody p hp | waitPass p hp | spurious p hp | waitStore p hp
  | tryFail p hp | tryPass p hp | tryStore p hp => exact h.move (by rw [hp]; simp [Pc.Inside])

/-- What a process has checked before it stores to `count`. -/
def Pc.Ready (count : ℕ) : Pc → Prop
  | .postStore => count < uintMax
  | .waitStore | .tryStore => 0 < count
  | _ => True

theorem Pc.ready_of_outside {count : ℕ} {v : Pc} (h : ¬ v.Inside) : v.Ready count := by
  cases v <;> trivial

section Ready
variable {pc : P → Pc} {p : P} {v : Pc} {count count' : ℕ}

theorem ready_move (h : ∀ q, (pc q).Ready count) (hv : v.Ready count) : ∀ q, (Function.update pc p v q).Ready count := by
  intro q
  by_cases hq : q = p
  · rwa [hq, Function.update_self]
  · rw [Function.update_of_ne hq]
    exact h q

/-- A store to `count` spoils no other process's check, since the others are outside. -/
theorem ready_store {owner : Option P} (hex : Excludes pc owner) (hp : (pc p).Inside) (hv : v.Ready count') :
    ∀ q, (Function.update pc p v q).Ready count' := by
  intro q
  by_cases hq : q = p
  · rwa [hq, Function.update_self]
  · rw [Function.update_of_ne hq]
    exact Pc.ready_of_outside fun hin => hq (hex.unique hin hp)

end Ready

variable [Fintype P] {initial : ℕ} {s s' : State P}

/-- While somebody sleeps, each unit is spoken for: by a process woken for it, or by one in the
middle of announcing or taking it. -/
def Spoken (pc : P → Pc) (count : ℕ) : Prop :=
  (∃ p, pc p = .asleep) → count ≤ population Pc.OnTheWay pc+population Pc.HandsOver pc

/-- The units one process speaks for. -/
def Pc.weight (v : Pc) : ℕ := (if v.OnTheWay then 1 else 0)+(if v.HandsOver then 1 else 0)

/-- A move to another place than sleep, with the units and the claims on them in step. -/
theorem Spoken.move {pc : P → Pc} {p : P} {v : Pc} {count count' : ℕ} (h : Spoken pc count) (hv : v ≠ .asleep)
    (hle : count'+(pc p).weight ≤ count+v.weight) : Spoken (Function.update pc p v) count' := by
  rintro ⟨q, hq⟩
  have hne : q ≠ p := by
    rintro rfl
    rw [Function.update_self] at hq
    exact hv hq
  rw [Function.update_of_ne hne] at hq
  have hcount := h ⟨q, hq⟩
  have hway := @population_update _ _ _ Pc.OnTheWay _ pc p v _
  have hhand := @population_update _ _ _ Pc.HandsOver _ pc p v _
  unfold Pc.weight at hle
  omega

structure Inv (initial : ℕ) (s : State P) : Prop where
  excludes : Excludes s.pc s.owner
  balance : s.count+s.waits+s.tries = initial+s.posts
  bound : s.count ≤ uintMax
  ready : ∀ p, (s.pc p).Ready s.count
  spoken : Spoken s.pc s.count

namespace Inv

/-- A statement that does not touch `count`. -/
theorem goto (h : Inv initial s) (hs : Step s s') {p : P} {v : Pc} (hpc : s'.pc = Function.update s.pc p v)
    (hcount : s'.count = s.count) (hghost : s'.posts = s.posts ∧ s'.waits = s.waits ∧ s'.tries = s.tries)
    (hready : v.Ready s.count) (hv : v ≠ .asleep) (hweight : (s.pc p).weight ≤ v.weight) : Inv initial s' := by
  refine ⟨hs.excludes h.excludes, ?_, hcount ▸ h.bound, ?_, ?_⟩
  · rw [hcount, hghost.1, hghost.2.1, hghost.2.2]
    exact h.balance
  · rw [hpc, hcount]
    exact ready_move h.ready hready
  · rw [hpc, hcount]
    exact h.spoken.move hv (Nat.add_le_add_left hweight _)

/-- `--count` by a process that has seen it positive. -/
theorem takes (h : Inv initial s) {p : P} (hp : s.pc p = .waitStore ∨ s.pc p = .tryStore) {r : Result} :
    (s.count+2^32-1)%2^32+1 = s.count ∧ (s.count+2^32-1)%2^32 ≤ uintMax ∧
      (∀ q, (Function.update s.pc p (.unlock r) q).Ready ((s.count+2^32-1)%2^32)) ∧
      Spoken (Function.update s.pc p (.unlock r)) ((s.count+2^32-1)%2^32) := by
  have hbound := h.bound
  have hpos : 0 < s.count := by
    have := h.ready p
    rcases hp with hp | hp <;> rw [hp] at this <;> exact this
  have hin : (s.pc p).Inside := by rcases hp with hp | hp <;> rw [hp] <;> trivial
  have hweight : (s.pc p).weight = 1 := by rcases hp with hp | hp <;> rw [hp] <;> rfl
  unfold uintMax at hbound
  have hsub : (s.count+2^32-1)%2^32 = s.count-1 := by omega
  rw [hsub]
  refine ⟨by omega, by unfold uintMax; omega, ready_store h.excludes hin trivial, h.spoken.move (by simp) ?_⟩
  rw [hweight]
  omega

theorem step (h : Inv initial s) (hs : Step s s') : Inv initial s' := by
  have hex := hs.excludes h.excludes
  cases hs with
  | @call p v hp hv =>
    simp only [List.mem_cons, List.not_mem_nil, or_false] at hv
    rcases hv with rfl | rfl | rfl <;>
      exact h.goto (.call p hp (by simp)) rfl rfl ⟨rfl, rfl, rfl⟩ trivial (by simp) (by rw [hp]; decide)
  | @lock p v hp hfree =>
    obtain ⟨h1, h2, h3, h4, h5, h6, h7, h8⟩ := Pc.locked_some hp
    refine h.goto (.lock p hp hfree) (p := p) (v := v) rfl rfl ⟨rfl, rfl, rfl⟩ ?_ h7 ?_
    · cases v <;> trivial
    · simp only [Pc.weight, h3, h5, h8, if_false]
      exact le_rfl
  | postThrow p hp hmax =>
    exact h.goto (.postThrow p hp hmax) rfl rfl ⟨rfl, rfl, rfl⟩ trivial (by simp) (by rw [hp]; decide)
  | postPass p hp hmax =>
    refine h.goto (.postPass p hp hmax) rfl rfl ⟨rfl, rfl, rfl⟩ ?_ (by simp) (by rw [hp]; decide)
    exact lt_of_le_of_ne h.bound hmax
  | postStore p hp =>
    have hroom : s.count < uintMax := by
      have := h.ready p
      rw [hp] at this
      exact this
    have hadd : (s.count+1)%2^32 = s.count+1 := by unfold uintMax at hroom; omega
    refine ⟨hex, ?_, ?_, ready_store h.excludes (by rw [hp]; trivial) trivial, h.spoken.move (by simp) ?_⟩
    · have := h.balance
      dsimp only [State.goto]
      omega
    · dsimp only
      omega
    · rw [hadd, hp]
      exact Nat.le_refl _
  | notify p q hp hq =>
    have hne : p ≠ q := by
      rintro rfl
      rw [hp] at hq
      cases hq
    -- the unit passes from the process that announces it to the one that is woken
    have hwoken : Spoken (Function.update s.pc q .woken) (s.count+1) := by
      refine h.spoken.move (by simp) ?_
      rw [hq]
      exact Nat.le_refl _
    refine ⟨hex, h.balance, h.bound, ready_move (ready_move h.ready trivial) trivial, hwoken.move (by simp) ?_⟩
    rw [Function.update_of_ne hne, hp]
    exact Nat.le_refl _
  | notifyNobody p hp hno =>
    refine ⟨hex, h.balance, h.bound, ready_move h.ready trivial, ?_⟩
    rintro ⟨q, hq⟩
    have hq' : Function.update s.pc p (.unlock .posted) q = .asleep := hq
    by_cases hqp : q = p
    · rw [hqp, Function.update_self] at hq'
      cases hq'
    · rw [Function.update_of_ne hqp] at hq'
      exact absurd hq' (hno q)
  | waitSleep p hp hzero =>
    refine ⟨hex, h.balance, h.bound, ready_move h.ready trivial, fun _ => ?_⟩
    exact (Nat.eq_zero_of_not_pos hzero).trans_le (Nat.zero_le _)
  | @waitPass p again hp hpos =>
    refine h.goto (.waitPass p hp hpos) rfl rfl ⟨rfl, rfl, rfl⟩ hpos (by simp) ?_
    rw [hp]
    cases again <;> decide
  | spurious p hp => exact h.goto (.spurious p hp) rfl rfl ⟨rfl, rfl, rfl⟩ trivial (by simp) (by rw [hp]; decide)
  | waitStore p hp =>
    obtain ⟨h1, h2, h3, h4⟩ := h.takes (Or.inl hp) (r := .waited)
    have := h.balance
    exact ⟨hex, by dsimp only [State.goto]; omega, h2, h3, h4⟩
  | tryFail p hp hzero =>
    exact h.goto (.tryFail p hp hzero) rfl rfl ⟨rfl, rfl, rfl⟩ trivial (by simp) (by rw [hp]; decide)
  | tryPass p hp hzero =>
    refine h.goto (.tryPass p hp hzero) rfl rfl ⟨rfl, rfl, rfl⟩ (Nat.pos_of_ne_zero hzero) (by simp) (by rw [hp]; decide)
  | tryStore p hp =>
    obtain ⟨h1, h2, h3, h4⟩ := h.takes (Or.inr hp) (r := .taken)
    have := h.balance
    exact ⟨hex, by dsimp only [State.goto]; omega, h2, h3, h4⟩
  | unlock p hp => exact h.goto (.unlock p hp) rfl rfl ⟨rfl, rfl, rfl⟩ trivial (by simp) (by rw [hp]; exact Nat.le_refl _)

end Inv

theorem Inv.reachable (hinit : initial ≤ uintMax) (h : (machine P initial).Reachable s) : Inv initial s := by
  refine h.invariant (fun s hs => ?_) fun s s' hinv hstep => hinv.step hstep
  obtain rfl := hs
  refine ⟨fun p => ?_, rfl, hinit, fun _ => trivial, fun ⟨_, hp⟩ => by cases hp⟩
  simp [Pc.Inside]

end ShmNext.Semaphore
