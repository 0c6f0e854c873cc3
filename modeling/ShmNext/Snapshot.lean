import ShmNext.TransitionSystem

/-! `with_manager_write_lock` and `with_read_only_snapshot`: writers under a robust mutex that turn
the metadata generation odd and even again, any of whom may die at any statement, and readers that
take no lock and compare generations. -/
namespace ShmNext.Snapshot

/-- The bound of both reader loops, `max_attempts`. -/
def maxAttempts : ℕ := 1024

/-- A robust mutex; `consistent` is false from taking it over from a dead owner until `mark_consistent`. -/
inductive Mutex (P : Type) where
  | free
  | held (p : P) (consistent : Bool)
  | ownerDead
  | notRecoverable

/-- The statement a process is about to run. Writers: `lock` to `unlock`, with `end_metadata_write`
in two places. Readers: `waitLoad` counts the attempts and the loads of the present one, and `log`
holds the words the attempt has read so far. -/
inductive Pc (W V : Type) where
  | idle
  | dead
  | lock
  | checkSanity
  | markConsistent
  | beginLoad
  | beginAdd
  | body
  | endLoad (recovering : Bool)
  | endAdd (recovering : Bool)
  | unlock
  | waitLoad (attempt load : ℕ)
  | reading (attempt generation : ℕ) (log : List (W × V))
  | validate (attempt generation : ℕ) (log : List (W × V)) (thrown : Bool)
  | answered (log : List (W × V)) (thrown : Bool)

structure State (P W V : Type) where
  mutex : Mutex P
  generation : ℕ
  words : W → V
  pc : P → Pc W V

variable {P W V : Type} [DecidableEq P]

namespace State

def goto (s : State P W V) (p : P) (v : Pc W V) : State P W V := { s with pc := Function.update s.pc p v }

end State

/-- What the kernel makes of the mutex when `p` dies. -/
def Mutex.afterDeath (m : Mutex P) (p : P) : Mutex P :=
  match m with
  | .held q c => if q = p then .ownerDead else .held q c
  | m => m

/-- Where `end_metadata_write` goes on. -/
def Pc.afterEnd (recovering : Bool) : Pc W V := if recovering then .beginLoad else .unlock

inductive Step [DecidableEq W] (s : State P W V) : State P W V → Prop
  | enter (p : P) (h : s.pc p = .idle) : Step s (s.goto p .lock)
  | acquire (p : P) (h : s.pc p = .lock) (hm : s.mutex = .free) :
    Step s { s.goto p .beginLoad with mutex := .held p true }
  | takeOver (p : P) (h : s.pc p = .lock) (hm : s.mutex = .ownerDead) :
    Step s { s.goto p .checkSanity with mutex := .held p false }
  | lockThrows (p : P) (h : s.pc p = .lock) (hm : s.mutex = .notRecoverable) : Step s (s.goto p .idle)
  | insane (p : P) (h : s.pc p = .checkSanity) : Step s (s.goto p .unlock)
  | sane (p : P) (h : s.pc p = .checkSanity) : Step s (s.goto p .markConsistent)
  | markThrows (p : P) (h : s.pc p = .markConsistent) : Step s (s.goto p .unlock)
  | mark (p : P) (h : s.pc p = .markConsistent) : Step s { s.goto p (.endLoad true) with mutex := .held p true }
  | beginEven (p : P) (h : s.pc p = .beginLoad) (heven : s.generation%2 = 0) : Step s (s.goto p .beginAdd)
  | beginOdd (p : P) (h : s.pc p = .beginLoad) (hodd : s.generation%2 ≠ 0) : Step s (s.goto p .body)
  | beginAdd (p : P) (h : s.pc p = .beginAdd) : Step s { s.goto p .body with generation := s.generation+1 }
  | write (p : P) (h : s.pc p = .body) (w : W) (v : V) : Step s { s with words := Function.update s.words w v }
  | bodyEnds (p : P) (h : s.pc p = .body) : Step s (s.goto p (.endLoad false))
  | endOdd (p : P) {r : Bool} (h : s.pc p = .endLoad r) (hodd : s.generation%2 ≠ 0) : Step s (s.goto p (.endAdd r))
  | endEven (p : P) {r : Bool} (h : s.pc p = .endLoad r) (heven : s.generation%2 = 0) : Step s (s.goto p (.afterEnd r))
  | endAdd (p : P) {r : Bool} (h : s.pc p = .endAdd r) :
    Step s { s.goto p (.afterEnd r) with generation := s.generation+1 }
  | unlock (p : P) {c : Bool} (h : s.pc p = .unlock) (hm : s.mutex = .held p c) :
    Step s { s.goto p .idle with mutex := if c then .free else .notRecoverable }
  | die (p : P) (h : s.pc p ≠ .dead) : Step s { s.goto p .dead with mutex := s.mutex.afterDeath p }
  | snapshot (p : P) (h : s.pc p = .idle) : Step s (s.goto p (.waitLoad 0 0))
  | waitEven (p : P) {a i : ℕ} (h : s.pc p = .waitLoad a i) (heven : s.generation%2 = 0) :
    Step s (s.goto p (.reading a s.generation []))
  | waitOdd (p : P) {a i : ℕ} (h : s.pc p = .waitLoad a i) (hodd : s.generation%2 ≠ 0) :
    Step s (s.goto p (if i+1 < maxAttempts then .waitLoad a (i+1) else .idle))
  | read (p : P) {a g : ℕ} {log : List (W × V)} (h : s.pc p = .reading a g log) (w : W) :
    Step s (s.goto p (.reading a g ((w, s.words w) :: log)))
  | readEnds (p : P) {a g : ℕ} {log : List (W × V)} (h : s.pc p = .reading a g log) (thrown : Bool) :
    Step s (s.goto p (.validate a g log thrown))
  | stable (p : P) {a g : ℕ} {log : List (W × V)} {thrown : Bool} (h : s.pc p = .validate a g log thrown)
    (hg : s.generation = g) : Step s (s.goto p (.answered log thrown))
  | changed (p : P) {a g : ℕ} {log : List (W × V)} {thrown : Bool} (h : s.pc p = .validate a g log thrown)
    (hg : s.generation ≠ g) : Step s (s.goto p (if a+1 < maxAttempts then .waitLoad (a+1) 0 else .idle))
  | leave (p : P) {log : List (W × V)} {thrown : Bool} (h : s.pc p = .answered log thrown) : Step s (s.goto p .idle)

/-- All processes start outside, with an even generation. -/
def machine (P W V : Type) [DecidableEq P] [DecidableEq W] : TransitionSystem (State P W V) where
  init s := s.mutex = .free ∧ s.generation%2 = 0 ∧ ∀ p, s.pc p = .idle
  step := Step

/-- Between taking the mutex and giving it back. -/
def Pc.Inside : Pc W V → Prop
  | .checkSanity | .markConsistent | .beginLoad | .beginAdd | .body | .endLoad _ | .endAdd _ | .unlock => True
  | _ => False

/-- What the owner knows of the mutex and the generation at each statement. -/
def Pc.Knows (consistent : Bool) (generation : ℕ) : Pc W V → Prop
  | .checkSanity | .markConsistent => consistent = false
  | .beginLoad | .beginAdd => consistent = true ∧ generation%2 = 0
  | .body | .endLoad false => consistent = true ∧ generation%2 = 1
  | .endLoad true => consistent = true
  | .endAdd _ => consistent = true ∧ generation%2 = 1
  | .unlock => consistent = true → generation%2 = 0
  | _ => False

/-- What a reader has read is still there, unless the generation has moved on. -/
def Pc.Agrees (generation : ℕ) (words : W → V) : Pc W V → Prop
  | .reading _ g log | .validate _ g log _ =>
    g%2 = 0 ∧ g ≤ generation ∧ (generation = g → ∀ r ∈ log, words r.1 = r.2)
  | _ => True

theorem Pc.Agrees.mono {v : Pc W V} {g g' : ℕ} {words words' : W → V} (h : v.Agrees g words) (hg : g ≤ g')
    (hw : words' = words ∨ g%2 = 1) : v.Agrees g' words' := by
  have hlog : ∀ {n : ℕ} {log : List (W × V)}, n%2 = 0 ∧ n ≤ g ∧ (g = n → ∀ r ∈ log, words r.1 = r.2) →
      n%2 = 0 ∧ n ≤ g' ∧ (g' = n → ∀ r ∈ log, words' r.1 = r.2) := by
    rintro n log ⟨h1, h2, h3⟩
    refine ⟨h1, h2.trans hg, fun heq => ?_⟩
    -- the generation has not moved, so it was even all the time and nothing was written
    have heq' : g = n := by omega
    rcases hw with rfl | hodd
    · exact h3 heq'
    · omega
  unfold Pc.Agrees at *
  split at h
  · exact hlog h
  · exact hlog h
  · trivial

structure Inv (s : State P W V) : Prop where
  inside : ∀ p, (s.pc p).Inside → ∃ c, s.mutex = .held p c
  held : ∀ p c, s.mutex = .held p c → (s.pc p).Knows c s.generation
  free : s.mutex = .free → s.generation%2 = 0
  agrees : ∀ p, (s.pc p).Agrees s.generation s.words

theorem Pc.Knows.inside {v : Pc W V} {c : Bool} {g : ℕ} (h : v.Knows c g) : v.Inside := by
  cases v <;> trivial

namespace Inv
variable {s s' : State P W V} {p : P} {v : Pc W V} {c : Bool}

/-- Readers see a change of the words only together with a change of the generation. -/
theorem agrees_update (h : Inv s) {g : ℕ} {words : W → V} (hg : s.generation ≤ g)
    (hw : words = s.words ∨ s.generation%2 = 1) (hv : v.Agrees g words) :
    ∀ q, (Function.update s.pc p v q).Agrees g words := by
  intro q
  by_cases hq : q = p
  · rwa [hq, Function.update_self]
  · rw [Function.update_of_ne hq]
    exact (h.agrees q).mono hg hw

/-- A statement outside the critical section. -/
theorem stay (h : Inv s) (hp : ¬ (s.pc p).Inside) (hv : ¬ v.Inside) (hag : v.Agrees s.generation s.words) :
    Inv (s.goto p v) := by
  refine ⟨fun q hq => ?_, fun q c hm => ?_, h.free, h.agrees_update le_rfl (Or.inl rfl) hag⟩
  · by_cases hqp : q = p
    · subst hqp
      exact absurd (by simpa [State.goto] using hq) hv
    · exact h.inside q (by simpa [State.goto, Function.update_of_ne hqp] using hq)
  · have hqp : q ≠ p := by
      rintro rfl
      exact hp (h.held q c hm).inside
    dsimp only [State.goto]
    rw [Function.update_of_ne hqp]
    exact h.held q c hm

/-- A statement of the owner. -/
theorem keep (h : Inv s) (hm : s.mutex = .held p c) {d : Bool} {g : ℕ} {words : W → V} (hg : s.generation ≤ g)
    (hw : words = s.words ∨ s.generation%2 = 1) (hv : v.Knows d g) (hag : v.Agrees g words) :
    Inv (⟨.held p d, g, words, Function.update s.pc p v⟩ : State P W V) := by
  refine ⟨fun q hq => ?_, fun q e he => ?_, fun hfree => (by cases hfree), h.agrees_update hg hw hag⟩
  · by_cases hqp : q = p
    · exact ⟨d, by rw [hqp]⟩
    · dsimp only at hq
      rw [Function.update_of_ne hqp] at hq
      obtain ⟨e, he⟩ := h.inside q hq
      rw [hm] at he
      cases he
      exact absurd rfl hqp
  · cases he
    dsimp only
    rw [Function.update_self]
    exact hv

/-- Taking a mutex that nobody holds. -/
theorem take (h : Inv s) (hm : ∀ q d, s.mutex ≠ .held q d) (hv : v.Knows c s.generation)
    (hag : v.Agrees s.generation s.words) : Inv { s.goto p v with mutex := .held p c } := by
  refine ⟨fun q hq => ?_, fun q d hd => ?_, fun hfree => (by cases hfree), h.agrees_update le_rfl (Or.inl rfl) hag⟩
  · by_cases hqp : q = p
    · exact ⟨c, by rw [hqp]⟩
    · dsimp only [State.goto] at hq
      rw [Function.update_of_ne hqp] at hq
      obtain ⟨d, hd⟩ := h.inside q hq
      exact absurd hd (hm q d)
  · cases hd
    dsimp only [State.goto]
    rw [Function.update_self]
    exact hv

/-- The owner gives the mutex up, or dies. -/
theorem drop (h : Inv s) (hm : s.mutex = .held p c) {m : Mutex P} (hm' : ∀ q d, m ≠ .held q d)
    (hfree : m = .free → s.generation%2 = 0) (hv : ¬ v.Inside) (hag : v.Agrees s.generation s.words) :
    Inv { s.goto p v with mutex := m } := by
  refine ⟨fun q hq => ?_, fun q d hd => absurd hd (hm' q d), hfree, h.agrees_update le_rfl (Or.inl rfl) hag⟩
  dsimp only [State.goto] at hq
  by_cases hqp : q = p
  · rw [hqp, Function.update_self] at hq
    exact absurd hq hv
  · rw [Function.update_of_ne hqp] at hq
    obtain ⟨d, hd⟩ := h.inside q hq
    rw [hm] at hd
    cases hd
    exact absurd rfl hqp

omit [DecidableEq P] in
theorem owner (h : Inv s) (hp : s.pc p = v) (hin : v.Inside) : ∃ c, s.mutex = .held p c ∧ v.Knows c s.generation := by
  obtain ⟨c, hc⟩ := h.inside p (hp ▸ hin)
  exact ⟨c, hc, hp ▸ h.held p c hc⟩

theorem die (h : Inv s) : Inv { s.goto p .dead with mutex := s.mutex.afterDeath p } := by
  by_cases hm : ∃ c, s.mutex = .held p c
  · obtain ⟨c, hc⟩ := hm
    have hdead : s.mutex.afterDeath p = .ownerDead := by rw [hc]; simp [Mutex.afterDeath]
    rw [hdead]
    exact h.drop hc (by simp) (by simp) id trivial
  · have hsame : s.mutex.afterDeath p = s.mutex := by
      cases hmu : s.mutex with
      | held q d =>
        have hqp : q ≠ p := by
          rintro rfl
          exact hm ⟨d, hmu⟩
        simp [Mutex.afterDeath, hqp]
      | _ => rfl
    rw [hsame]
    exact h.stay (fun hin => hm (h.inside p hin)) id trivial

theorem step [DecidableEq W] (h : Inv s) (hs : Step s s') : Inv s' := by
  -- a transition leaves its process outside the section, gives it the mutex, keeps it in the section
  -- with what it knows of the generation, or takes the mutex from it
  cases hs with
  | enter p hp => exact h.stay (by simp [hp, Pc.Inside]) id trivial
  | acquire p hp hm => exact h.take (by simp [hm]) ⟨rfl, h.free hm⟩ trivial
  | takeOver p hp hm => exact h.take (by simp [hm]) rfl trivial
  | lockThrows p hp hm => exact h.stay (by simp [hp, Pc.Inside]) id trivial
  | insane p hp =>
    obtain ⟨c, hc, hk⟩ := h.owner hp trivial
    obtain rfl : c = false := hk
    have := h.keep (v := .unlock) hc (d := false) le_rfl (Or.inl rfl) (by simp [Pc.Knows]) trivial
    rwa [← hc] at this
  | sane p hp =>
    obtain ⟨c, hc, hk⟩ := h.owner hp trivial
    have := h.keep (v := .markConsistent) hc (d := c) le_rfl (Or.inl rfl) hk trivial
    rwa [← hc] at this
  | markThrows p hp =>
    obtain ⟨c, hc, hk⟩ := h.owner hp trivial
    obtain rfl : c = false := hk
    have := h.keep (v := .unlock) hc (d := false) le_rfl (Or.inl rfl) (by simp [Pc.Knows]) trivial
    rwa [← hc] at this
  | mark p hp =>
    obtain ⟨c, hc, -⟩ := h.owner hp trivial
    exact h.keep hc le_rfl (Or.inl rfl) rfl trivial
  | beginEven p hp _ =>
    obtain ⟨c, hc, hk⟩ := h.owner hp trivial
    have := h.keep (v := .beginAdd) hc (d := c) le_rfl (Or.inl rfl) hk trivial
    rwa [← hc] at this
  | beginOdd p hp hodd =>
    obtain ⟨c, hc, -, heven⟩ := h.owner hp trivial
    exact absurd heven hodd
  | beginAdd p hp =>
    obtain ⟨c, hc, hk, heven⟩ := h.owner hp trivial
    have := h.keep (v := .body) hc (d := c) (Nat.le_succ _) (Or.inl rfl) ⟨hk, by omega⟩ trivial
    rwa [← hc] at this
  -- words change while the generation is odd, when no log of a reader has to agree
  | write p hp w v =>
    obtain ⟨c, hc, hk, hodd⟩ := h.owner hp trivial
    exact ⟨h.inside, h.held, h.free, fun q => (h.agrees q).mono le_rfl (Or.inr hodd)⟩
  | bodyEnds p hp =>
    obtain ⟨c, hc, hk⟩ := h.owner hp trivial
    have := h.keep (v := .endLoad false) hc (d := c) le_rfl (Or.inl rfl) hk trivial
    rwa [← hc] at this
  | @endOdd p r hp hodd =>
    obtain ⟨c, hc, hk⟩ := h.owner hp trivial
    have hcons : c = true := by cases r <;> [exact hk.1; exact hk]
    have := h.keep (v := .endAdd r) hc (d := c) le_rfl (Or.inl rfl) ⟨hcons, by omega⟩ trivial
    rwa [← hc] at this
  | @endEven p r hp heven =>
    obtain ⟨c, hc, hk⟩ := h.owner hp trivial
    have := h.keep (v := .afterEnd r) hc (d := c) le_rfl (Or.inl rfl) ?_ (by cases r <;> trivial)
    · rwa [← hc] at this
    · cases r with
      | false => exact fun _ => heven
      | true => exact ⟨hk, heven⟩
  | @endAdd p r hp =>
    obtain ⟨c, hc, hk, hodd⟩ := h.owner hp trivial
    have := h.keep (v := .afterEnd r) hc (d := c) (Nat.le_succ _) (Or.inl rfl) ?_ (by cases r <;> trivial)
    · rwa [← hc] at this
    · cases r with
      | false => exact fun _ => by omega
      | true => exact ⟨hk, by omega⟩
  -- given up in order the mutex is free, and then the generation is even
  | @unlock p c hp hm =>
    obtain ⟨d, hd, hk⟩ := h.owner hp trivial
    obtain rfl : c = d := by rw [hm] at hd; cases hd; rfl
    refine h.drop hm (fun q d => ?_) (fun hfree => ?_) id trivial
    · cases c <;> simp
    · cases c with
      | true => exact hk rfl
      | false => simp at hfree
  | die p _ => exact h.die
  | snapshot p hp => exact h.stay (by simp [hp, Pc.Inside]) id trivial
  | waitEven p hp heven => exact h.stay (by simp [hp, Pc.Inside]) id ⟨heven, le_rfl, by simp⟩
  | waitOdd p hp _ => exact h.stay (by simp [hp, Pc.Inside]) (by split <;> exact id) (by split <;> trivial)
  -- the word read joins the log, and is the word of now
  | @read p a g log hp w =>
    obtain ⟨h1, h2, h3⟩ : g%2 = 0 ∧ g ≤ s.generation ∧ (s.generation = g → ∀ r ∈ log, s.words r.1 = r.2) := by
      have := h.agrees p
      rwa [hp] at this
    refine h.stay (by simp [hp, Pc.Inside]) id ⟨h1, h2, fun heq r hr => ?_⟩
    rcases List.mem_cons.mp hr with rfl | hr
    · rfl
    · exact h3 heq r hr
  | readEnds p hp thrown =>
    have := h.agrees p
    rw [hp] at this
    exact h.stay (by simp [hp, Pc.Inside]) id this
  | stable p hp _ => exact h.stay (by simp [hp, Pc.Inside]) id trivial
  | changed p hp _ => exact h.stay (by simp [hp, Pc.Inside]) (by split <;> exact id) (by split <;> trivial)
  | leave p hp => exact h.stay (by simp [hp, Pc.Inside]) id trivial

end Inv

variable [DecidableEq W] {s s' : State P W V}

theorem Inv.reachable (h : (machine P W V).Reachable s) : Inv s := by
  refine h.invariant (fun s hs => ?_) fun s s' hinv hstep => hinv.step hstep
  obtain ⟨hm, heven, hidle⟩ := hs
  refine ⟨fun p hp => ?_, fun p c hc => ?_, fun _ => heven, fun p => ?_⟩
  · rw [hidle p] at hp
    exact hp.elim
  · rw [hm] at hc
    cases hc
  · rw [hidle p]
    trivial

/-- The only way to an answer is the comparison of generations at the end of an attempt. -/
theorem Step.answered {p : P} {log : List (W × V)} {thrown : Bool} (hs : Step s s')
    (hnot : s.pc p ≠ .answered log thrown) (hans : s'.pc p = .answered log thrown) :
    ∃ a, s.pc p = .validate a s.generation log thrown := by
  have hmove : ∀ {q : P} {v : Pc W V}, Function.update s.pc q v p = .answered log thrown →
      p = q ∧ v = .answered log thrown := by
    intro q v hv
    by_cases hpq : p = q
    · subst hpq
      rw [Function.update_self] at hv
      exact ⟨rfl, hv⟩
    · rw [Function.update_of_ne hpq] at hv
      exact absurd hv hnot
  cases hs with
  | @stable q a g log' thrown' hq hg =>
    obtain ⟨rfl, heq⟩ := hmove hans
    cases heq
    exact ⟨a, by rw [hq, hg]⟩
  | write q hq w v => exact absurd hans hnot
  | waitOdd q hq _ | changed q hq _ =>
    have heq := (hmove hans).2
    split at heq <;> cases heq
  | @endEven q r hq _ | @endAdd q r hq =>
    have heq := (hmove hans).2
    cases r <;> cases heq
  | _ => cases (hmove hans).2

/-- In every reachable state of any number of writers and readers: an attempt that is about to
return or rethrow has read nothing but words of the present memory, whose generation is even; and a
mutex that is free and usable comes with an even generation. -/
theorem snapshot_not_torn (h : (machine P W V).Reachable s) :
    (∀ s' p log thrown, Step s s' → s.pc p ≠ .answered log thrown → s'.pc p = .answered log thrown →
      s.generation%2 = 0 ∧ ∀ r ∈ log, s.words r.1 = r.2) ∧
    (s.mutex = .free → s.generation%2 = 0) := by
  have hinv := Inv.reachable h
  refine ⟨fun s' p log thrown hs hnot hans => ?_, hinv.free⟩
  obtain ⟨a, hp⟩ := hs.answered hnot hans
  have hag := hinv.agrees p
  rw [hp] at hag
  exact ⟨hag.1, hag.2.2 rfl⟩

/-- A reader whose first attempt is overtaken by a writer, and who returns what the second attempt has read. -/
theorem snapshot_not_torn_read : ∃ s s' : State (Fin 2) Unit Bool, Step s s' ∧ s'.pc 0 = .answered [((), false)] false ∧
    s.generation = 2 ∧ s.generation%2 = 0 ∧ (∀ r ∈ [((), false)], s.words r.1 = r.2) ∧ s.mutex = .free := by
  have hread : ∀ s : State (Fin 2) Unit Bool, (machine (Fin 2) Unit Bool).Reachable s → s.mutex = .free →
      s.pc 0 = .validate 1 2 [((), false)] false → s.generation = 2 → ∃ s s' : State (Fin 2) Unit Bool, Step s s' ∧
        s'.pc 0 = .answered [((), false)] false ∧ s.generation = 2 ∧ s.generation%2 = 0 ∧ (∀ r ∈ [((), false)], s.words r.1 = r.2) ∧
        s.mutex = .free := by
    intro s hs hm hp hg
    obtain ⟨heven, hlog⟩ := (snapshot_not_torn hs).1 _ 0 _ _ (.stable 0 hp hg) (by rw [hp]; simp) rfl
    exact ⟨s, _, .stable 0 hp hg, rfl, hg, heven, hlog, hm⟩
  have hstart : (machine (Fin 2) Unit Bool).Reachable ⟨.free, 0, fun _ => true, fun _ => .idle⟩ := .init ⟨rfl, rfl, fun _ => rfl⟩
  -- the first attempt reads the word that the writer is about to change
  have h₁ := hstart.step (.snapshot 0 rfl)
  have h₂ := h₁.step (.waitEven 0 (a := 0) (i := 0) rfl rfl)
  have h₃ := h₂.step (.read 0 (a := 0) (g := 0) rfl ())
  have h₄ := h₃.step (.readEnds 0 (a := 0) (g := 0) rfl false)
  have h₅ := h₄.step (.enter 1 rfl)
  have h₆ := h₅.step (.acquire 1 rfl rfl)
  have h₇ := h₆.step (.beginEven 1 rfl rfl)
  have h₈ := h₇.step (.beginAdd 1 rfl)
  have h₉ := h₈.step (.write 1 rfl () false)
  have h₁₀ := h₉.step (.bodyEnds 1 rfl)
  have h₁₁ := h₁₀.step (.endOdd 1 (r := false) rfl (by decide))
  have h₁₂ := h₁₁.step (.endAdd 1 (r := false) rfl)
  have h₁₃ := h₁₂.step (.unlock 1 (c := true) rfl rfl)
  -- the generation has moved on: the second attempt
  have h₁₄ := h₁₃.step (.changed 0 (a := 0) (g := 0) rfl (by decide))
  have h₁₅ := h₁₄.step (.waitEven 0 (a := 1) (i := 0) rfl rfl)
  have h₁₆ := h₁₅.step (.read 0 (a := 1) (g := 2) rfl ())
  have h₁₇ := h₁₆.step (.readEnds 0 (a := 1) (g := 2) rfl false)
  exact hread _ h₁₇ rfl rfl rfl

end ShmNext.Snapshot
