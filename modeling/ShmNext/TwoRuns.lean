import ShmNext.StoreProgram

/-! Two programs side by side: how both end, and what then holds of their results and of
the two states they leave. -/
namespace ShmNext

namespace Prog
variable {σ ε α α' β β' : Type}

/-- From `s` and `s'` the programs end in the same way. Where both return, `Q` relates the results
and the states; where both throw the same error, or both run for ever, `E` relates the states. -/
inductive Paired (E : σ → σ → Prop) (p : Prog σ ε α) (p' : Prog σ ε α') (s s' : σ)
    (Q : α → α' → σ → σ → Prop) : Prop
  | ok (a : α) (a' : α') (t t' : σ) (run : p.run s = (.ok a, t)) (run' : p'.run s' = (.ok a', t')) (post : Q a a' t t')
  | error (e : ε) (t t' : σ) (run : p.run s = (.error e, t)) (run' : p'.run s' = (.error e, t')) (post : E t t')
  | hang (t t' : σ) (run : p.run s = (.hang, t)) (run' : p'.run s' = (.hang, t')) (post : E t t')

variable {E : σ → σ → Prop} {p : Prog σ ε α} {p' : Prog σ ε α'} {s s' : σ} {Q R : α → α' → σ → σ → Prop}

theorem paired_pure {a : α} {a' : α'} (h : Q a a' s s') :
    Paired E (pure a : Prog σ ε α) (pure a' : Prog σ ε α') s s' Q :=
  .ok a a' s s' rfl rfl h

theorem paired_throw {e : ε} (h : E s s') : Paired E (throw e : Prog σ ε α) (throw e : Prog σ ε α') s s' Q :=
  .error e s s' rfl rfl h

theorem paired_hang (h : E s s') : Paired E (hang : Prog σ ε α) (hang : Prog σ ε α') s s' Q :=
  .hang s s' rfl rfl h

theorem paired_store {f f' : σ → σ} {Q : Unit → Unit → σ → σ → Prop} (h : Q () () (f s) (f' s')) :
    Paired E (store f : Prog σ ε Unit) (store f') s s' Q :=
  .ok () () _ _ rfl rfl h

theorem paired_get_bind {f : σ → Prog σ ε α} {f' : σ → Prog σ ε α'} (h : Paired E (f s) (f' s') s s' Q) :
    Paired E (get >>= f) (get >>= f') s s' Q := by
  rcases h with ⟨a, a', t, t', hr, hr', hq⟩ | ⟨e, t, t', hr, hr', he⟩ | ⟨t, t', hr, hr', he⟩
  · exact .ok a a' t t' hr hr' hq
  · exact .error e t t' hr hr' he
  · exact .hang t t' hr hr' he

theorem Paired.bind {f : α → Prog σ ε β} {g : α' → Prog σ ε β'} {R : β → β' → σ → σ → Prop}
    (hp : Paired E p p' s s' Q) (hf : ∀ a a' t t', Q a a' t t' → Paired E (f a) (g a') t t' R) :
    Paired E (p >>= f) (p' >>= g) s s' R := by
  rcases hp with ⟨a, a', t, t', hr, hr', hq⟩ | ⟨e, t, t', hr, hr', he⟩ | ⟨t, t', hr, hr', he⟩
  · have h1 : (p >>= f).run s = (f a).run t := run_bind_ok hr f
    have h2 : (p' >>= g).run s' = (g a').run t' := run_bind_ok hr' g
    rcases hf a a' t t' hq with ⟨b, b', u, u', hu, hu', hR⟩ | ⟨e, u, u', hu, hu', he⟩ | ⟨u, u', hu, hu', he⟩
    · exact .ok b b' u u' (h1.trans hu) (h2.trans hu') hR
    · exact .error e u u' (h1.trans hu) (h2.trans hu') he
    · exact .hang u u' (h1.trans hu) (h2.trans hu') he
  · exact .error e t t' (run_bind_error hr f) (run_bind_error hr' g) he
  · refine .hang t t' ?_ ?_ he
    · rw [run_bind, hr]
    · rw [run_bind, hr']

theorem paired_store_bind {f f' : σ → σ} {k : Unit → Prog σ ε α} {k' : Unit → Prog σ ε α'}
    (h : Paired E (k ()) (k' ()) (f s) (f' s') Q) : Paired E (store f >>= k) (store f' >>= k') s s' Q :=
  (paired_store (Q := fun _ _ t t' => t = f s ∧ t' = f' s') ⟨rfl, rfl⟩).bind fun _ _ _ _ ht => by
    obtain ⟨rfl, rfl⟩ := ht
    exact h

theorem Paired.mono (hp : Paired E p p' s s' Q) (h : ∀ a a' t t', Q a a' t t' → R a a' t t') :
    Paired E p p' s s' R := by
  rcases hp with ⟨a, a', t, t', hr, hr', hq⟩ | ⟨e, t, t', hr, hr', he⟩ | ⟨t, t', hr, hr', he⟩
  · exact .ok a a' t t' hr hr' (h a a' t t' hq)
  · exact .error e t t' hr hr' he
  · exact .hang t t' hr hr' he

/-- What is known of a run of the first program alone may be added. -/
theorem Paired.and_runs (hp : Paired E p p' s s' Q) {C : σ → Prop} {P : α → σ → Prop} (h : p.Runs s C P) :
    Paired E p p' s s' fun a a' t t' => Q a a' t t' ∧ P a t := by
  obtain ⟨-, b, u, hu, hP⟩ := h
  rcases hp with ⟨a, a', t, t', hr, hr', hq⟩ | ⟨e, t, t', hr, hr', he⟩ | ⟨t, t', hr, hr', he⟩
  · rw [hu] at hr
    cases hr
    exact .ok b a' u t' hu hr' ⟨hq, hP⟩
  · rw [hu] at hr
    cases hr
  · rw [hu] at hr
    cases hr

end Prog

end ShmNext
