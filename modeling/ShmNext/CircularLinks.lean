import Mathlib.Data.List.Chain
import Mathlib.Data.List.Nodup

/-! Nodes linked both ways in a circle through a sentinel. What is cut out of a circle, put into one, turned round or
given another sentinel is said once here, for any kind of nodes. -/
namespace ShmNext
variable {α : Type} {next next' prev prev' : α → α} {a b c f s s' x : α} {l l' as bs cs es fs xs ys : List α}

/-- `b` comes after `a`, and `a` before `b`. -/
def LinkedPair (next prev : α → α) (a b : α) : Prop := next a = b ∧ prev b = a

/-- Each node is linked to the one after it. -/
def LinkedRow (next prev : α → α) (l : List α) : Prop := l.IsChain (LinkedPair next prev)

/-- From the sentinel `s` through `xs` and back. -/
def Circular (next prev : α → α) (s : α) (xs : List α) : Prop := LinkedRow next prev (s :: (xs ++ [s]))

namespace LinkedRow

theorem append_iff : LinkedRow next prev (as ++ bs) ↔
    LinkedRow next prev as ∧ LinkedRow next prev bs ∧ ∀ x ∈ as.getLast?, ∀ y ∈ bs.head?, LinkedPair next prev x y := List.isChain_append

/-- Links that stay, out of all nodes but the last and into all but the first. -/
theorem congr (h : LinkedRow next prev l) (hn : ∀ x ∈ l.dropLast, next' x = next x) (hp : ∀ x ∈ l.tail, prev' x = prev x) :
    LinkedRow next' prev' l := by
  induction l with
  | nil => exact List.IsChain.nil
  | cons a l ih =>
    cases l with
    | nil => exact List.IsChain.singleton a
    | cons b l =>
      obtain ⟨hab, hl⟩ := List.isChain_cons_cons.mp h
      refine List.isChain_cons_cons.mpr ⟨⟨?_, ?_⟩, ih hl (fun x hx => hn x (List.mem_cons_of_mem a hx)) fun x hx => ?_⟩
      · rw [hn a List.mem_cons_self]
        exact hab.1
      · rw [hp b List.mem_cons_self]
        exact hab.2
      · exact hp x (List.mem_cons_of_mem b hx)

/-- Seen from the other end. -/
theorem reverse (h : LinkedRow next prev l) : LinkedRow prev next l.reverse := by
  refine List.isChain_reverse.mpr (List.IsChain.imp (fun a b hab => ?_) h)
  exact ⟨hab.2, hab.1⟩

end LinkedRow

theorem mem_dropLast_concat_ne (hnd : (l ++ [a]).Nodup) (hx : x ∈ l) : x ≠ a := by
  intro heq
  exact (List.nodup_append.mp hnd).2.2 x hx a List.mem_cons_self heq

theorem getLastD_mem (xs : List α) (s : α) : xs.getLastD s ∈ s :: xs := by
  rcases List.eq_nil_or_concat xs with rfl | ⟨l, a, rfl⟩
  · exact List.mem_cons_self
  · rw [List.concat_eq_append, List.getLastD_concat]
    simp

theorem headD_mem (xs : List α) (s : α) : xs.headD s ∈ s :: xs := by
  cases xs with
  | nil => exact List.mem_cons_self
  | cons x xs => exact List.mem_cons_of_mem s List.mem_cons_self

/-- From the sentinel on, all links stay but the one out of the last node. -/
theorem LinkedRow.congr_first (h : LinkedRow next prev (s :: as)) (hnd : (s :: as).Nodup)
    (hn : ∀ x ∈ s :: as, x ≠ as.getLastD s → next' x = next x) (hp : ∀ x ∈ as, prev' x = prev x) : LinkedRow next' prev' (s :: as) := by
  have hsplit : (s :: as).dropLast ++ [as.getLastD s] = s :: as := by
    refine List.dropLast_append_getLast? _ ?_
    rw [Option.mem_def, List.getLast?_cons, List.getLastD_eq_getLast?]
  refine h.congr (fun x hx => hn x (List.dropLast_subset _ hx) ?_) hp
  rw [← hsplit] at hnd
  exact mem_dropLast_concat_ne hnd hx

/-- Up to the sentinel, all links stay but the one back from the first node. -/
theorem LinkedRow.congr_last (h : LinkedRow next prev (bs ++ [s])) (hnd : (bs ++ [s]).Nodup)
    (hn : ∀ x ∈ bs, next' x = next x) (hp : ∀ x ∈ bs ++ [s], x ≠ bs.headD s → prev' x = prev x) : LinkedRow next' prev' (bs ++ [s]) := by
  refine h.congr (fun x hx => ?_) fun x hx => hp x (List.mem_of_mem_tail hx) ?_
  · rw [List.dropLast_concat] at hx
    exact hn x hx
  · intro heq
    cases bs with
    | nil => cases hx
    | cons a bs =>
      rw [List.headD_cons] at heq
      exact (List.nodup_cons.mp hnd).1 (heq ▸ hx)

namespace Circular

theorem nil_iff : Circular next prev s [] ↔ next s = s ∧ prev s = s := by
  unfold Circular LinkedRow LinkedPair
  rw [List.nil_append, List.isChain_pair]

/-- A circle is cut open at any place. -/
theorem split_iff : Circular next prev s (as ++ bs) ↔
    LinkedRow next prev (s :: as) ∧ LinkedRow next prev (bs ++ [s]) ∧ LinkedPair next prev (as.getLastD s) (bs.headD s) := by
  have hassoc : s :: (as ++ bs ++ [s]) = (s :: as) ++ (bs ++ [s]) := by simp
  unfold Circular
  rw [hassoc, LinkedRow.append_iff, List.getLast?_cons, List.head?_concat, ← List.getLastD_eq_getLast?,
    ← List.headD_eq_head?_getD]
  simp

/-- What follows a place, and what comes before it. -/
theorem pair (h : Circular next prev s (as ++ bs)) : LinkedPair next prev (as.getLastD s) (bs.headD s) := (split_iff.mp h).2.2

theorem next_sentinel (h : Circular next prev s xs) : next s = xs.headD s := by
  rw [← List.nil_append xs] at h
  exact h.pair.1

theorem prev_sentinel (h : Circular next prev s xs) : prev s = xs.getLastD s := by
  rw [← List.append_nil xs] at h
  exact h.pair.2

theorem congr (h : Circular next prev s xs) (hn : ∀ x ∈ s :: xs, next' x = next x) (hp : ∀ x ∈ s :: xs, prev' x = prev x) :
    Circular next' prev' s xs := by
  refine LinkedRow.congr h (fun x hx => hn x ?_) fun x hx => hp x ?_
  · rw [← List.cons_append, List.dropLast_concat] at hx
    exact hx
  · rcases List.mem_append.mp hx with hx | hx
    · exact List.mem_cons_of_mem s hx
    · rw [List.mem_singleton.mp hx]
      exact List.mem_cons_self

/-- The same circle the other way round. -/
theorem reverse (h : Circular next prev s xs) : Circular prev next s xs.reverse := by
  have hrow := LinkedRow.reverse h
  rwa [List.reverse_cons, List.reverse_append, List.reverse_singleton, List.singleton_append] at hrow

theorem nodup_first (hnd : (s :: (as ++ bs)).Nodup) : (s :: as).Nodup :=
  hnd.sublist (List.Sublist.cons_cons s (List.sublist_append_left _ _))

theorem nodup_last (hnd : (s :: (as ++ bs)).Nodup) : (bs ++ [s]).Nodup :=
  (List.perm_append_singleton s bs).symm.nodup (hnd.sublist (List.Sublist.cons_cons s (List.sublist_append_right _ _)))

/-- The circle is closed elsewhere: what comes before and what comes behind stay as they are. -/
theorem join (has : LinkedRow next prev (s :: as)) (hbs : LinkedRow next prev (bs ++ [s])) (hnd : (s :: (as ++ bs)).Nodup)
    (hpair : LinkedPair next' prev' (as.getLastD s) (bs.headD s))
    (hn : ∀ x ∈ s :: (as ++ bs), x ≠ as.getLastD s → next' x = next x)
    (hp : ∀ x ∈ s :: (as ++ bs), x ≠ bs.headD s → prev' x = prev x) : Circular next' prev' s (as ++ bs) := by
  have hlast := getLastD_mem as s
  have hhead := headD_mem bs s
  refine split_iff.mpr ⟨has.congr_first (nodup_first hnd) (fun x hx => hn x ?_) fun x hx => hp x ?_ ?_,
    hbs.congr_last (nodup_last hnd) (fun x hx => hn x ?_ ?_) fun x hx => hp x ?_, hpair⟩
  all_goals grind [List.nodup_cons, List.nodup_append]

/-- The part `fs` is cut out: what was before it is linked to what was behind it. -/
theorem cut (fs : List α) (h : Circular next prev s (as ++ (fs ++ bs))) (hnd : (s :: (as ++ (fs ++ bs))).Nodup)
    (hpair : LinkedPair next' prev' (as.getLastD s) (bs.headD s)) (hn : ∀ x, x ∉ fs → x ≠ as.getLastD s → next' x = next x)
    (hp : ∀ x, x ∉ fs → x ≠ bs.headD s → prev' x = prev x) : Circular next' prev' s (as ++ bs) := by
  have hfirst := (split_iff.mp h).1
  rw [← List.append_assoc] at h
  have hlast := (split_iff.mp h).2.1
  have hfs : ∀ x ∈ s :: (as ++ bs), x ∉ fs := by
    intro x hx
    grind [List.nodup_cons, List.nodup_append]
  have hnd' : (s :: (as ++ bs)).Nodup :=
    hnd.sublist (List.Sublist.cons_cons s (List.Sublist.append_left (List.sublist_append_right _ _) _))
  exact join hfirst hlast hnd' hpair (fun x hx => hn x (hfs x hx)) fun x hx => hp x (hfs x hx)

/-- The part that is cut out stays a row. -/
theorem cut_row (h : Circular next prev s (as ++ (fs ++ bs))) (hnd : (s :: (as ++ (fs ++ bs))).Nodup)
    (hn : ∀ x, x ≠ as.getLastD s → next' x = next x) (hp : ∀ x, x ≠ bs.headD s → prev' x = prev x) : LinkedRow next' prev' fs := by
  have hrow : LinkedRow next prev fs := by
    have h' := (split_iff.mp h).2.1
    rw [List.append_assoc] at h'
    exact (LinkedRow.append_iff.mp h').1
  have hlast := getLastD_mem as s
  have hhead := headD_mem bs s
  have hout : ∀ x ∈ fs, x ≠ as.getLastD s ∧ x ≠ bs.headD s := by
    intro x hx
    constructor
    all_goals grind [List.nodup_cons, List.nodup_append]
  refine hrow.congr (fun x hx => ?_) fun x hx => ?_
  · exact hn x (hout x (List.dropLast_subset _ hx)).1
  · exact hp x (hout x (List.mem_of_mem_tail hx)).2

/-- A row `fs` is put in. -/
theorem paste (h : Circular next prev s (as ++ bs)) (hrow : LinkedRow next prev fs) (hnd : (s :: (as ++ (fs ++ bs))).Nodup)
    (ha : fs.head? = some a) (hb : fs.getLast? = some b) (hbefore : LinkedPair next' prev' (as.getLastD s) a)
    (hbehind : LinkedPair next' prev' b (bs.headD s)) (hn : ∀ x, x ≠ as.getLastD s → x ≠ b → next' x = next x)
    (hp : ∀ x, x ≠ a → x ≠ bs.headD s → prev' x = prev x) : Circular next' prev' s (as ++ (fs ++ bs)) := by
  obtain ⟨hfirst, hlast, -⟩ := split_iff.mp h
  have hbmem : b ∈ fs := List.mem_of_getLast? hb
  have hamem : a ∈ fs := List.mem_of_head? ha
  have hsplit := List.dropLast_append_getLast? _ hb
  obtain ⟨ms, rfl⟩ : ∃ ms, fs = a :: ms := by
    cases fs with
    | nil => cases ha
    | cons x ms => exact ⟨ms, by rw [List.head?_cons] at ha; rw [Option.some.inj ha]⟩
  have hlastmem := getLastD_mem as s
  have hheadmem := headD_mem bs s
  -- the row keeps its links inside
  have hrow' : LinkedRow next' prev' (a :: ms) := by
    refine hrow.congr (fun x hx => hn x ?_ ?_) fun x hx => hp x ?_ ?_
    · have := List.dropLast_subset _ hx
      grind [List.nodup_cons, List.nodup_append]
    · refine mem_dropLast_concat_ne ?_ hx
      rw [hsplit]
      exact hnd.sublist ((List.sublist_append_left _ _).trans ((List.sublist_append_right _ _).trans (List.sublist_cons_self _ _)))
    · rw [List.tail_cons] at hx
      grind [List.nodup_cons, List.nodup_append]
    · rw [List.tail_cons] at hx
      grind [List.nodup_cons, List.nodup_append]
  have hfirst' : LinkedRow next' prev' (s :: as) := by
    refine hfirst.congr_first (nodup_first hnd) (fun x hx hne => hn x hne ?_) fun x hx => hp x ?_ ?_
    all_goals grind [List.nodup_cons, List.nodup_append]
  have hlast' : LinkedRow next' prev' (bs ++ [s]) := by
    rw [← List.append_assoc] at hnd
    refine hlast.congr_last (nodup_last hnd) (fun x hx => hn x ?_ ?_) fun x hx hne => hp x ?_ hne
    all_goals grind [List.nodup_cons, List.nodup_append]
  refine split_iff.mpr ⟨hfirst', ?_, hbefore⟩
  rw [List.append_assoc, LinkedRow.append_iff, hb, List.head?_concat, ← List.headD_eq_head?_getD]
  refine ⟨hrow', hlast', ?_⟩
  simp only [Option.mem_some_iff]
  rintro x rfl y rfl
  exact hbehind

/-- The part `fs` goes from the circle of `s'` to the place before `bs` in that of `s`, which may be the same. -/
theorem transfer [DecidableEq α] {nx pv : α → α} (h : Circular next prev s' (cs ++ (fs ++ es))) (hnd : (s' :: (cs ++ (fs ++ es))).Nodup)
    (hnd' : (s :: (as ++ (fs ++ bs))).Nodup) (ha : fs.head? = some a) (hb : fs.getLast? = some b)
    (hs : s = s' ∧ as ++ bs = cs ++ es ∨ Circular next prev s (as ++ bs) ∧ ∀ x ∈ s :: (as ++ bs), x ∉ s' :: (cs ++ (fs ++ es)))
    (hnx : nx = Function.update next (cs.getLastD s') (es.headD s')) (hpv : pv = Function.update prev (es.headD s') (cs.getLastD s')) :
    pv (bs.headD s) = as.getLastD s ∧
      Circular (Function.update (Function.update nx (as.getLastD s) a) b (bs.headD s))
        (Function.update (Function.update pv a (as.getLastD s)) (bs.headD s) b) s (as ++ (fs ++ bs)) ∧
      (s ≠ s' → Circular (Function.update (Function.update nx (as.getLastD s) a) b (bs.headD s))
        (Function.update (Function.update pv a (as.getLastD s)) (bs.headD s) b) s' (cs ++ es)) := by
  have hn : ∀ x, x ≠ cs.getLastD s' → nx x = next x := fun x hx => by rw [hnx, Function.update_of_ne hx]
  have hp : ∀ x, x ≠ es.headD s' → pv x = prev x := fun x hx => by rw [hpv, Function.update_of_ne hx]
  -- the range is cut out
  have hcut : Circular nx pv s' (cs ++ es) := by
    refine h.cut fs hnd ⟨?_, ?_⟩ (fun x _ hx => hn x hx) fun x _ hx => hp x hx
    · rw [hnx, Function.update_self]
    · rw [hpv, Function.update_self]
  have hrow := h.cut_row hnd hn hp
  have hlast := getLastD_mem cs s'
  have hhead := headD_mem es s'
  have hopen : Circular nx pv s (as ++ bs) := by
    rcases hs with ⟨rfl, heq⟩ | ⟨hcircle, hapart⟩
    · rwa [heq]
    · refine hcircle.congr (fun x hx => hn x fun heq => hapart x hx ?_) fun x hx => hp x fun heq => hapart x hx ?_
      · rw [heq]
        grind
      · rw [heq]
        grind
  have hamem := List.mem_of_head? ha
  have hbmem := List.mem_of_getLast? hb
  have hlast' := getLastD_mem as s
  have hhead' := headD_mem bs s
  have hba : b ≠ as.getLastD s ∧ a ≠ bs.headD s := by
    constructor
    all_goals grind [List.nodup_cons, List.nodup_append]
  refine ⟨hopen.pair.2, ?_, fun hne => ?_⟩
  · refine hopen.paste hrow hnd' ha hb ⟨?_, ?_⟩ ⟨?_, ?_⟩ (fun x h1 h2 => ?_) fun x h1 h2 => ?_
    · rw [Function.update_of_ne hba.1.symm, Function.update_self]
    · rw [Function.update_of_ne hba.2, Function.update_self]
    · exact Function.update_self ..
    · exact Function.update_self ..
    · rw [Function.update_of_ne h2, Function.update_of_ne h1]
    · rw [Function.update_of_ne h2, Function.update_of_ne h1]
  · -- the other circle is not touched any more
    have hapart := (hs.resolve_left fun hcon => hne hcon.1).2
    have hout : ∀ x ∈ s' :: (cs ++ es), x ≠ as.getLastD s ∧ x ≠ b ∧ x ≠ a ∧ x ≠ bs.headD s := by
      intro x hx
      have h₁ := hapart (as.getLastD s) (by grind)
      have h₂ := hapart (bs.headD s) (by grind)
      refine ⟨?_, ?_, ?_, ?_⟩
      all_goals grind [List.nodup_cons, List.nodup_append]
    refine hcut.congr (fun x hx => ?_) fun x hx => ?_
    · rw [Function.update_of_ne (hout x hx).2.1, Function.update_of_ne (hout x hx).1]
    · rw [Function.update_of_ne (hout x hx).2.2.2, Function.update_of_ne (hout x hx).2.2.1]

/-- A row is closed through the sentinel. -/
theorem of_row (h : LinkedRow next prev xs) (ha : xs.head? = some a) (hb : xs.getLast? = some b) (hbefore : LinkedPair next prev s a)
    (hbehind : LinkedPair next prev b s) : Circular next prev s xs := by
  unfold Circular
  rw [← List.singleton_append, LinkedRow.append_iff, LinkedRow.append_iff, hb]
  refine ⟨List.IsChain.singleton s, ⟨h, List.IsChain.singleton s, ?_⟩, ?_⟩
  · simp only [Option.mem_some_iff, List.head?_cons]
    rintro x rfl y rfl
    exact hbehind
  · rw [List.head?_append, ha]
    simp only [Option.mem_some_iff, List.getLast?_singleton, Option.some_or]
    rintro x rfl y rfl
    exact hbefore

theorem dropLast_ne_last (hnd : xs.Nodup) (hb : xs.getLast? = some b) (hx : x ∈ xs.dropLast) : x ≠ b := by
  have hsplit := List.dropLast_append_getLast? _ hb
  refine mem_dropLast_concat_ne ?_ hx
  rwa [hsplit]

theorem tail_ne_head (hnd : xs.Nodup) (ha : xs.head? = some a) (hx : x ∈ xs.tail) : x ≠ a := by
  cases xs with
  | nil => cases ha
  | cons y ms =>
    rw [List.head?_cons] at ha
    rw [List.tail_cons] at hx
    grind [List.nodup_cons]

end Circular

end ShmNext
