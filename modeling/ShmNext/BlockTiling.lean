import Mathlib.Data.List.Chain
import Mathlib.Data.List.Nodup
import Mathlib.Data.List.Perm.Subperm
import Mathlib.Data.List.TakeWhile
import Mathlib.Data.Nat.Notation
import Mathlib.Tactic.Ring

/-! What the block allocator maintains, without the memory: a run of blocks that
tiles an address range, and a free list ordered by size and then address. -/
namespace ShmNext

structure Block where
  addr : ℕ
  size : ℕ
  free : Bool
  deriving DecidableEq, Repr

namespace Block

/-- The first address after the block. -/
def stop (b : Block) : ℕ := b.addr+b.size

def SizeAddrLt (x y : Block) : Prop := x.size < y.size ∨ (x.size = y.size ∧ x.addr < y.addr)

instance (x y : Block) : Decidable (SizeAddrLt x y) :=
  inferInstanceAs (Decidable (_ ∨ _))

theorem SizeAddrLt.trans {x y z : Block} (h : SizeAddrLt x y) (h' : SizeAddrLt y z) :
    SizeAddrLt x z := by
  unfold SizeAddrLt at *
  omega

theorem SizeAddrLt.irrefl (x : Block) : ¬ SizeAddrLt x x := by
  unfold SizeAddrLt
  omega

theorem SizeAddrLt.of_not {x y : Block} (h : ¬ SizeAddrLt x y) (hne : x.addr ≠ y.addr) :
    SizeAddrLt y x := by
  unfold SizeAddrLt at *
  omega

end Block

/-- The blocks follow one another from `a` to `e`, with sizes the allocator can produce. -/
def Tiles : ℕ → ℕ → List Block → Prop
  | a, e, [] => a = e
  | a, e, b :: bs => b.addr = a ∧ 32 ≤ b.size ∧ b.size%16 = 0 ∧ Tiles (a+b.size) e bs

/-- No two neighbours are both free. -/
def Coalesced (bs : List Block) : Prop := bs.IsChain fun x y => ¬(x.free = true ∧ y.free = true)

namespace Tiles
variable {a e : ℕ} {b b' : Block} {bs xs ys : List Block}

@[simp] theorem nil_iff : Tiles a e [] ↔ a = e := Iff.rfl

@[simp] theorem cons_iff : Tiles a e (b :: bs) ↔
    b.addr = a ∧ 32 ≤ b.size ∧ b.size%16 = 0 ∧ Tiles (a+b.size) e bs := Iff.rfl

theorem append_iff : Tiles a e (xs ++ ys) ↔ ∃ m, Tiles a m xs ∧ Tiles m e ys := by
  induction xs generalizing a with
  | nil => simp
  | cons b xs ih =>
    simp only [List.cons_append, cons_iff, ih]
    constructor
    · rintro ⟨h1, h2, h3, m, hx, hy⟩; exact ⟨m, ⟨h1, h2, h3, hx⟩, hy⟩
    · rintro ⟨m, ⟨h1, h2, h3, hx⟩, hy⟩; exact ⟨h1, h2, h3, m, hx, hy⟩

theorem append {m : ℕ} (hx : Tiles a m xs) (hy : Tiles m e ys) : Tiles a e (xs ++ ys) :=
  append_iff.mpr ⟨m, hx, hy⟩

theorem le (h : Tiles a e bs) : a ≤ e := by
  induction bs generalizing a with
  | nil => exact Nat.le_of_eq h
  | cons b bs ih => have := ih h.2.2.2; omega

theorem bounds (h : Tiles a e bs) (hb : b ∈ bs) :
    a ≤ b.addr ∧ b.stop ≤ e ∧ 32 ≤ b.size ∧ b.size%16 = 0 := by
  induction bs generalizing a with
  | nil => exact (List.not_mem_nil hb).elim
  | cons c bs ih =>
    obtain ⟨h1, h2, h3, h4⟩ := h
    rcases List.mem_cons.mp hb with rfl | hb
    · exact ⟨h1.ge, by have := h4.le; unfold Block.stop; omega, h2, h3⟩
    · obtain ⟨g1, g2, g3, g4⟩ := ih h4 hb
      exact ⟨by omega, g2, g3, g4⟩

theorem aligned (h : Tiles a e bs) (ha : a%16 = 0) (hb : b ∈ bs) : b.addr%16 = 0 := by
  induction bs generalizing a with
  | nil => exact (List.not_mem_nil hb).elim
  | cons c bs ih =>
    obtain ⟨h1, h2, h3, h4⟩ := h
    rcases List.mem_cons.mp hb with rfl | hb
    · omega
    · exact ih h4 (by omega) hb

theorem end_aligned (h : Tiles a e bs) (ha : a%16 = 0) : e%16 = 0 := by
  induction bs generalizing a with
  | nil => rw [← nil_iff.mp h]; exact ha
  | cons c bs ih =>
    obtain ⟨h1, h2, h3, h4⟩ := h
    exact ih h4 (by omega)

theorem length_le (h : Tiles a e bs) : 32*bs.length+a ≤ e := by
  induction bs generalizing a with
  | nil => simpa using Nat.le_of_eq h
  | cons c bs ih =>
    have := ih h.2.2.2
    have := h.2.1
    simp only [List.length_cons]
    omega

theorem separated (h : Tiles a e bs) (hb : b ∈ bs) (hb' : b' ∈ bs) :
    b = b' ∨ b.stop ≤ b'.addr ∨ b'.stop ≤ b.addr := by
  induction bs generalizing a with
  | nil => exact (List.not_mem_nil hb).elim
  | cons c bs ih =>
    obtain ⟨h1, h2, h3, h4⟩ := h
    rcases List.mem_cons.mp hb with hbc | ht
    · rcases List.mem_cons.mp hb' with hbc' | ht'
      · exact Or.inl (hbc.trans hbc'.symm)
      · exact Or.inr (Or.inl (by have := (h4.bounds ht').1; unfold Block.stop; subst hbc; omega))
    · rcases List.mem_cons.mp hb' with hbc' | ht'
      · exact Or.inr (Or.inr (by have := (h4.bounds ht).1; unfold Block.stop; subst hbc'; omega))
      · exact ih h4 ht ht'

/-- A block is determined by any address it contains. -/
theorem eq_of_overlap (h : Tiles a e bs) (hb : b ∈ bs) (hb' : b' ∈ bs) {x : ℕ}
    (hx : b.addr ≤ x) (hx' : x < b.stop) (hy : b'.addr ≤ x) (hy' : x < b'.stop) : b = b' := by
  rcases h.separated hb hb' with heq | hs | hs
  · exact heq
  · omega
  · omega

theorem eq_of_addr (h : Tiles a e bs) (hb : b ∈ bs) (hb' : b' ∈ bs) (heq : b.addr = b'.addr) :
    b = b' := by
  have h1 := h.bounds hb
  have h2 := h.bounds hb'
  exact h.eq_of_overlap hb hb' (x := b.addr) le_rfl (by unfold Block.stop; omega) heq.ge
    (by unfold Block.stop; omega)

theorem nodup (h : Tiles a e bs) : bs.Nodup := by
  induction bs generalizing a with
  | nil => exact List.nodup_nil
  | cons c bs ih =>
    obtain ⟨h1, h2, h3, h4⟩ := h
    refine List.nodup_cons.mpr ⟨fun hc => ?_, ih h4⟩
    have := (h4.bounds hc).1
    omega

theorem split (h : Tiles a e bs) (hb : b ∈ bs) :
    ∃ xs ys, bs = xs ++ b :: ys ∧ Tiles a b.addr xs ∧ Tiles b.stop e ys := by
  obtain ⟨xs, ys, rfl⟩ := List.append_of_mem hb
  obtain ⟨m, hx, hy⟩ := append_iff.mp h
  obtain ⟨rfl, h2, h3, h4⟩ := hy
  exact ⟨xs, ys, rfl, hx, h4⟩

theorem middle (h : Tiles a e (xs ++ b :: ys)) : Tiles a b.addr xs ∧ Tiles b.stop e ys := by
  obtain ⟨m, hx, hy⟩ := append_iff.mp h
  obtain ⟨rfl, h2, h3, h4⟩ := hy
  exact ⟨hx, h4⟩

/-- The tilings of two ranges from one start that agree block by block as far as the shorter goes. -/
theorem prefix_unique {e' : ℕ} {cs : List Block} (h : Tiles a e bs) (h' : Tiles a e' cs) (hle : e ≤ e')
    (hag : ∀ b ∈ bs, ∀ c ∈ cs, b.addr = c.addr → b = c) : ∃ ds, cs = bs ++ ds ∧ Tiles e e' ds := by
  induction bs generalizing a cs with
  | nil => exact ⟨cs, rfl, by rw [← nil_iff.mp h]; exact h'⟩
  | cons b bs ih =>
    obtain ⟨h1, h2, h3, h4⟩ := h
    cases cs with
    | nil => have := h4.le; have := nil_iff.mp h'; omega
    | cons c cs =>
      have hbc : b = c := hag b List.mem_cons_self c List.mem_cons_self (h1.trans h'.1.symm)
      subst hbc
      obtain ⟨ds, rfl, hd⟩ := ih h4 h'.2.2.2
        (fun x hx y hy => hag x (List.mem_cons_of_mem _ hx) y (List.mem_cons_of_mem _ hy))
      exact ⟨ds, rfl, hd⟩

end Tiles

namespace Coalesced
variable {b : Block} {bs xs ys : List Block}

theorem append_iff : Coalesced (xs ++ ys) ↔ Coalesced xs ∧ Coalesced ys ∧
    ∀ x ∈ xs.getLast?, ∀ y ∈ ys.head?, ¬(x.free = true ∧ y.free = true) :=
  List.isChain_append

theorem left (h : Coalesced (xs ++ ys)) : Coalesced xs := (append_iff.mp h).1

theorem right (h : Coalesced (xs ++ ys)) : Coalesced ys := (append_iff.mp h).2.1

theorem of_allocated (h : ∀ b ∈ bs, b.free = false) : Coalesced bs := by
  unfold Coalesced
  induction bs with
  | nil => exact List.isChain_nil
  | cons b bs ih =>
    rw [List.isChain_cons]
    refine ⟨fun y hy => ?_, ih (fun c hc => h c (List.mem_cons_of_mem _ hc))⟩
    simp [h b List.mem_cons_self]

theorem append_allocated (h : Coalesced xs) (hy : ∀ b ∈ ys, b.free = false) : Coalesced (xs ++ ys) := by
  refine append_iff.mpr ⟨h, of_allocated hy, ?_⟩
  intro x _ y hyy
  simp [hy y (List.mem_of_mem_head? hyy)]

/-- An allocated block in the middle separates its two sides. -/
theorem allocated_middle (hb : b.free = false) :
    Coalesced (xs ++ b :: ys) ↔ Coalesced xs ∧ Coalesced ys := by
  constructor
  · intro h
    exact ⟨h.left, (List.isChain_cons.mp h.right).2⟩
  · rintro ⟨hx, hy⟩
    refine append_iff.mpr ⟨hx, List.isChain_cons.mpr ⟨fun y _ => by simp [hb], hy⟩, ?_⟩
    intro x _ y hyy
    rw [List.head?_cons, Option.mem_some_iff] at hyy
    simp [← hyy, hb]

/-- A free block may stand in the middle exactly between allocated neighbours. -/
theorem free_middle (hb : b.free = true) : Coalesced (xs ++ b :: ys) ↔ Coalesced xs ∧ Coalesced ys ∧
    (∀ x ∈ xs.getLast?, x.free = false) ∧ ∀ y ∈ ys.head?, y.free = false := by
  rw [append_iff]
  unfold Coalesced
  rw [List.isChain_cons]
  simp only [List.head?_cons, Option.mem_some_iff, forall_eq', hb, and_true, true_and, Bool.not_eq_true]
  tauto

end Coalesced

/-- Where `insert_free_block` puts a block in a list ordered by size and address. -/
def insertBySize (n : Block) (l : List Block) : List Block :=
  l.takeWhile (fun x => decide (x.SizeAddrLt n)) ++ n :: l.dropWhile (fun x => decide (x.SizeAddrLt n))

theorem insertBySize_perm {n : Block} {l : List Block} : (insertBySize n l).Perm (n :: l) := by
  have h := List.takeWhile_append_dropWhile (p := fun x : Block => decide (x.SizeAddrLt n)) (l := l)
  conv_rhs => rw [← h]
  exact List.perm_middle

theorem mem_insertBySize {n b : Block} {l : List Block} : b ∈ insertBySize n l ↔ b = n ∨ b ∈ l :=
  insertBySize_perm.mem_iff.trans List.mem_cons

theorem insertBySize_sorted {n : Block} {l : List Block} (h : l.Pairwise Block.SizeAddrLt)
    (hn : ∀ b ∈ l, b.addr ≠ n.addr) : (insertBySize n l).Pairwise Block.SizeAddrLt := by
  have hl := List.takeWhile_append_dropWhile (p := fun x : Block => decide (x.SizeAddrLt n)) (l := l)
  have hmem : ∀ b ∈ l.dropWhile (fun x => decide (x.SizeAddrLt n)), b ∈ l := by
    intro b hb
    rw [← hl]
    exact List.mem_append_right _ hb
  rw [← hl] at h
  obtain ⟨h1, h2, h3⟩ := List.pairwise_append.mp h
  have hafter : ∀ v ∈ l.dropWhile (fun x => decide (x.SizeAddrLt n)), n.SizeAddrLt v := by
    cases hd : l.dropWhile (fun x => decide (x.SizeAddrLt n)) with
    | nil => intro v hv; exact (List.not_mem_nil hv).elim
    | cons w ws =>
      have hw : ¬ w.SizeAddrLt n := by
        have := List.head?_dropWhile_not (fun x : Block => decide (x.SizeAddrLt n)) l
        rw [hd] at this
        simpa using this
      have hnw : n.SizeAddrLt w := .of_not hw (hn w (hmem w (by rw [hd]; exact List.mem_cons_self)))
      rw [hd] at h2
      intro v hv
      rcases List.mem_cons.mp hv with rfl | hv
      · exact hnw
      · exact hnw.trans ((List.pairwise_cons.mp h2).1 v hv)
  refine List.pairwise_append.mpr ⟨h1, List.pairwise_cons.mpr ⟨hafter, h2⟩, ?_⟩
  intro u hu v hv
  have hun : u.SizeAddrLt n := by simpa using List.mem_takeWhile_imp hu
  rcases List.mem_cons.mp hv with rfl | hv
  · exact hun
  · exact h3 u hu v hv

end ShmNext
