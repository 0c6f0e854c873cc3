import ShmNext.HeapSafety

/-! `allocate` takes the least free block, by size and address, that holds the payload
behind both headers and the padding its own address asks for. -/
namespace ShmNext
open Prog

variable {s : Allocator} {b d : Block} {bs l xs ys : List Block} {n al A : ℕ}

/-- Both headers, the padding and `size` bytes from `b` on, rounded up to the granule. -/
def exactTotal (b : Block) (size A : ℕ) : ℕ := (exactPayload b.addr A-b.addr+size+15)/16*16

/-- `b` is free and the payload ends inside it. -/
def CanHold (b : Block) (size A : ℕ) : Prop := b.free = true ∧ exactTotal b size A ≤ b.size

instance (b : Block) (size A : ℕ) : Decidable (CanHold b size A) :=
  inferInstanceAs (Decidable (_ ∧ _))

/-- What the free block `b` becomes when `used` bytes of it are handed out: allocated whole
when the rest is too small for a block, else split. -/
def cutBlock (b : Block) (used : ℕ) : List Block :=
  if b.size-used < 32+16 then [⟨b.addr, b.size, false⟩]
  else [⟨b.addr, used, false⟩, ⟨b.addr+used, b.size-used, true⟩]

theorem handedOut_eq_cutBlock {used : ℕ} (hle : used ≤ b.size) :
    handedOut xs b used ys = xs ++ cutBlock b used ++ ys := by
  unfold handedOut lowPart restPart cutBlock
  by_cases hsmall : b.size-used < 32+16
  · have hlt : b.size < used+48 := by omega
    simp only [if_pos hsmall, if_pos hlt, List.nil_append, List.append_assoc, List.singleton_append]
  · have hlt : ¬ b.size < used+48 := by omega
    simp only [if_neg hsmall, if_neg hlt, List.cons_append, List.nil_append, List.append_assoc]

/-- In a list ordered by `R`, the first element that passes a test comes before all others
that do. -/
theorem find?_least {α : Type*} {R : α → α → Prop} {p : α → Bool} {l : List α} {a c : α} (hl : l.Pairwise R)
    (ha : l.find? p = some a) (hc : c ∈ l) (hp : p c = true) : c = a ∨ R a c := by
  obtain ⟨-, us, vs, rfl, hus⟩ := List.find?_eq_some_iff_append.mp ha
  rcases List.mem_append.mp hc with hc | hc
  · have := hus c hc
    simp [hp] at this
  rcases List.mem_cons.mp hc with rfl | hc
  · exact Or.inl rfl
  · exact Or.inr ((List.pairwise_cons.mp (List.pairwise_append.mp hl).2.1).1 c hc)

theorem makeLayout_exact (ha : normalizeAlignment al = some A) (hfit : LayoutFits b.addr n A) :
    (makeLayout b.addr n A).payload = exactPayload b.addr A ∧ (makeLayout b.addr n A).totalSize = exactTotal b n A := by
  obtain ⟨k, hk, hk', rfl, -⟩ := normalizeAlignment_some ha
  refine ⟨makeLayout_payload hk' hfit.1, ?_⟩
  have hle := (@exactPayload_spec b.addr k hk).1
  rw [makeLayout_totalSize hk hk' hfit]
  unfold exactTotal
  congr 2
  omega

/-- The test of the scan is whether the block holds the payload. -/
theorem Sane.fits_iff_canHold (h : Sane s bs l) (ha : normalizeAlignment al = some A) (hb : b ∈ bs)
    (hfit : b.free = true → LayoutFits b.addr n A) : fits s.mem n A b.addr = true ↔ CanHold b n A := by
  rw [h.fits_iff hb]
  unfold CanHold
  constructor <;> rintro ⟨hf, hle⟩
  · exact ⟨hf, (makeLayout_exact ha (hfit hf)).2 ▸ hle⟩
  · exact ⟨hf, (makeLayout_exact ha (hfit hf)).2.symm ▸ hle⟩

/-- No block holds the payload: `bad_alloc`, and only counters change. -/
theorem Sane.allocate_badAlloc (h : Sane s bs l) (hn : 0 < n) (ha : normalizeAlignment al = some A)
    (hfit : ∀ b ∈ bs, b.free = true → LayoutFits b.addr n A) (hno : ∀ b ∈ bs, ¬ CanHold b n A) :
    ∃ c, (allocate n al).run s = (.error (.interprocess .badAlloc), c) ∧ CountersOnly s c := by
  have hnone : ∀ b ∈ l, fits s.mem n A b.addr = false := by
    intro b hb
    have hbm := (h.linked.listed b hb).1
    rw [Bool.eq_false_iff, ne_eq, h.fits_iff_canHold ha hbm (hfit b hbm)]
    exact hno b hbm
  obtain ⟨-, e, c, hrun, rfl, hc⟩ := h.throws_allocate hn ha hnone
  exact ⟨c, hrun, hc⟩

/-- `b` holds the payload and is the least block that does. -/
def BestFit (bs : List Block) (n A : ℕ) (b : Block) : Prop :=
  CanHold b n A ∧ ∀ d ∈ bs, CanHold d n A → d = b ∨ b.SizeAddrLt d

/-- The best fit is handed out, and nothing outside the free blocks is written. -/
theorem WellFormed.allocate_takes (h : WellFormed s bs l) (hn : 0 < n) (ha : normalizeAlignment al = some A)
    (hfit : ∀ b ∈ bs, b.free = true → LayoutFits b.addr n A) (hd : d ∈ bs) (hcan : CanHold d n A) :
    ∃ xs b ys, bs = xs ++ b :: ys ∧ BestFit bs n A b ∧ ∃ c l',
      (allocate n al).run s = (.ok (exactPayload b.addr A), c) ∧
      WellFormed c (xs ++ cutBlock b (exactTotal b n A) ++ ys) l' ∧ ChangesOnly (InFree bs) s c ∧
      HeaderNames c.mem (exactPayload b.addr A) b.addr n := by
  have hiff : ∀ b ∈ bs, fits s.mem n A b.addr = true ↔ CanHold b n A := fun b hb =>
    h.toSane.fits_iff_canHold ha hb (hfit b hb)
  have hdl := h.exact d hd hcan.1
  cases hfind : l.find? (fun b => fits s.mem n A b.addr) with
  | none =>
    have := List.find?_eq_none.mp hfind d hdl
    exact absurd ((hiff d hd).mpr hcan) this
  | some b =>
    obtain ⟨hb, us, vs, rfl, hus⟩ := List.find?_eq_some_iff_append.mp hfind
    have hbl := h.linked.listed b (by simp)
    have hholds := (hiff b hbl.1).mp hb
    have hleast : ∀ d ∈ bs, CanHold d n A → d = b ∨ b.SizeAddrLt d := fun d hd hcan =>
      find?_least h.sorted hfind (h.exact d hd hcan.1) ((hiff d hd).mpr hcan)
    have hb64 := hfit b hbl.1 hbl.2
    obtain ⟨hpay, htotal⟩ := makeLayout_exact ha hb64
    have hn64 : n < 2^64 := lt_of_le_of_lt (Nat.le_add_left _ _) hb64.2.1
    obtain ⟨xs, ys, rfl⟩ := List.append_of_mem hbl.1
    -- the free blocks before `b` on the list do not hold the payload
    obtain ⟨-, p, c, hrun, rfl, hch, hc, hnames⟩ := h.toSane.runs_allocate hn hn64 ha (by simpa using hus) hb hb64
      (C := fun _ => True)
      (Q := fun p c => p = exactPayload b.addr A ∧ ChangesOnly (InFree (xs ++ b :: ys)) s c ∧
        WellFormed c (xs ++ cutBlock b (exactTotal b n A) ++ ys) (relist b (exactTotal b n A) (us ++ vs)) ∧
        HeaderNames c.mem (exactPayload b.addr A) b.addr n)
      (fun _ _ => trivial) fun c hch hc hnames => by
        rw [htotal] at hc
        have hwf := h.hand_out hc
        rw [handedOut_eq_cutBlock hholds.2] at hwf
        exact ⟨hpay, hch, hwf, hpay ▸ hnames⟩
    exact ⟨xs, b, ys, rfl, ⟨hholds, hleast⟩, c, _, hrun, hc, hch, hnames⟩

/-- `allocate` is exact best fit: it throws `bad_alloc` if and only if no block holds the
payload, and otherwise hands out the least block by size and address that does, whole or
split, with the other blocks as they were. -/
theorem allocate_best_fit (h : WellFormed s bs l) (hn : 0 < n) (ha : normalizeAlignment al = some A)
    (hfit : ∀ b ∈ bs, b.free = true → LayoutFits b.addr n A) :
    ((∃ c, (allocate n al).run s = (.error (.interprocess .badAlloc), c)) ↔ ∀ b ∈ bs, ¬ CanHold b n A) ∧
    ((∃ b ∈ bs, CanHold b n A) → ∃ xs b ys, bs = xs ++ b :: ys ∧ BestFit bs n A b ∧ ∃ c l',
      (allocate n al).run s = (.ok (exactPayload b.addr A), c) ∧
      WellFormed c (xs ++ cutBlock b (exactTotal b n A) ++ ys) l' ∧ ChangesOnly (InFree bs) s c ∧
      HeaderNames c.mem (exactPayload b.addr A) b.addr n) := by
  refine ⟨⟨?_, ?_⟩, fun ⟨d, hd, hcan⟩ => h.allocate_takes hn ha hfit hd hcan⟩
  · rintro ⟨c, hthrow⟩ d hd hcan
    obtain ⟨xs, b, ys, -, -, c', l', hrun, -⟩ := h.allocate_takes hn ha hfit hd hcan
    rw [hrun] at hthrow
    cases (Prod.ext_iff.mp hthrow).1
  · intro hno
    obtain ⟨c, hrun, -⟩ := h.toSane.allocate_badAlloc hn ha hfit hno
    exact ⟨c, hrun⟩

theorem allocate_best_fit_mixedHeap : ∃ bs l : List Block, WellFormed mixedHeap.alloc bs l ∧
    ((∃ c, (allocate 16 64).run mixedHeap.alloc = (.error (.interprocess .badAlloc), c)) ↔
      ∀ b ∈ bs, ¬ CanHold b 16 64) := by
  obtain ⟨bs, l, h⟩ := Reachable.inv (g := mixedHeap) (smallRun_reachable _ _)
  refine ⟨bs, l, h.toWellFormed, (allocate_best_fit h.toWellFormed (by decide) (by decide) fun b hb _ => ?_).1⟩
  have hstop := (h.linked.mem_bounds hb).2.1
  have hseg : mixedHeap.alloc.segmentBegin+mixedHeap.alloc.segmentSize ≤ 16384 := by decide +kernel
  have hpay := (@exactPayload_spec b.addr 6 (by decide)).2.1
  unfold Block.stop at hstop
  unfold LayoutFits
  norm_num at hpay ⊢
  omega

end ShmNext
