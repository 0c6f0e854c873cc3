import ShmNext.AllocatorInvariant

/-! `remove_free_block` and `insert_free_block` as operations on the ordered list:
each store leaves a linked structure, with the block on the list or off it. -/
namespace ShmNext
open Prog

variable {s : Allocator} {e : ℕ} {bs l : List Block} {C : Allocator → Prop}

theorem runs_count_bind {α : Type} {f : Counters → Counters} {k : Unit → Op α} {Q : α → Allocator → Prop}
    (h : ∀ s', CountersOnly s s' → C s' ∧ (k ()).Runs s' C Q) : (count f >>= k).Runs s C Q :=
  runs_store_bind (h _ ⟨_, rfl⟩).1 (h _ ⟨_, rfl⟩).2

theorem run_count_bind {α : Type} (f : Counters → Counters) (k : Unit → Op α) (s : Allocator) :
    (count f >>= k).run s = (k ()).run { s with counters := f s.counters } := rfl

theorem runs_count {f : Counters → Counters} {Q : Unit → Allocator → Prop}
    (h : ∀ s', CountersOnly s s' → C s' ∧ Q () s') : (count f).Runs s C Q :=
  runs_store (h _ ⟨_, rfl⟩).1 (h _ ⟨_, rfl⟩).2

theorem throws_count_bind {α : Type} {f : Counters → Counters} {k : Unit → Op α}
    {E : Thrown → Allocator → Prop} (h : ∀ s', CountersOnly s s' → C s' ∧ (k ()).Throws s' C E) :
    (count f >>= k).Throws s C E :=
  throws_store_bind (h _ ⟨_, rfl⟩).1 (h _ ⟨_, rfl⟩).2

/-- A place where a block header can stand. -/
def InArea (s : Allocator) (a : ℕ) : Prop :=
  a%16 = 0 ∧ s.first ≤ a ∧ a+32 ≤ s.segmentBegin+s.segmentSize

theorem Linked.inArea (h : Linked s e bs l) {b : Block} (hb : b ∈ bs) : InArea s b.addr := by
  obtain ⟨h1, h2, h3, h4, h5⟩ := h.mem_bounds hb
  unfold Block.stop at h2
  exact ⟨h5, h1, by omega⟩

theorem runs_storePointer {self ptr : ℕ} {Q : Unit → Allocator → Prop} (hs : self < 2^64)
    (hp : ptr < 2^64) (hr : Representable self ptr)
    (h : ∀ w, w < 2^64 → getPointer self w = ptr →
      C { s with mem := s.mem.store64 self w } ∧ Q () { s with mem := s.mem.store64 self w }) :
    (storePointer self ptr).Runs s C Q := by
  obtain ⟨w, hw, hlt, hget⟩ := setPointer_representable hs hp hr
  unfold storePointer storeMem
  simp only [hw]
  exact runs_store (h w hlt hget).1 (h w hlt hget).2

/-- Two places of the blocks' area are within reach of one another's pointers. -/
theorem representable_of_inArea (hg : Geometry s) {a ptr k : ℕ} (ha : s.segmentBegin ≤ a)
    (ha' : a+k < s.segmentBegin+s.segmentSize) (hk : (a+k)%8 = 0) (hp : ptr = 0 ∨ InArea s ptr) :
    a+k < 2^64 ∧ ptr < 2^64 ∧ Representable (a+k) ptr := by
  have h1 := hg.end_lt
  have h2 := hg.size_lt
  have h3 := hg.self_below
  have h4 := hg.self_ge
  rcases hp with rfl | ⟨hp1, hp2, hp3⟩
  · exact ⟨by omega, by omega, Or.inl rfl⟩
  · refine ⟨by omega, by omega, Or.inr ?_⟩
    unfold maxOffset
    omega

theorem runs_setNextFree {a ptr : ℕ} {Q : Unit → Allocator → Prop} (hg : Geometry s)
    (ha : InArea s a) (hp : ptr = 0 ∨ InArea s ptr)
    (h : ∀ m, nextFree m a = ptr → (∀ x, x < a+16 ∨ a+24 ≤ x → m x = s.mem x) →
      C { s with mem := m } ∧ Q () { s with mem := m }) : (setNextFree a ptr).Runs s C Q := by
  obtain ⟨ha1, ha2, ha3⟩ := ha
  have hb := hg.self_below
  have hg' := hg.self_ge
  obtain ⟨h1, h2, h3⟩ := representable_of_inArea hg (a := a) (k := 16) (by omega) (by omega) (by omega) hp
  refine runs_storePointer h1 h2 h3 fun w hw hget => h _ ?_ ?_
  · unfold nextFree
    rw [Mem.load64_store64 _ _ _ hw, hget]
  · intro x hx
    exact Mem.store64_of_outside _ (by omega)

theorem runs_setFreeListHead {ptr : ℕ} {Q : Unit → Allocator → Prop} (hg : Geometry s)
    (hp : ptr = 0 ∨ InArea s ptr) (hroom : s.first ≤ s.segmentBegin+s.segmentSize)
    (h : ∀ w, getPointer (s.self+24) w = ptr →
      C { s with freeListHead := w } ∧ Q () { s with freeListHead := w }) :
    (setFreeListHead ptr).Runs s C Q := by
  have hb := hg.self_below
  have hg' := hg.self_aligned
  obtain ⟨h1, h2, h3⟩ :=
    representable_of_inArea hg (a := s.self) (k := 24) hg.self_ge (by omega) (by omega) hp
  obtain ⟨w, hw, _, hget⟩ := setPointer_representable h1 h2 h3
  unfold setFreeListHead
  refine runs_get_bind ?_
  simp only [hw]
  exact runs_store (h w hget).1 (h w hget).2

/-- The address the list walk has in `prev` after passing `us`. -/
def lastAddr (us : List Block) : ℕ := (0 :: us.map Block.addr).getLast (List.cons_ne_nil _ _)

@[simp] theorem lastAddr_nil : lastAddr [] = 0 := rfl

@[simp] theorem lastAddr_append (us : List Block) (p : Block) : lastAddr (us ++ [p]) = p.addr := by
  simp [lastAddr]

def headAddr (vs : List Block) : ℕ := (vs.map Block.addr).headD 0

@[simp] theorem headAddr_nil : headAddr [] = 0 := rfl

@[simp] theorem headAddr_cons (v : Block) (vs : List Block) : headAddr (v :: vs) = v.addr := rfl

namespace Linked

theorem headAddr_inArea (h : Linked s e bs l) {vs : List Block} (hv : ∀ b ∈ vs, b ∈ l) :
    headAddr vs = 0 ∨ InArea s (headAddr vs) := by
  cases vs with
  | nil => exact Or.inl rfl
  | cons v vs => exact Or.inr (h.inArea (h.listed v (hv v List.mem_cons_self)).1)

/-- A link written into a free block leaves all headers as they are. -/
theorem header_of_link (h : Linked s e bs l) {p b : Block} {m : Mem} (hp : p ∈ bs) (hb : b ∈ bs)
    (hm : ∀ x, x < p.addr+16 ∨ p.addr+24 ≤ x → m x = s.mem x) : HeaderAt m b := by
  refine (h.headers b hb).congr fun x h1 h2 => hm x ?_
  have hbp := (h.tiles.bounds hp).2.2.1
  have hbb := (h.tiles.bounds hb).2.2.1
  rcases h.tiles.separated hp hb with rfl | hs | hs
  · omega
  · unfold Block.stop at hs; omega
  · unfold Block.stop at hs; omega

theorem next_of_link (h : Linked s e bs l) {p b : Block} {m : Mem} (hp : p ∈ bs) (hb : b ∈ bs)
    (hne : b ≠ p) (hm : ∀ x, x < p.addr+16 ∨ p.addr+24 ≤ x → m x = s.mem x) :
    nextFree m b.addr = nextFree s.mem b.addr := by
  refine nextFree_congr fun x h1 h2 => hm x ?_
  have hbp := (h.tiles.bounds hp).2.2.1
  have hbb := (h.tiles.bounds hb).2.2.1
  rcases h.tiles.separated hp hb with heq | hs | hs
  · exact absurd heq.symm hne
  · unfold Block.stop at hs; omega
  · unfold Block.stop at hs; omega

theorem inFree_of_link {p : Block} {m : Mem} (h : Linked s e bs l) (hp : p ∈ bs) (hf : p.free = true)
    (hm : ∀ x, x < p.addr+16 ∨ p.addr+24 ≤ x → m x = s.mem x) : ∀ x, ¬ InFree bs x → m x = s.mem x := by
  intro x hx
  apply hm
  by_contra hc
  have hsz := (h.tiles.bounds hp).2.2.1
  exact hx ⟨p, hp, hf, by omega, by unfold Block.stop; omega⟩

/-- Writing the link of a free block that is not on the list. -/
theorem link_off_list (h : Linked s e bs l) {p : Block} {m : Mem} (hp : p ∈ bs) (hl : p ∉ l)
    (hm : ∀ x, x < p.addr+16 ∨ p.addr+24 ≤ x → m x = s.mem x) : Linked { s with mem := m } e bs l := by
  refine ⟨h.geometry.congr rfl rfl rfl rfl, h.tiles, h.le_end, fun b hb => h.header_of_link hp hb hm,
    ?_, h.listed⟩
  refine h.chain.congr fun a ha => ?_
  obtain ⟨b, hb, rfl⟩ := List.mem_map.mp ha
  exact h.next_of_link hp (h.listed b hb).1 (fun heq => hl (heq ▸ hb)) hm

/-- Relinking the predecessor, or the head when there is none: the list behind `us` becomes `ws`. -/
theorem relink_mem (h : Linked s e bs (us ++ p :: vs)) {ws : List Block} {m : Mem}
    (hws : (us ++ p :: ws).Nodup) (hlisted : ∀ b ∈ ws, b ∈ bs ∧ b.free = true)
    (hm : ∀ x, x < p.addr+16 ∨ p.addr+24 ≤ x → m x = s.mem x)
    (hchain : LinkedFrom (nextFree s.mem) (nextFree m p.addr) (ws.map Block.addr)) :
    Linked { s with mem := m } e bs (us ++ p :: ws) := by
  have hp := (h.listed p (by simp)).1
  have hnd : p ∉ us ∧ p ∉ ws := by
    rw [List.nodup_append] at hws
    exact ⟨fun hpu => hws.2.2 p hpu p (by simp) rfl, (List.nodup_cons.mp hws.2.1).1⟩
  refine ⟨h.geometry.congr rfl rfl rfl rfl, h.tiles, h.le_end, fun b hb => h.header_of_link hp hb hm,
    ?_, ?_⟩
  · have hc := h.chain
    rw [List.map_append, List.map_cons] at hc ⊢
    refine hc.relink ?_ ?_
    · intro a ha
      obtain ⟨b, hb, rfl⟩ := List.mem_map.mp ha
      exact h.next_of_link hp (h.listed b (by simp [hb])).1 (fun heq => hnd.1 (heq ▸ hb)) hm
    · refine hchain.congr fun a ha => ?_
      obtain ⟨b, hb, rfl⟩ := List.mem_map.mp ha
      exact h.next_of_link hp (hlisted b hb).1 (fun heq => hnd.2 (heq ▸ hb)) hm
  · intro b hb
    rcases List.mem_append.mp hb with hb | hb
    · exact h.listed b (by simp [hb])
    · rcases List.mem_cons.mp hb with rfl | hb
      · exact h.listed b (by simp)
      · exact hlisted b hb

theorem relink_head (h : Linked s e bs l) {ws : List Block} {w : ℕ}
    (hlisted : ∀ b ∈ ws, b ∈ bs ∧ b.free = true)
    (hchain : LinkedFrom (nextFree s.mem) (getPointer (s.self+24) w) (ws.map Block.addr)) :
    Linked { s with freeListHead := w } e bs ws :=
  ⟨h.geometry.congr rfl rfl rfl rfl, h.tiles, h.le_end, h.headers, hchain, hlisted⟩

/-- The link of a listed block leads to the rest of the list. -/
theorem chain_after (h : Linked s e bs (us ++ p :: vs)) :
    LinkedFrom (nextFree s.mem) (nextFree s.mem p.addr) (vs.map Block.addr) ∧
      nextFree s.mem p.addr = headAddr vs := by
  have hc := h.chain
  rw [List.map_append, List.map_cons] at hc
  exact ⟨hc.drop_append, hc.drop_append.head_eq⟩

theorem first_le (h : Linked s e bs l) : s.first ≤ s.segmentBegin+s.segmentSize :=
  h.tiles.le.trans h.le_end

/-- Directing the end of `us` to a chain `ws`, by whichever of the two stores does it. -/
theorem runs_direct (h : Linked s e bs (us ++ vs)) {ws : List Block} {Q : Unit → Allocator → Prop}
    (hws : (us ++ ws).Nodup) (hlisted : ∀ b ∈ ws, b ∈ bs ∧ b.free = true)
    (hchain : LinkedFrom (nextFree s.mem) (headAddr ws) (ws.map Block.addr))
    (hk : ∀ c, Linked c e bs (us ++ ws) → ChangesOnly (InFree bs) s c →
      (∀ b ∈ bs, b ∉ us → nextFree c.mem b.addr = nextFree s.mem b.addr) → C c ∧ Q () c) :
    (if lastAddr us ≠ 0 then setNextFree (lastAddr us) (headAddr ws)
      else setFreeListHead (headAddr ws)).Runs s C Q := by
  have harea : headAddr ws = 0 ∨ InArea s (headAddr ws) := by
    cases ws with
    | nil => exact Or.inl rfl
    | cons w ws => exact Or.inr (h.inArea (hlisted w List.mem_cons_self).1)
  rcases List.eq_nil_or_concat us with rfl | ⟨us, p, rfl⟩
  · rw [if_neg (by simp)]
    refine runs_setFreeListHead h.geometry harea h.first_le fun w hw => hk _ ?_ ?_ ?_
    · exact h.relink_head hlisted (by rw [hw]; exact hchain)
    · exact ⟨rfl, rfl, rfl, rfl, fun _ _ => rfl⟩
    · exact fun _ _ _ => rfl
  · rw [List.concat_eq_append] at h hws hk ⊢
    rw [List.append_assoc, List.cons_append, List.nil_append] at h hws
    have hp := h.listed p (by simp)
    rw [if_pos (by rw [lastAddr_append]; exact h.chain.ne_zero p.addr (by simp)), lastAddr_append]
    refine runs_setNextFree h.geometry (h.inArea hp.1) harea fun m hnext hm => hk _ ?_ ?_ ?_
    · rw [List.append_assoc, List.cons_append, List.nil_append]
      exact h.relink_mem hws hlisted hm (by rw [hnext]; exact hchain)
    · exact .of_mem (h.inFree_of_link hp.1 hp.2 hm)
    · intro b hb hbu
      exact h.next_of_link hp.1 hb (fun heq => hbu (by simp [heq])) hm

theorem runs_removeFreeBlockAfter (h : Linked s e bs (us ++ t :: vs)) {Q : Unit → Allocator → Prop}
    (hk : ∀ c, Linked c e bs (us ++ vs) → ChangesOnly (InFree bs) s c → C c ∧ Q () c) :
    (removeFreeBlockAfter (lastAddr us) t.addr).Runs s C Q := by
  have ht := h.listed t (by simp)
  obtain ⟨hrest, hnext⟩ := h.chain_after
  have hsub : (us ++ vs).Sublist (us ++ t :: vs) := (List.sublist_cons_self t vs).append_left us
  have hws : (us ++ vs).Nodup := h.nodup.sublist hsub
  have hdirect : ∀ {Q' : Unit → Allocator → Prop}, (∀ c, Linked c e bs (us ++ vs) →
      ChangesOnly (InFree bs) s c → C c ∧ Q' () c) →
      (if lastAddr us ≠ 0 then setNextFree (lastAddr us) (nextFree s.mem t.addr)
        else setFreeListHead (nextFree s.mem t.addr)).Runs s C Q' := by
    intro Q' hk'
    rw [hnext]
    refine h.runs_direct hws (fun b hb => h.listed b (by simp [hb])) (hnext ▸ hrest) ?_
    exact fun c hc hch _ => hk' c hc hch
  have hnd : t ∉ us ++ vs := by
    have hn := h.nodup
    rw [List.nodup_append] at hn
    intro hm
    rcases List.mem_append.mp hm with hm | hm
    · exact hn.2.2 t hm t (by simp) rfl
    · exact (List.nodup_cons.mp hn.2.1).1 hm
  have hclear : ∀ c, Linked c e bs (us ++ vs) → ChangesOnly (InFree bs) s c →
      (setNextFree t.addr 0).Runs c C Q := by
    intro c hc hch
    refine runs_setNextFree hc.geometry (hc.inArea ht.1) (Or.inl rfl) fun m _ hm => hk _ ?_ ?_
    · exact hc.link_off_list ht.1 hnd hm
    · exact hch.trans (.of_mem (hc.inFree_of_link ht.1 ht.2 hm))
  unfold removeFreeBlockAfter
  refine runs_get_bind ?_
  have hwhole := (@hdirect (fun _ c => Linked c e bs (us ++ vs) ∧ ChangesOnly (InFree bs) s c)
    fun c hc hch => ⟨(hk c hc hch).1, hc, hch⟩).bind (f := fun _ => setNextFree t.addr 0)
    fun _ c hc => hclear c hc.1 hc.2
  split_ifs at hwhole ⊢ <;> exact hwhole

theorem runs_removeFreeBlock (h : Linked s e bs l) {t : Block} (ht : t ∈ l) {Q : Unit → Allocator → Prop}
    (hk : ∀ c, Linked c e bs (l.erase t) → ChangesOnly (InFree bs) s c → C c ∧ Q () c) :
    (removeFreeBlock t.addr).Runs s C Q := by
  obtain ⟨us, vs, rfl⟩ := List.append_of_mem ht
  have hnd := h.nodup
  rw [List.nodup_append] at hnd
  have hus : ∀ b ∈ us, b.addr ≠ t.addr := by
    intro b hb heq
    have hbt := h.addr_inj (h.listed b (by simp [hb])).1 (h.listed t (by simp)).1 heq
    exact hnd.2.2 b hb t (by simp) hbt
  have htu : t ∉ us := fun hm => hus t hm rfl
  rw [List.erase_append_right _ htu, List.erase_cons_head] at hk
  have hscan := @LinkedFrom.scan _ _ _ _ _ (· == t.addr) (fun b => b.addr != t.addr) h.chain
    (fun b _ => (Bool.not_not _).symm) 0 walkFuel h.length_lt.2
  have hall : ∀ b ∈ us, (fun b : Block => b.addr != t.addr) b = true := fun b hb => by simpa using hus b hb
  rw [List.takeWhile_append_of_pos hall, List.dropWhile_append_of_pos hall] at hscan
  simp only [bne_self_eq_false, Bool.false_eq_true, not_false_eq_true, List.takeWhile_cons_of_neg,
    List.append_nil, List.dropWhile_cons_of_neg, List.map_cons, List.headD_cons] at hscan
  unfold removeFreeBlock
  refine runs_get_bind ?_
  simp only [hscan]
  rw [if_neg (h.chain.ne_zero t.addr (by simp))]
  exact h.runs_removeFreeBlockAfter hk

theorem runs_insertFreeBlock (h : Linked s e bs l) {n : Block} (hn : n ∈ bs) (hf : n.free = true)
    (hl : n ∉ l) {Q : Unit → Allocator → Prop}
    (hoff : ∀ c, Linked c e bs l → ChangesOnly (InFree bs) s c → C c)
    (hk : ∀ c, Linked c e bs (insertBySize n l) → ChangesOnly (InFree bs) s c → C c ∧ Q () c) :
    (insertFreeBlock n.addr).Runs s C Q := by
  have hsize : ∀ b ∈ bs, blockSize s.mem b.addr = b.size := fun b hb => (h.headers b hb).1
  -- the loop stops at the first block that is not below the new one in the order of the list
  have hscan := @LinkedFrom.scan _ _ _ _ _
    (fun curr => !(decide (blockSize s.mem curr < blockSize s.mem n.addr) ||
      (blockSize s.mem curr == blockSize s.mem n.addr && decide (curr < n.addr))))
    (fun b => decide (b.SizeAddrLt n)) h.chain
    (fun b hb => by
      rw [hsize b (h.listed b hb).1, hsize n hn]
      congr 1
      rw [Bool.eq_iff_iff, decide_eq_true_iff]
      simp [Block.SizeAddrLt]) 0 walkFuel h.length_lt.2
  have hnd : (insertBySize n l).Nodup := insertBySize_perm.nodup_iff.mpr (List.nodup_cons.mpr ⟨hl, h.nodup⟩)
  unfold insertFreeBlock
  refine runs_get_bind ?_
  simp only [hscan]
  generalize hus : l.takeWhile (fun b => decide (b.SizeAddrLt n)) = us at hscan
  generalize hvs : l.dropWhile (fun b => decide (b.SizeAddrLt n)) = vs at hscan
  have hsplit : l = us ++ vs := by rw [← hus, ← hvs, List.takeWhile_append_dropWhile]
  have hins : insertBySize n l = us ++ n :: vs := by rw [← hus, ← hvs]; rfl
  rw [hins] at hk hnd
  have hvl : ∀ b ∈ vs, b ∈ l := fun b hb => by rw [hsplit]; simp [hb]
  have hul : ∀ b ∈ us, b ∈ l := fun b hb => by rw [hsplit]; simp [hb]
  have hrest : LinkedFrom (nextFree s.mem) (headAddr vs) (vs.map Block.addr) := by
    have hc := h.chain
    rw [hsplit, List.map_append] at hc
    obtain ⟨mid, _, hmid⟩ := LinkedFrom.append_iff.mp hc
    have := hmid.head_eq
    rw [this] at hmid
    exact hmid
  -- the new block is linked to what follows before anything is linked to it
  have hset : ∀ m, nextFree m n.addr = headAddr vs →
      (∀ x, x < n.addr+16 ∨ n.addr+24 ≤ x → m x = s.mem x) →
      Linked { s with mem := m } e bs (us ++ vs) ∧ ChangesOnly (InFree bs) s { s with mem := m } ∧
        LinkedFrom (nextFree m) n.addr ((n :: vs).map Block.addr) := by
    intro m hnext hm
    refine ⟨hsplit ▸ h.link_off_list hn hl hm, .of_mem (h.inFree_of_link hn hf hm),
      rfl, ?_, ?_⟩
    · have := (h.inArea hn).2.1
      have := h.geometry.self_below
      omega
    · rw [hnext]
      refine hrest.congr fun a ha => ?_
      obtain ⟨b, hb, rfl⟩ := List.mem_map.mp ha
      exact h.next_of_link hn (h.listed b (hvl b hb)).1 (fun heq => hl (heq ▸ hvl b hb)) hm
  refine Runs.bind (Q := fun _ c => Linked c e bs (us ++ vs) ∧ ChangesOnly (InFree bs) s c ∧
      LinkedFrom (nextFree c.mem) n.addr ((n :: vs).map Block.addr)) ?_ ?_
  · refine runs_setNextFree h.geometry (h.inArea hn) (h.headAddr_inArea hvl) fun m hnext hm => ?_
    obtain ⟨h1, h2, h3⟩ := hset m hnext hm
    exact ⟨hoff _ (hsplit ▸ h1) h2, h1, h2, h3⟩
  · rintro _ c ⟨hc, hch, hchain⟩
    refine @Linked.runs_direct _ _ _ _ _ _ hc (n :: vs) _ hnd ?_ hchain ?_
    · intro b hb
      rcases List.mem_cons.mp hb with rfl | hb
      · exact ⟨hn, hf⟩
      · exact h.listed b (hvl b hb)
    · exact fun c' hc' hch' _ => hk c' hc' (hch.trans hch')

end Linked

end ShmNext
