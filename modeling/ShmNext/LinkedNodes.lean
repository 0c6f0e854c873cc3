import ShmNext.NodePoolOps

/-! Nodes that carry links of several kinds next to an element, and the single reads and stores of links. -/
namespace ShmNext
open Prog

/-- A node of a container: its links by name, and its element. -/
structure LinkedNode (L P E : Type) where
  link : L → P
  elem : E

def Cell.mapNode {N : Type} (f : N → N) : Cell N → Cell N
  | .node n => .node (f n)
  | .free next => .free next
  | .links a => .links a

variable {L P E M α : Type}

namespace NodeWorld
variable (w : NodeWorld (LinkedNode L P E) M)

/-- A node lives at `p`. -/
def IsNode (p : ℕ) : Prop := ∃ n, w.cell p = some (.node n)

/-- The link `f` of the node at `p`. -/
def link [Inhabited P] (f : L) (p : ℕ) : P :=
  match w.cell p with
  | some (.node n) => n.link f
  | _ => default

/-- The element of the node at `p`. -/
def elem? (p : ℕ) : Option E :=
  match w.cell p with
  | some (.node n) => some n.elem
  | _ => none

/-- `node->f = x`. -/
def setLink [DecidableEq L] (p : ℕ) (f : L) (x : P) : NodeWorld (LinkedNode L P E) M :=
  { w with cell := Function.update w.cell p ((w.cell p).map (Cell.mapNode fun n => { n with link := Function.update n.link f x })) }

/-- `node->value = e`. -/
def setElem (p : ℕ) (e : E) : NodeWorld (LinkedNode L P E) M :=
  { w with cell := Function.update w.cell p ((w.cell p).map (Cell.mapNode fun n => { n with elem := e })) }

end NodeWorld

namespace NodeOp

def readLink (p : ℕ) (f : L) : NodeOp (LinkedNode L P E) M P :=
  Prog.read fun w =>
    match w.cell p with
    | some (.node n) => pure (n.link f)
    | _ => undefined

def setLink [DecidableEq L] (p : ℕ) (f : L) (x : P) : NodeOp (LinkedNode L P E) M Unit :=
  Prog.read fun w =>
    match w.cell p with
    | some (.node _) => Prog.store fun w => w.setLink p f x
    | _ => undefined

/-- `if (x) x->f = y; else alt`. -/
def linkOr [DecidableEq L] (x : ℕ) (f : L) (y : P) (alt : NodeOp (LinkedNode L P E) M Unit) : NodeOp (LinkedNode L P E) M Unit :=
  if x ≠ 0 then setLink x f y else alt

def readElem (p : ℕ) : NodeOp (LinkedNode L P E) M E :=
  Prog.read fun w =>
    match w.cell p with
    | some (.node n) => pure n.elem
    | _ => undefined

def setElem (p : ℕ) (e : E) : NodeOp (LinkedNode L P E) M Unit :=
  Prog.read fun w =>
    match w.cell p with
    | some (.node _) => Prog.store fun w => w.setElem p e
    | _ => undefined

/-- `array[i]` of the links at `base`. -/
def readSlot (base i : ℕ) : NodeOp (LinkedNode L P E) M ℕ :=
  Prog.read fun w =>
    match w.cell base with
    | some (.links a) => if h : i < a.length then pure a[i] else undefined
    | _ => undefined

/-- `array[i] = x`. -/
def setSlot (base i x : ℕ) : NodeOp (LinkedNode L P E) M Unit :=
  Prog.read fun w =>
    match w.cell base with
    | some (.links a) => if i < a.length then setCell base (some (.links (a.set i x))) else undefined
    | _ => undefined

end NodeOp

variable {w w₀ : NodeWorld (LinkedNode L P E) M} {p q : ℕ} {f f' : L} {x : P} {e : E} {Q : α → NodeWorld (LinkedNode L P E) M → Prop}
  {F : NodeThrown → NodeWorld (LinkedNode L P E) M → Prop} {T : NodeType} {vs : List ℕ} {kept : List LiveAlloc}
  {mine : List (ℕ × ℕ)} {n base i y : ℕ} {a : List ℕ}

namespace NodeWorld

section
variable [DecidableEq L]

@[simp] theorem setLink_heap : (w.setLink p f x).heap = w.heap := rfl
@[simp] theorem setLink_pool : (w.setLink p f x).pool = w.pool := rfl
@[simp] theorem setLink_obj : (w.setLink p f x).obj = w.obj := rfl
@[simp] theorem setLink_names : (w.setLink p f x).names = w.names := rfl
@[simp] theorem setLink_hashes : (w.setLink p f x).hashes = w.hashes := rfl

theorem setLink_cell_of_ne (h : q ≠ p) : (w.setLink p f x).cell q = w.cell q := Function.update_of_ne h _ _

@[simp] theorem isNode_setLink : (w.setLink p f x).IsNode q ↔ w.IsNode q := by
  by_cases hqp : q = p
  · subst hqp
    unfold IsNode setLink
    dsimp only
    rw [Function.update_self]
    constructor
    · rintro ⟨n, hn⟩
      obtain ⟨c, hc, hn⟩ := Option.map_eq_some_iff.mp hn
      cases c with
      | node n' => exact ⟨n', hc⟩
      | free next => cases hn
      | links a => cases hn
    · rintro ⟨n, hn⟩
      rw [hn]
      exact ⟨_, rfl⟩
  · unfold IsNode
    rw [setLink_cell_of_ne hqp]

@[simp] theorem elem_setLink : (w.setLink p f x).elem? q = w.elem? q := by
  by_cases hqp : q = p
  · subst hqp
    unfold elem? setLink
    dsimp only
    rw [Function.update_self]
    cases w.cell q with
    | none => rfl
    | some c => cases c <;> rfl
  · unfold elem?
    rw [setLink_cell_of_ne hqp]

theorem link_setLink [Inhabited P] (h : w.IsNode p) :
    (w.setLink p f x).link f' q = if f' = f ∧ q = p then x else w.link f' q := by
  by_cases hqp : q = p
  · subst hqp
    obtain ⟨n, hn⟩ := h
    unfold link setLink
    dsimp only
    rw [Function.update_self, hn]
    by_cases hf : f' = f
    · subst hf
      rw [if_pos ⟨rfl, rfl⟩]
      exact Function.update_self ..
    · rw [if_neg fun hc => hf hc.1]
      exact Function.update_of_ne hf _ _
  · rw [if_neg fun hc => hqp hc.2]
    unfold link
    rw [setLink_cell_of_ne hqp]

/-- The other kinds of links are as they were. -/
@[simp] theorem link_setLink_of_ne [Inhabited P] (h : f' ≠ f) : (w.setLink p f x).link f' q = w.link f' q := by
  by_cases hqp : q = p
  · subst hqp
    unfold link setLink
    dsimp only
    rw [Function.update_self]
    cases w.cell q with
    | none => rfl
    | some c =>
      cases c with
      | node n => exact Function.update_of_ne h _ _
      | free next => rfl
      | links a => rfl
  · unfold link
    rw [setLink_cell_of_ne hqp]

theorem extent_setLink : ((w.setLink p f x).cell q).map (Cell.extent T) = (w.cell q).map (Cell.extent T) := by
  by_cases hqp : q = p
  · subst hqp
    unfold setLink
    dsimp only
    rw [Function.update_self]
    cases w.cell q with
    | none => rfl
    | some c => cases c <;> rfl
  · rw [setLink_cell_of_ne hqp]

/-- What is at `p` apart from nodes is as it was. -/
theorem setLink_cell_of_not (h : ¬w.IsNode q) : (w.setLink p f x).cell q = w.cell q := by
  by_cases hqp : q = p
  · subst hqp
    unfold setLink
    dsimp only
    rw [Function.update_self]
    cases hc : w.cell q with
    | none => rfl
    | some c =>
      cases c with
      | node n => exact absurd ⟨n, hc⟩ h
      | free next => rfl
      | links a => rfl
  · exact setLink_cell_of_ne hqp

end

theorem isNode_iff_elem : w.IsNode p ↔ ∃ e, w.elem? p = some e := by
  unfold IsNode elem?
  constructor
  · rintro ⟨n, hn⟩
    rw [hn]
    exact ⟨_, rfl⟩
  · rintro ⟨e, he⟩
    cases hc : w.cell p with
    | none =>
      rw [hc] at he
      cases he
    | some c =>
      cases c with
      | node n => exact ⟨n, rfl⟩
      | free next =>
        rw [hc] at he
        cases he
      | links a =>
        rw [hc] at he
        cases he

/-! Stores of elements. -/

section
variable {p q : ℕ} {e : E} {w : NodeWorld (LinkedNode L P E) M}

theorem setElem_cell_of_ne (h : q ≠ p) : (w.setElem p e).cell q = w.cell q := Function.update_of_ne h _ _

theorem elem_setElem (hp : w.IsNode p) : (w.setElem p e).elem? q = if q = p then some e else w.elem? q := by
  by_cases hqp : q = p
  · subst hqp
    obtain ⟨n, hn⟩ := hp
    rw [if_pos rfl]
    unfold elem? setElem
    dsimp only
    rw [Function.update_self, hn]
    rfl
  · rw [if_neg hqp]
    unfold elem?
    rw [setElem_cell_of_ne hqp]

@[simp] theorem link_setElem [Inhabited P] (f : L) : (w.setElem p e).link f q = w.link f q := by
  by_cases hqp : q = p
  · subst hqp
    unfold link setElem
    dsimp only
    rw [Function.update_self]
    cases w.cell q with
    | none => rfl
    | some c => cases c <;> rfl
  · unfold link
    rw [setElem_cell_of_ne hqp]

end

end NodeWorld

/-- A store into a node of its own leaves the container its allocations. -/
theorem Owning.setLink [DecidableEq L] (h : Owning T vs w₀ kept w mine) (hp : (p, n) ∈ mine) (hn : T.sizeofNode ≤ n) (hnode : w.IsNode p) :
    Owning T vs w₀ kept (w.setLink p f x) mine := by
  obtain ⟨n', hn'⟩ := hnode
  unfold NodeWorld.setLink
  rw [hn']
  refine h.setCell hp fun c' hc' => ?_
  obtain rfl := Option.some.inj hc'
  exact hn

theorem Owning.setElem (h : Owning T vs w₀ kept w mine) (hp : (p, n) ∈ mine) (hn : T.sizeofNode ≤ n) (hnode : w.IsNode p) :
    Owning T vs w₀ kept (w.setElem p e) mine := by
  obtain ⟨n', hn'⟩ := hnode
  unfold NodeWorld.setElem
  rw [hn']
  refine h.setCell hp fun c' hc' => ?_
  obtain rfl := Option.some.inj hc'
  exact hn

namespace NodeOp

theorem ends_readLink_bind [Inhabited P] {k : P → NodeOp (LinkedNode L P E) M α} (hp : w.IsNode p) (h : (k (w.link f p)).Ends w Q F) :
    (readLink p f >>= k).Ends w Q F := by
  obtain ⟨n, hn⟩ := hp
  have hrun : (readLink p f >>= k).run w = ((match w.cell p with
      | some (.node n) => pure (n.link f)
      | _ => undefined : NodeOp (LinkedNode L P E) M P) >>= k).run w := rfl
  have hlink : w.link f p = n.link f := by
    unfold NodeWorld.link
    rw [hn]
  rw [hlink] at h
  rw [hn] at hrun
  unfold Ends
  rw [hrun]
  exact h

theorem ends_setLink_bind [DecidableEq L] {k : Unit → NodeOp (LinkedNode L P E) M α} (hp : w.IsNode p) (h : (k ()).Ends (w.setLink p f x) Q F) :
    (setLink p f x >>= k).Ends w Q F := by
  obtain ⟨n, hn⟩ := hp
  have hrun : (setLink p f x >>= k).run w = ((match w.cell p with
      | some (.node _) => Prog.store fun w => w.setLink p f x
      | _ => undefined : NodeOp (LinkedNode L P E) M Unit) >>= k).run w := rfl
  rw [hn] at hrun
  unfold Ends
  rw [hrun]
  exact h

theorem ends_setLink [DecidableEq L] {Q : Unit → NodeWorld (LinkedNode L P E) M → Prop} (hp : w.IsNode p) (h : Q () (w.setLink p f x)) :
    (setLink p f x).Ends w Q F := by
  obtain ⟨n, hn⟩ := hp
  have hrun : (setLink p f x).run w = (match w.cell p with
      | some (.node _) => Prog.store fun w => w.setLink p f x
      | _ => undefined : NodeOp (LinkedNode L P E) M Unit).run w := rfl
  rw [hn] at hrun
  unfold Ends
  rw [hrun]
  exact h

theorem ends_readElem_bind {k : E → NodeOp (LinkedNode L P E) M α} (hp : w.elem? p = some e) (h : (k e).Ends w Q F) :
    (readElem p >>= k).Ends w Q F := by
  have hrun : (readElem p >>= k).run w = ((match w.cell p with
      | some (.node n) => pure n.elem
      | _ => undefined : NodeOp (LinkedNode L P E) M E) >>= k).run w := rfl
  obtain ⟨n, hn⟩ := NodeWorld.isNode_iff_elem.mpr ⟨e, hp⟩
  have helem : n.elem = e := by
    unfold NodeWorld.elem? at hp
    rw [hn] at hp
    exact Option.some.inj hp
  rw [hn] at hrun
  unfold Ends
  rw [hrun]
  rw [← helem] at h
  exact h

theorem ends_setElem_bind {k : Unit → NodeOp (LinkedNode L P E) M α} (hp : w.IsNode p) (h : (k ()).Ends (w.setElem p e) Q F) :
    (setElem p e >>= k).Ends w Q F := by
  obtain ⟨n, hn⟩ := hp
  have hrun : (setElem p e >>= k).run w = ((match w.cell p with
      | some (.node _) => Prog.store fun w => w.setElem p e
      | _ => undefined : NodeOp (LinkedNode L P E) M Unit) >>= k).run w := rfl
  rw [hn] at hrun
  unfold Ends
  rw [hrun]
  exact h

theorem run_readElem (hp : w.elem? p = some e) : (readElem p : NodeOp (LinkedNode L P E) M E).run w = (.ok e, w) := by
  have hrun : (readElem p).run w = (match w.cell p with
      | some (.node n) => pure n.elem
      | _ => undefined : NodeOp (LinkedNode L P E) M E).run w := rfl
  obtain ⟨n, hn⟩ := NodeWorld.isNode_iff_elem.mpr ⟨e, hp⟩
  unfold NodeWorld.elem? at hp
  rw [hn] at hp hrun
  rw [hrun, ← Option.some.inj hp]
  rfl

theorem run_readLink [Inhabited P] (hp : w.IsNode p) : (readLink p f : NodeOp (LinkedNode L P E) M P).run w = (.ok (w.link f p), w) := by
  have hrun : (readLink p f).run w = (match w.cell p with
      | some (.node n) => pure (n.link f)
      | _ => undefined : NodeOp (LinkedNode L P E) M P).run w := rfl
  obtain ⟨n, hn⟩ := hp
  unfold NodeWorld.link
  rw [hn] at hrun ⊢
  exact hrun

theorem ends_readSlot_bind {k : ℕ → NodeOp (LinkedNode L P E) M α} (hb : w.cell base = some (.links a)) (hi : a[i]? = some y)
    (h : (k y).Ends w Q F) : (readSlot base i >>= k).Ends w Q F := by
  have hrun : (readSlot base i >>= k).run w = ((match w.cell base with
      | some (.links a) => if h : i < a.length then pure a[i] else undefined
      | _ => undefined : NodeOp (LinkedNode L P E) M ℕ) >>= k).run w := rfl
  obtain ⟨hlt, hy⟩ := List.getElem?_eq_some_iff.mp hi
  rw [hb] at hrun
  dsimp only at hrun
  rw [dif_pos hlt, hy] at hrun
  unfold Ends
  rw [hrun]
  exact h

theorem ends_setSlot {Q : Unit → NodeWorld (LinkedNode L P E) M → Prop} (hb : w.cell base = some (.links a)) (hi : i < a.length)
    (h : Q () { w with cell := Function.update w.cell base (some (.links (a.set i y))) }) : (setSlot base i y).Ends w Q F := by
  have hrun : (setSlot base i y).run w = (match w.cell base with
      | some (.links a) => if i < a.length then setCell base (some (.links (a.set i y))) else undefined
      | _ => undefined : NodeOp (LinkedNode L P E) M Unit).run w := rfl
  rw [hb] at hrun
  dsimp only at hrun
  rw [if_pos hi] at hrun
  unfold Ends
  rw [hrun]
  exact h

end NodeOp

end ShmNext
