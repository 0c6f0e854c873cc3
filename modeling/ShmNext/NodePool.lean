import ShmNext.HeldBlocks
import ShmNext.Endings

/-! `SharedMemoryNodePool`, and the world of the containers that take their nodes from one. A pool keeps
the nodes it gets back in a cache of its own and hands them out again. -/
namespace ShmNext

/-- What a block holds: a node, the `FreeNode` of a cached one, or an array of links. -/
inductive Cell (N : Type) where
  | node (n : N)
  | free (next : ℕ)
  | links (a : List ℕ)
  deriving DecidableEq

/-- The node type: its layout, which of the constructor calls of elements throw, and which calls of the hash. -/
structure NodeType where
  sizeofNode : ℕ
  alignofNode : ℕ
  throws : ℕ → Bool
  hashThrows : ℕ → Bool
  fits_link : 8 ≤ sizeofNode
  align_pow : ∃ k < 64, alignofNode = 2^k

/-- The members of a pool. The two counters of calls are naturals: it takes `2^64` calls to bring them round, and nothing in a pool
depends on them. -/
structure NodePool where
  freeNodes : ℕ
  cachedNodeCount : ℕ
  nodePoolHits : ℕ
  nodePoolAllocations : ℕ
  deriving DecidableEq, Repr

def NodePool.empty : NodePool := ⟨0, 0, 0, 0⟩

/-- The segment, what its blocks hold, and the container objects by name with their pools: `names` lists those
that have been constructed and not yet destroyed. `calls` and `hashes` count the calls of element
constructors and of the hash. -/
structure NodeWorld (N M : Type) where
  heap : Heap
  cell : ℕ → Option (Cell N)
  pool : ℕ → NodePool
  obj : ℕ → M
  names : List ℕ
  calls : ℕ
  hashes : ℕ

inductive NodeThrown where
  | allocator (e : Thrown)
  | element
  | hash
  | invalidArgument (what : String)
  | outOfRange (what : String)
  deriving DecidableEq, Repr

abbrev NodeOp (N M α : Type) := Prog (NodeWorld N M) NodeThrown α

variable {N M α : Type} (T : NodeType)

/-- The bytes that a cell takes up. -/
def Cell.extent (c : Cell N) : ℕ :=
  match c with
  | .node _ => T.sizeofNode
  | .free _ => T.sizeofNode
  | .links a => 8*a.length

/-- The heap after an allocator call. A cell lives on only where its bytes were left alone. -/
def NodeWorld.withHeap (w : NodeWorld N M) (g : Heap) : NodeWorld N M :=
  { w with
    heap := g
    cell := fun q => (w.cell q).filter fun c => decide (∀ i < c.extent T, g.alloc.mem (q+i) = w.heap.alloc.mem (q+i)) }

namespace NodeOp

/-- The language defines no behaviour from here on. -/
def undefined : NodeOp N M α := Prog.hang

/-- A member call of the block allocator, and the allocations held once it has returned. -/
def callAllocator (call : Op α) (after : α → Allocator → Heap → Heap) : NodeOp N M α :=
  Prog.read fun w =>
    match call.run w.heap.alloc with
    | (.ok a, s) => Prog.write (fun w => w.withHeap T (after a s w.heap)) (Prog.ret a)
    | (.error e, s) => Prog.write (fun w => w.withHeap T { w.heap with alloc := s }) (Prog.throw (.allocator e))
    | (.hang, _) => Prog.hang

/-- `SharedMemoryAllocator<U>::allocate` for `n` objects. -/
def allocate (sizeofU alignofU n : ℕ) : NodeOp N M ℕ :=
  callAllocator T (allocateElements sizeofU alignofU n) fun p s g =>
    { g with alloc := s, live := newAllocs s.mem (n*sizeofU) alignofU [p] ++ g.live }

def setCell (p : ℕ) (c : Option (Cell N)) : NodeOp N M Unit := Prog.store fun w => { w with cell := Function.update w.cell p c }

/-- `SharedMemoryAllocator<U>::deallocate`. What the block holds is gone. -/
def deallocate (p : ℕ) : NodeOp N M Unit :=
  if p = 0 then pure ()
  else do
    setCell p none
    callAllocator T (ShmNext.deallocate p) fun _ s g => g.release s [p]

/-- A call of an element constructor, which may throw. -/
def elementCall : NodeOp N M Unit :=
  Prog.read fun w =>
    Prog.write (fun w => { w with calls := w.calls+1 })
      (if T.throws w.calls then Prog.throw .element else Prog.ret ())

/-- A call of the hash, which may throw. -/
def hashCall : NodeOp N M Unit :=
  Prog.read fun w =>
    Prog.write (fun w => { w with hashes := w.hashes+1 })
      (if T.hashThrows w.hashes then Prog.throw .hash else Prog.ret ())

/-- Placement new of a node in storage without one. -/
def constructNode (p : ℕ) (n : N) : NodeOp N M Unit :=
  Prog.read fun w =>
    match w.cell p with
    | some (.node _) => undefined
    | _ => do
      setCell p none
      elementCall T
      setCell p (some (.node n))

/-- The node at `p` is destroyed, its storage is kept. -/
def destroyNode (p : ℕ) : NodeOp N M Unit :=
  Prog.read fun w =>
    match w.cell p with
    | some (.node _) => setCell p none
    | _ => undefined

/-- `free_node->next`. -/
def freeNext (p : ℕ) : NodeOp N M ℕ :=
  Prog.read fun w =>
    match w.cell p with
    | some (.free next) => pure next
    | _ => undefined

def modifyObj (v : ℕ) (f : M → M) : NodeOp N M Unit := Prog.store fun w => { w with obj := Function.update w.obj v (f (w.obj v)) }

end NodeOp

namespace NodePool
open NodeOp

def modify (v : ℕ) (f : NodePool → NodePool) : NodeOp N M Unit :=
  Prog.store fun w => { w with pool := Function.update w.pool v (f (w.pool v)) }

def popCachedNode (v : ℕ) : NodeOp N M ℕ := do
  let w ← Prog.get
  let node := (w.pool v).freeNodes
  if node = 0 then pure 0
  else
    let next ← freeNext node
    modify v fun P => { P with freeNodes := next }
    modify v fun P => { P with cachedNodeCount := P.cachedNodeCount-1 }
    modify v fun P => { P with nodePoolHits := P.nodePoolHits+1 }
    pure node

def pushCachedNode (v node : ℕ) : NodeOp N M Unit := do
  let w ← Prog.get
  setCell node (some (.free (w.pool v).freeNodes))
  modify v fun P => { P with freeNodes := node }
  modify v fun P => { P with cachedNodeCount := P.cachedNodeCount+1 }

/-- `if (node_pool_allocations_ > 0) { --node_pool_allocations_; }` -/
def dropAllocation (v : ℕ) : NodeOp N M Unit := modify v fun P => { P with nodePoolAllocations := P.nodePoolAllocations-1 }

/-- The `try` block of `create`, and its `catch`. -/
def constructIn (v storage : ℕ) (fromCache : Bool) (n : N) : NodeOp N M ℕ := do
  match ← (constructNode T storage n).attempt with
  | .ok () => pure storage
  | .error e =>
    if fromCache then pushCachedNode v storage
    else do
      NodeOp.deallocate T storage
      dropAllocation v
    Prog.throw e

/-- Storage from the allocator. -/
def allocateNode (v : ℕ) : NodeOp N M ℕ := do
  let p ← NodeOp.allocate T T.sizeofNode T.alignofNode 1
  modify v fun P => { P with nodePoolAllocations := P.nodePoolAllocations+1 }
  pure p

/-- `n` is the node that the arguments construct at an address. -/
def create (v : ℕ) (n : ℕ → N) : NodeOp N M ℕ := do
  let cached ← popCachedNode v
  let storage ← if cached = 0 then allocateNode T v else pure cached
  constructIn T v storage (decide (cached ≠ 0)) (n storage)

def destroy (v node : ℕ) : NodeOp N M Unit :=
  if node = 0 then pure ()
  else do
    destroyNode node
    pushCachedNode v node

/-- The rounds of `reverse_free_list`, cut off after `fuel`. -/
def reverseFreeList : ℕ → ℕ → ℕ → NodeOp N M ℕ
  | fuel, current, previous =>
    if current = 0 then pure previous
    else match fuel with
      | 0 => Prog.hang
      | fuel+1 => do
        let next ← freeNext current
        setCell current (some (.free previous))
        reverseFreeList fuel next current

/-- The rounds of `shrink_to_fit`. -/
def releaseNodes (v : ℕ) : ℕ → ℕ → NodeOp N M Unit
  | fuel, node =>
    if node = 0 then pure ()
    else match fuel with
      | 0 => Prog.hang
      | fuel+1 => do
        let next ← freeNext node
        NodeOp.deallocate T node
        dropAllocation v
        releaseNodes v fuel next

def shrinkToFit (v : ℕ) : NodeOp N M Unit := do
  let w ← Prog.get
  let node ← reverseFreeList walkFuel (w.pool v).freeNodes 0
  modify v fun P => { P with freeNodes := 0 }
  releaseNodes T v walkFuel node
  modify v fun P => { P with cachedNodeCount := 0 }

/-- The members of `other` are taken over, and `other` is left empty. -/
def takeFrom (v other : ℕ) : NodeOp N M Unit := do
  let w ← Prog.get
  modify v fun _ => w.pool other
  modify other fun _ => .empty

def moveAssign (v other : ℕ) : NodeOp N M Unit :=
  if v = other then pure ()
  else do
    shrinkToFit T v
    takeFrom v other

def swap (v other : ℕ) : NodeOp N M Unit := do
  let w ← Prog.get
  modify v fun _ => w.pool other
  modify other fun _ => w.pool v

end NodePool

end ShmNext
