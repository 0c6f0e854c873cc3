import Mathlib.Data.Rat.Floor
import ShmNext.LinkedNodes

/-! `SharedMemoryHashTable` as the header computes it. Each node is on two doubly linked lists: the chain of
its bucket, and the list of all nodes in insertion order. -/
namespace ShmNext

/-- The links of a node. -/
inductive HashLink where
  | bucketPrev
  | bucketNext
  | iterPrev
  | iterNext
  deriving DecidableEq, Repr

/-- The arithmetic of load factors: the initial bound `1.0f`, the test of `max_load_factor(value)`, the two
comparisons with the bound, and the ceiling of elements by bound. -/
structure LoadFactors (F : Type) where
  initial : F
  nonpositive : F → Bool
  overfull : ℕ → ℕ → F → Bool
  crowded : ℕ → ℕ → F → Bool
  required : ℕ → F → ℕ

/-- The arithmetic without rounding. -/
def exactFactors : LoadFactors ℚ where
  initial := 1
  nonpositive f := decide (f ≤ 0)
  overfull size count f := decide (f < if count = 0 then 0 else (size : ℚ)/count)
  crowded size count f := decide ((count : ℚ)*f < size)
  required size f := ⌈(size : ℚ)/f⌉₊

/-- The parameters of the template. -/
structure TableType (K V F : Type) extends NodeType where
  hash : K → ℕ
  keyEqual : K → K → Bool
  defaultMapped : V
  factors : LoadFactors F

structure SharedMemoryHashTable (F : Type) where
  buckets : ℕ
  bucketCount : ℕ
  size : ℕ
  maxLoadFactor : F
  head : ℕ
  tail : ℕ

abbrev HashNode (K V : Type) := LinkedNode HashLink ℕ (K × V)

abbrev TableWorld (K V F : Type) := NodeWorld (HashNode K V) (SharedMemoryHashTable F)

abbrev TableOp (K V F α : Type) := NodeOp (HashNode K V) (SharedMemoryHashTable F) α

variable {K V F α : Type} (T : TableType K V F)

namespace NodeOp
variable {N M : Type}

/-- A `noexcept` function that throws ends the program. -/
def noexcept (p : NodeOp N M α) : NodeOp N M α := do
  match ← p.attempt with
  | .ok a => pure a
  | .error _ => Prog.hang

end NodeOp

namespace SharedMemoryHashTable
open NodeOp HashLink

def defaultBucketCount : ℕ := 8

def normalizeBucketCount (requested : ℕ) : ℕ := if requested = 0 then defaultBucketCount else requested

def minimumBucketCountForSize (elementCount : ℕ) (f : F) : ℕ :=
  if elementCount = 0 then defaultBucketCount else normalizeBucketCount (T.factors.required elementCount f)

/-- Stores past the end of the mapping fault. -/
def initializeBucketArray (array count : ℕ) : TableOp K V F Unit :=
  Prog.read fun w =>
    if array+8*count ≤ w.heap.alloc.segmentBegin+w.heap.alloc.segmentSize then setCell array (some (.links (List.replicate count 0)))
    else undefined

/-- `bucket_allocator.allocate`. -/
def allocateBuckets (count : ℕ) : TableOp K V F ℕ := NodeOp.allocate T.toNodeType 8 8 count

def initializeBuckets (v requestedCount : ℕ) : TableOp K V F Unit := do
  let count := normalizeBucketCount requestedCount
  modifyObj v fun t => { t with bucketCount := count }
  let array ← allocateBuckets T count
  modifyObj v fun t => { t with buckets := array }
  initializeBucketArray array count

def clearBuckets (v : ℕ) : TableOp K V F Unit := do
  let w ← Prog.get
  if (w.obj v).buckets ≠ 0 then initializeBucketArray (w.obj v).buckets (w.obj v).bucketCount else pure ()

def releaseBuckets (v : ℕ) : TableOp K V F Unit := do
  let w ← Prog.get
  if (w.obj v).buckets ≠ 0 then
    NodeOp.deallocate T.toNodeType (w.obj v).buckets
    modifyObj v fun t => { t with buckets := 0 }
    modifyObj v fun t => { t with bucketCount := 0 }
  else pure ()

def bucketIndexFor (key : K) (mod : ℕ) : TableOp K V F ℕ :=
  if mod = 0 then pure 0
  else do
    hashCall T.toNodeType
    pure (T.hash key%mod)

/-- The walk of `find_node` along a chain. -/
def findInChain (key : K) : ℕ → ℕ → TableOp K V F ℕ
  | fuel, node =>
    if node = 0 then pure 0
    else do
      let e ← readElem node
      if T.keyEqual e.1 key then pure node
      else match fuel with
        | 0 => Prog.hang
        | fuel+1 => do
          let next ← readLink node bucketNext
          findInChain key fuel next

def findNode (v : ℕ) (key : K) : TableOp K V F ℕ := do
  let w ← Prog.get
  if (w.obj v).bucketCount = 0 then pure 0
  else
    let index ← bucketIndexFor T key (w.obj v).bucketCount
    let node ← readSlot (w.obj v).buckets index
    findInChain T key walkFuel node

/-- The first loop of `relink_all_buckets`. -/
def clearBucketLinks : ℕ → ℕ → TableOp K V F Unit
  | fuel, node =>
    if node = 0 then pure ()
    else match fuel with
      | 0 => Prog.hang
      | fuel+1 => do
        setLink node bucketPrev 0
        setLink node bucketNext 0
        let next ← readLink node iterNext
        clearBucketLinks fuel next

/-- The statements that `link_new_node` and `relink_all_buckets` share: the node becomes the first of its bucket. -/
def linkInBucket (array bucketCount node : ℕ) : TableOp K V F Unit := do
  let e ← readElem node
  let index ← bucketIndexFor T e.1 bucketCount
  setLink node bucketPrev 0
  let first ← readSlot array index
  setLink node bucketNext first
  linkOr first bucketPrev node (pure ())
  setSlot array index node

/-- The second loop of `relink_all_buckets`. -/
def relinkNodes (newBuckets newBucketCount : ℕ) : ℕ → ℕ → TableOp K V F Unit
  | fuel, node =>
    if node = 0 then pure ()
    else match fuel with
      | 0 => Prog.hang
      | fuel+1 => do
        linkInBucket T newBuckets newBucketCount node
        let next ← readLink node iterNext
        relinkNodes newBuckets newBucketCount fuel next

def relinkAllBuckets (v newBuckets newBucketCount : ℕ) : TableOp K V F Unit := do
  let w ← Prog.get
  clearBucketLinks walkFuel (w.obj v).head
  relinkNodes T newBuckets newBucketCount walkFuel (w.obj v).head

/-- `rehash` from the allocation on. -/
def rehashTo (v newBucketCount : ℕ) : TableOp K V F Unit := do
  let newBuckets ← allocateBuckets T newBucketCount
  initializeBucketArray newBuckets newBucketCount
  match ← (relinkAllBuckets T v newBuckets newBucketCount).attempt with
  | .ok () =>
    releaseBuckets T v
    modifyObj v fun t => { t with buckets := newBuckets }
    modifyObj v fun t => { t with bucketCount := newBucketCount }
  | .error e =>
    NodeOp.deallocate T.toNodeType newBuckets
    Prog.throw e

/-- The count that `rehash` settles on. -/
def rehashTarget (t : SharedMemoryHashTable F) (requested : ℕ) : ℕ :=
  max (normalizeBucketCount requested) (minimumBucketCountForSize T t.size t.maxLoadFactor)

def rehash (v requested : ℕ) : TableOp K V F Unit := do
  let w ← Prog.get
  let newBucketCount := rehashTarget T (w.obj v) requested
  if newBucketCount = (w.obj v).bucketCount then pure ()
  else rehashTo T v newBucketCount

def reserve (v count : ℕ) : TableOp K V F Unit := do
  let w ← Prog.get
  let needed := minimumBucketCountForSize T count (w.obj v).maxLoadFactor
  if (w.obj v).bucketCount < needed then rehash T v needed else pure ()

def setMaxLoadFactor (v : ℕ) (value : F) : TableOp K V F Unit :=
  if T.factors.nonpositive value then
    Prog.throw (.invalidArgument "SharedMemoryHashTable::max_load_factor must be positive")
  else do
    modifyObj v fun t => { t with maxLoadFactor := value }
    let w ← Prog.get
    if T.factors.overfull (w.obj v).size (w.obj v).bucketCount (w.obj v).maxLoadFactor then
      rehash T v (minimumBucketCountForSize T (w.obj v).size (w.obj v).maxLoadFactor)
    else pure ()

/-- The count that an insertion asks `rehash` for. -/
def grownBucketCount (t : SharedMemoryHashTable F) : ℕ :=
  if t.bucketCount = 0 then defaultBucketCount else t.bucketCount*2%2^64

def maybeRehashForInsert (v : ℕ) : TableOp K V F Unit := do
  let w ← Prog.get
  if (w.obj v).bucketCount = 0 ∨ T.factors.crowded ((w.obj v).size+1) (w.obj v).bucketCount (w.obj v).maxLoadFactor = true then
    rehash T v (grownBucketCount (w.obj v))
  else pure ()

/-- The iteration half of `link_new_node`. -/
def linkIteration (v node : ℕ) : TableOp K V F Unit := do
  let w ← Prog.get
  setLink node iterPrev (w.obj v).tail
  setLink node iterNext 0
  linkOr (w.obj v).tail iterNext node (modifyObj v fun t => { t with head := node })
  modifyObj v fun t => { t with tail := node }

def linkNewNode (v node : ℕ) : TableOp K V F Unit := do
  let w ← Prog.get
  linkInBucket T (w.obj v).buckets (w.obj v).bucketCount node
  linkIteration v node

def newNode (e : K × V) : ℕ → HashNode K V := fun _ => ⟨fun _ => 0, e⟩

/-- `insert_value` and `try_emplace_impl`: the node at the key, and whether it is new. -/
def insertNode (v : ℕ) (lookupKey : K) (e : K × V) : TableOp K V F (ℕ × Bool) := do
  let existing ← findNode T v lookupKey
  if existing ≠ 0 then pure (existing, false)
  else
    maybeRehashForInsert T v
    let node ← NodePool.create T.toNodeType v (newNode e)
    linkNewNode T v node
    modifyObj v fun t => { t with size := t.size+1 }
    pure (node, true)

def insertValue (v : ℕ) (value : K × V) : TableOp K V F (ℕ × Bool) := insertNode T v value.1 value

def tryEmplace (v : ℕ) (key : K) (mapped : V) : TableOp K V F (ℕ × Bool) := insertNode T v key (key, mapped)

/-- `emplace`, and `insert` of one value: the value is constructed apart first. -/
def emplace (v : ℕ) (value : K × V) : TableOp K V F (ℕ × Bool) := do
  elementCall T.toNodeType
  insertValue T v value

/-- `insert` of the values of a range, which lie elsewhere. -/
def insertRange (v : ℕ) : List (K × V) → TableOp K V F Unit
  | [] => pure ()
  | value :: values => do
    let _ ← emplace T v value
    insertRange v values

def find (v : ℕ) (key : K) : TableOp K V F ℕ := findNode T v key

def contains (v : ℕ) (key : K) : TableOp K V F Bool := do
  let node ← findNode T v key
  pure (decide (node ≠ 0))

def count (v : ℕ) (key : K) : TableOp K V F ℕ := do
  let found ← contains T v key
  pure (if found then 1 else 0)

def at' (v : ℕ) (key : K) : TableOp K V F V := do
  let it ← find T v key
  if it = 0 then Prog.throw (.outOfRange "SharedMemoryHashTable::at key not found")
  else
    let e ← readElem it
    pure e.2

/-- `operator[]`: the node whose mapped value the reference is to. -/
def subscript (v : ℕ) (key : K) : TableOp K V F ℕ := do
  let r ← tryEmplace T v key T.defaultMapped
  pure r.1

def insertOrAssign (v : ℕ) (key : K) (mapped : V) : TableOp K V F (ℕ × Bool) := do
  let it ← find T v key
  if it ≠ 0 then
    let e ← readElem it
    setElem it (e.1, mapped)
    pure (it, false)
  else tryEmplace T v key mapped

def unlinkBucket (v node : ℕ) : TableOp K V F Unit := do
  let w ← Prog.get
  let e ← readElem node
  let index ← noexcept (bucketIndexFor T e.1 (w.obj v).bucketCount)
  let prev ← readLink node bucketPrev
  let next ← readLink node bucketNext
  linkOr prev bucketNext next (setSlot (w.obj v).buckets index next)
  linkOr next bucketPrev prev (pure ())

def unlinkIteration (v node : ℕ) : TableOp K V F Unit := do
  let prev ← readLink node iterPrev
  let next ← readLink node iterNext
  linkOr prev iterNext next (modifyObj v fun t => { t with head := next })
  linkOr next iterPrev prev (modifyObj v fun t => { t with tail := prev })

def eraseNode (v node : ℕ) : TableOp K V F Unit := do
  unlinkBucket T v node
  unlinkIteration v node
  setLink node bucketPrev 0
  setLink node bucketNext 0
  setLink node iterPrev 0
  setLink node iterNext 0
  NodePool.destroy v node
  modifyObj v fun t => { t with size := t.size-1 }

/-- `erase` by key. -/
def eraseKey (v : ℕ) (key : K) : TableOp K V F ℕ := do
  let node ← findNode T v key
  if node = 0 then pure 0
  else
    eraseNode T v node
    pure 1

/-- `erase` by iterator; `end()` is null. -/
def erase (v pos : ℕ) : TableOp K V F ℕ :=
  if pos = 0 then pure pos
  else do
    let next ← readLink pos iterNext
    eraseNode T v pos
    pure next

/-- The rounds of `erase` by range. -/
def eraseRange (v last : ℕ) : ℕ → ℕ → TableOp K V F ℕ
  | fuel, first =>
    if first = last then pure last
    else match fuel with
      | 0 => Prog.hang
      | fuel+1 => do
        let next ← erase T v first
        eraseRange v last fuel next

/-- The loop of `clear`. -/
def destroyNodes (v : ℕ) : ℕ → ℕ → TableOp K V F Unit
  | fuel, current =>
    if current = 0 then pure ()
    else match fuel with
      | 0 => Prog.hang
      | fuel+1 => do
        let next ← readLink current iterNext
        NodePool.destroy v current
        destroyNodes v fuel next

def clear (v : ℕ) : TableOp K V F Unit := do
  let w ← Prog.get
  destroyNodes v walkFuel (w.obj v).head
  modifyObj v fun t => { t with head := 0 }
  modifyObj v fun t => { t with tail := 0 }
  modifyObj v fun t => { t with size := 0 }
  clearBuckets v

/-- The members of `other` but for the pool. -/
def copyMembers (v other : ℕ) : TableOp K V F Unit := do
  let w ← Prog.get
  modifyObj v fun _ => w.obj other

/-- What a move leaves in `other`. -/
def resetMembers (other : ℕ) : TableOp K V F Unit := do
  modifyObj other fun t => { t with buckets := 0 }
  modifyObj other fun t => { t with bucketCount := 0 }
  modifyObj other fun t => { t with size := 0 }
  modifyObj other fun t => { t with head := 0 }
  modifyObj other fun t => { t with tail := 0 }

def swap (v other : ℕ) : TableOp K V F Unit := do
  NodePool.swap v other
  let w ← Prog.get
  modifyObj v fun _ => w.obj other
  modifyObj other fun _ => w.obj v

/-- The member initializers: no buckets, no nodes, an empty pool. -/
def initMembers (v : ℕ) (f : F) : TableOp K V F Unit := do
  NodePool.modify v fun _ => .empty
  modifyObj v fun _ => ⟨0, 0, 0, f, 0, 0⟩

/-- The table object `v` exists from here on. -/
def born (v : ℕ) : TableOp K V F Unit := Prog.store fun w => { w with names := v :: w.names }

/-- The constructors without elements. -/
def construct (v bucketCount : ℕ) : TableOp K V F Unit := do
  initMembers v T.factors.initial
  initializeBuckets T v bucketCount
  born v

/-- The constructors from a range or an initializer list. -/
def rangeConstruct (v bucketCount : ℕ) (values : List (K × V)) : TableOp K V F Unit := do
  initMembers v T.factors.initial
  initializeBuckets T v bucketCount
  match ← (insertRange T v values).attempt with
  | .ok () => born v
  | .error e =>
    clear v
    NodePool.shrinkToFit T.toNodeType v
    releaseBuckets T v
    Prog.throw e

/-- The loop of the copy constructor, over the nodes of the other table. -/
def insertNodes (v : ℕ) : ℕ → ℕ → TableOp K V F Unit
  | fuel, it =>
    if it = 0 then pure ()
    else match fuel with
      | 0 => Prog.hang
      | fuel+1 => do
        let e ← readElem it
        let _ ← emplace T v e
        let next ← readLink it iterNext
        insertNodes v fuel next

def copyConstruct (v other : ℕ) : TableOp K V F Unit := do
  let w ← Prog.get
  initMembers v (w.obj other).maxLoadFactor
  initializeBuckets T v (w.obj other).bucketCount
  match ← (insertNodes T v walkFuel (w.obj other).head).attempt with
  | .ok () => born v
  | .error e =>
    clear v
    releaseBuckets T v
    Prog.throw e

def moveConstruct (v other : ℕ) : TableOp K V F Unit := do
  NodePool.takeFrom v other
  copyMembers v other
  resetMembers other
  born v

def destruct (v : ℕ) : TableOp K V F Unit := do
  clear v
  NodePool.shrinkToFit T.toNodeType v
  releaseBuckets T v
  Prog.store fun w => { w with names := w.names.erase v }

/-- The copy is made in the local table `tmp` and swapped in. -/
def copyAssign (v other tmp : ℕ) : TableOp K V F Unit :=
  if v = other then pure ()
  else do
    copyConstruct T tmp other
    swap v tmp
    destruct T tmp

def moveAssign (v other : ℕ) : TableOp K V F Unit :=
  if v = other then pure ()
  else do
    clear v
    NodePool.shrinkToFit T.toNodeType v
    releaseBuckets T v
    copyMembers v other
    NodePool.moveAssign T.toNodeType v other
    resetMembers other

end SharedMemoryHashTable

end ShmNext
