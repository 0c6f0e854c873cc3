import ShmNext.ElementStorage
import ShmNext.Endings

/-! `SharedMemoryVector` as the header computes it. An `OffsetPtr` member is kept as the address it
yields, elements are objects at the addresses of their slots, and the allocator calls are those
of the block allocator. -/
namespace ShmNext

/-- The element type: its layout, the value a default construction gives, the value a move leaves
behind, whether its move constructor is `noexcept`, and which of the constructor calls throw. -/
structure ElementType (V : Type) where
  sizeofT : ℕ
  alignofT : ℕ
  defaultValue : V
  movedFrom : V → V
  nothrowMove : Bool
  throws : ℕ → Bool
  sizeof_pos : 0 < sizeofT
  align_pow : ∃ k < 64, alignofT = 2^k

/-- `start`, `finish` and `end_of_storage`; null is `0`. -/
structure SharedMemoryVector where
  start : ℕ
  finish : ℕ
  endOfStorage : ℕ
  deriving DecidableEq, Repr

def SharedMemoryVector.null : SharedMemoryVector := ⟨0, 0, 0⟩

/-- The segment, the element objects in it, and the vector objects by name: `names` lists those
that have been constructed and not yet destroyed. -/
structure VectorWorld (V : Type) where
  heap : Heap
  objects : Objects V
  vec : ℕ → SharedMemoryVector
  names : List ℕ

inductive VectorThrown where
  | allocator (e : Thrown)
  | element
  deriving DecidableEq, Repr

abbrev VectorOp (V α : Type) := Prog (VectorWorld V) VectorThrown α

variable {V α : Type} (T : ElementType V)

/-- The heap after an allocator call. An element lives on only where its bytes were left alone. -/
def VectorWorld.withHeap (w : VectorWorld V) (g : Heap) : VectorWorld V :=
  { w with heap := g, objects := w.objects.surviving T.sizeofT w.heap.alloc.mem g.alloc.mem }

/-- The language defines no behaviour from here on. -/
def undefined : VectorOp V α := Prog.hang

/-- A member call of the block allocator, and the allocations held once it has returned. -/
def callAllocator (call : Op α) (after : α → Allocator → Heap → Heap) : VectorOp V α :=
  Prog.read fun w =>
    match call.run w.heap.alloc with
    | (.ok a, s) => Prog.write (fun w => w.withHeap T (after a s w.heap)) (Prog.ret a)
    | (.error e, s) => Prog.write (fun w => w.withHeap T { w.heap with alloc := s }) (Prog.throw (.allocator e))
    | (.hang, _) => Prog.hang

/-- A reference to the object at `p` is read. -/
def elementAt (p : ℕ) : VectorOp V V :=
  Prog.read fun w =>
    match w.objects.slot p with
    | none => undefined
    | some y => Prog.ret y.2

/-- Placement new of a value at `p`; a constructor that is not `noexcept` may throw. -/
def constructAt (isNoexcept : Bool) (p : ℕ) (x : V) : VectorOp V Unit :=
  Prog.read fun w =>
    if (w.objects.slot p).isSome then undefined
    else if !isNoexcept && T.throws w.objects.calls then
      Prog.write (fun w => { w with objects := w.objects.throwing }) (Prog.throw .element)
    else Prog.write (fun w => { w with objects := w.objects.insert p x }) (Prog.ret ())

def assignAt (p : ℕ) (x : V) : VectorOp V Unit :=
  Prog.read fun w =>
    if (w.objects.slot p).isNone then undefined
    else Prog.write (fun w => { w with objects := w.objects.assign p x }) (Prog.ret ())

/-- `SharedMemoryAllocator<T>::destroy`. -/
def destroyAt (p : ℕ) : VectorOp V Unit :=
  Prog.read fun w =>
    if (w.objects.slot p).isNone then undefined
    else Prog.write (fun w => { w with objects := w.objects.remove p }) (Prog.ret ())

/-- `construct(p, std::move_if_noexcept(*src))`. -/
def constructMoved (p src : ℕ) : VectorOp V Unit := do
  let x ← elementAt src
  constructAt T T.nothrowMove p x
  if T.nothrowMove then assignAt src (T.movedFrom x) else pure ()

/-- `*p = std::move(*src)`. -/
def moveAssign (p src : ℕ) : VectorOp V Unit := do
  let x ← elementAt src
  assignAt p x
  assignAt src (T.movedFrom x)

namespace SharedMemoryVector

/-! `SharedMemoryAllocator<T>`. -/

def allocate (n : ℕ) : VectorOp V ℕ :=
  callAllocator T (allocateElements T.sizeofT T.alignofT n) fun p s g =>
    { g with alloc := s, live := newAllocs s.mem (n*T.sizeofT) T.alignofT [p] ++ g.live }

def deallocate (p : ℕ) : VectorOp V Unit :=
  if p = 0 then pure () else callAllocator T (ShmNext.deallocate p) fun _ s g => g.release s [p]

def tryExpand (p newCount : ℕ) : VectorOp V Bool :=
  if (2^64-1)/T.sizeofT < newCount then pure false
  else callAllocator T (ShmNext.tryExpand p (newCount*T.sizeofT) T.alignofT) fun r s g =>
    { g with alloc := s, live := if r then resized g.live p (newCount*T.sizeofT) else g.live }

/-! The members of the vector. -/

def size (x : SharedMemoryVector) : ℕ := if x.start ≠ 0 then (x.finish-x.start)/T.sizeofT else 0

/-- An end of the storage before its start, which only a wrapped layout leaves, would be a huge `size_type` in the source. -/
def capacity (x : SharedMemoryVector) : ℕ := if x.start ≠ 0 then (x.endOfStorage-x.start)/T.sizeofT else 0

def modify (v : ℕ) (f : SharedMemoryVector → SharedMemoryVector) : VectorOp V Unit :=
  Prog.store fun w => { w with vec := Function.update w.vec v (f (w.vec v)) }

def setStart (v p : ℕ) : VectorOp V Unit := modify v fun x => { x with start := p }

def setFinish (v p : ℕ) : VectorOp V Unit := modify v fun x => { x with finish := p }

/-- `end_of_storage = p`, where `p` is computed from a capacity: the sum wraps at the end of the address space. -/
def setEndOfStorage (v p : ℕ) : VectorOp V Unit := modify v fun x => { x with endOfStorage := p%2^64 }

/-- `start = finish = end_of_storage = nullptr`, store by store. -/
def setNull (v : ℕ) : VectorOp V Unit := do
  setStart v 0
  setFinish v 0
  setEndOfStorage v 0

/-- The rounds of `destroy_range` from `i` on. -/
def destroyRange (data : ℕ) : ℕ → ℕ → VectorOp V Unit
  | _, 0 => pure ()
  | i, left+1 => do
    destroyAt (data+i*T.sizeofT)
    destroyRange data (i+1) left

def popBack (v : ℕ) : VectorOp V Unit := do
  let w ← Prog.get
  if size T (w.vec v) = 0 then pure ()
  else
    setFinish v ((w.vec v).finish-T.sizeofT)
    destroyAt ((w.vec v).finish-T.sizeofT)

/-- `while (size() > newSize) pop_back();`, cut off after `fuel` rounds. -/
def popWhile (v newSize : ℕ) : ℕ → VectorOp V Unit
  | 0 => do
    let w ← Prog.get
    if newSize < size T (w.vec v) then Prog.hang else pure ()
  | fuel+1 => do
    let w ← Prog.get
    if newSize < size T (w.vec v) then
      popBack T v
      popWhile v newSize fuel
    else pure ()

def destroyTail (v newSize : ℕ) : VectorOp V Unit := do
  let w ← Prog.get
  popWhile T v newSize (size T (w.vec v))

/-- `clear`; `!empty()` is `size() > 0`. -/
def clear (v : ℕ) : VectorOp V Unit := do
  let w ← Prog.get
  popWhile T v 0 (size T (w.vec v))

def releaseStorage (v : ℕ) : VectorOp V Unit := do
  let w ← Prog.get
  if (w.vec v).start ≠ 0 then
    clear T v
    let w ← Prog.get
    deallocate T (w.vec v).start
    setNull v
  else pure ()

def reallocate (v newCapacity : ℕ) : VectorOp V Unit := do
  let w ← Prog.get
  let oldSize := size T (w.vec v)
  let oldCapacity := capacity T (w.vec v)
  let oldData := (w.vec v).start
  let expanded ← if oldData ≠ 0 ∧ oldCapacity < newCapacity then tryExpand T oldData newCapacity else pure false
  if expanded then
    setFinish v (oldData+oldSize*T.sizeofT)
    setEndOfStorage v (oldData+newCapacity*T.sizeofT)
  else
    let newData ← allocate T newCapacity
    Prog.tryLoop (fun i => constructMoved T (newData+i*T.sizeofT) (oldData+i*T.sizeofT))
      (fun i => do
        destroyRange T newData 0 i
        deallocate T newData) 0 oldSize
    destroyRange T oldData 0 oldSize
    if oldData ≠ 0 then deallocate T oldData else pure ()
    setStart v newData
    setFinish v (newData+oldSize*T.sizeofT)
    setEndOfStorage v (newData+newCapacity*T.sizeofT)

def reallocateExact (v newCapacity : ℕ) : VectorOp V Unit := do
  let w ← Prog.get
  if (w.vec v).start ≠ 0 then releaseStorage T v else pure ()
  let newData ← allocate T newCapacity
  setStart v newData
  setFinish v newData
  setEndOfStorage v (newData+newCapacity*T.sizeofT)

def reserve (v newCapacity : ℕ) : VectorOp V Unit := do
  let w ← Prog.get
  if capacity T (w.vec v) < newCapacity then reallocate T v newCapacity else pure ()

/-- `push_back`, for a constant and for an rvalue reference alike, and `emplace_back` with
arguments that construct the element. The argument is a reference: `value` reads it where the constructor does. -/
def pushBackOf (v : ℕ) (value : VectorOp V V) : VectorOp V Unit := do
  let w ← Prog.get
  if (w.vec v).finish = (w.vec v).endOfStorage then
    let old := capacity T (w.vec v)
    reallocate T v (if old = 0 then 1 else old*2%2^64)
  else pure ()
  let w ← Prog.get
  let x ← value
  constructAt T false (w.vec v).finish x
  setFinish v ((w.vec v).finish+T.sizeofT)

/-- `push_back` of a value that is not in the vector. -/
def pushBack (v : ℕ) (x : V) : VectorOp V Unit := pushBackOf T v (pure x)

/-- `construct_default_tail` and `construct_fill_tail`: every new element has the value that `value` reads. -/
def constructTail (v start stop : ℕ) (value : VectorOp V V) : VectorOp V Unit := do
  let w ← Prog.get
  let data := (w.vec v).start
  Prog.tryLoop (fun i => do
      let x ← value
      constructAt T false (data+i*T.sizeofT) x)
    (fun i => do
      destroyRange T (data+start*T.sizeofT) 0 (i-start)
      setFinish v (data+start*T.sizeofT)) start (stop-start)
  setFinish v (data+stop*T.sizeofT)

/-- `resize_fill`, with a reference that `value` reads. -/
def resizeFillOf (v count : ℕ) (value : VectorOp V V) : VectorOp V Unit := do
  let w ← Prog.get
  let oldSize := size T (w.vec v)
  if count < oldSize then destroyTail T v count
  else if count = oldSize then pure ()
  else
    if capacity T (w.vec v) < count then reallocate T v count else pure ()
    constructTail T v oldSize count value

/-- `resize_fill` with a value that is not in the vector. -/
def resizeFill (v count : ℕ) (x : V) : VectorOp V Unit := resizeFillOf T v count (pure x)

/-- `resize_default`. -/
def resizeDefault (v count : ℕ) : VectorOp V Unit := resizeFill T v count T.defaultValue

/-- The shifting loop of `erase`, from `next = pos+1` up to `end()`. -/
def eraseLoop (stop : ℕ) : ℕ → ℕ → VectorOp V Unit
  | fuel, pos =>
    if pos+T.sizeofT = stop then pure ()
    else match fuel with
      | 0 => Prog.hang
      | fuel+1 => do
        moveAssign T pos (pos+T.sizeofT)
        eraseLoop stop fuel (pos+T.sizeofT)

/-- `erase` at index `i`. -/
def erase (v i : ℕ) : VectorOp V Unit := do
  let w ← Prog.get
  let pos := (w.vec v).start+i*T.sizeofT
  if pos = (w.vec v).finish then pure ()
  else
    eraseLoop T (w.vec v).finish (size T (w.vec v)) pos
    setFinish v ((w.vec v).finish-T.sizeofT)
    destroyAt ((w.vec v).finish-T.sizeofT)

def assignFrom (v other : ℕ) : VectorOp V Unit := do
  let w ← Prog.get
  let n := size T (w.vec other)
  if n = 0 then releaseStorage T v
  else
    let newData ← allocate T n
    Prog.tryLoop (fun i => do
        let x ← elementAt ((w.vec other).start+i*T.sizeofT)
        constructAt T false (newData+i*T.sizeofT) x)
      (fun i => do
        destroyRange T newData 0 i
        deallocate T newData) 0 n
    releaseStorage T v
    setStart v newData
    setFinish v (newData+n*T.sizeofT)
    setEndOfStorage v (newData+n*T.sizeofT)

def copyAssign (v other : ℕ) : VectorOp V Unit := if v = other then pure () else assignFrom T v other

/-- The members of `other` are taken over, and `other` is left null. -/
def takeFrom (v other : ℕ) : VectorOp V Unit := do
  let w ← Prog.get
  modify v fun _ => w.vec other
  setNull other

def moveAssignFrom (v other : ℕ) : VectorOp V Unit :=
  if v = other then pure ()
  else do
    releaseStorage T v
    takeFrom v other

/-- The vector object `v` exists from here on. -/
def born (v : ℕ) : VectorOp V Unit := Prog.store fun w => { w with names := v :: w.names }

def construct (v : ℕ) : VectorOp V Unit := do
  setNull v
  born v

def copyConstruct (v other : ℕ) : VectorOp V Unit := do
  setNull v
  let w ← Prog.get
  let n := size T (w.vec other)
  if n ≠ 0 then
    reallocateExact T v n
    let w ← Prog.get
    let data := (w.vec v).start
    Prog.tryLoop (fun i => do
        let x ← elementAt ((w.vec other).start+i*T.sizeofT)
        constructAt T false (data+i*T.sizeofT) x)
      (fun i => do
        destroyRange T data 0 i
        deallocate T data
        setNull v) 0 n
    setFinish v (data+n*T.sizeofT)
  else pure ()
  born v

def moveConstruct (v other : ℕ) : VectorOp V Unit := do
  takeFrom v other
  born v

def destruct (v : ℕ) : VectorOp V Unit := do
  clear T v
  let w ← Prog.get
  if (w.vec v).start ≠ 0 then deallocate T (w.vec v).start else pure ()
  Prog.store fun w => { w with names := w.names.erase v }

end SharedMemoryVector

end ShmNext
