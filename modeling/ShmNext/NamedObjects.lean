import ShmNext.HeldBlocks
import ShmNext.AtomicSteps

/-! `NamedObjectRegistry`, and the functions of `SharedMemoryManager` that use it. A critical section under the lock of the manager is
one step; constructors and destructors of elements run between the sections. -/
namespace ShmNext

inductive NamedObjectState where
  | constructing
  | ready
  | destroying
  deriving DecidableEq, Repr

structure NamedObjectHeader where
  ptr : ℕ
  name : ℕ
  next : ℕ
  nameLength : ℕ
  instanceCount : ℕ
  objectSize : ℕ
  typeHash : ℕ
  nameHash : UInt64
  ownerPid : ℕ
  state : NamedObjectState
  deriving DecidableEq, Repr

/-- What a block of the segment holds: a header, the bytes of a name in front of its terminator, or the storage of an object of so
many bytes with the indices of the elements that are alive, the latest first. -/
inductive NamedCell where
  | header (h : NamedObjectHeader)
  | name (bytes : List UInt8)
  | object (bytes : ℕ) (alive : List ℕ)
  deriving DecidableEq

/-- `sizeof(NamedObjectHeader)`. -/
def namedObjectHeaderSize : ℕ := 80

/-- `alignof(NamedObjectHeader)`. -/
def namedObjectHeaderAlign : ℕ := 16

/-- The bytes that a cell takes up. -/
def NamedCell.extent : NamedCell → ℕ
  | header _ => namedObjectHeaderSize
  | name bytes => bytes.length+1
  | object bytes _ => bytes

/-- What happens to elements. -/
inductive ElementEvent where
  | constructed (storage i : ℕ)
  | destroyed (storage i : ℕ)
  deriving DecidableEq, Repr

/-- The segment, what its blocks hold, and the members of the registry; besides, the processes that are alive. `constructions` counts
the constructor calls of elements, and `events` are those that have returned and the destructor calls, the latest first. -/
structure NamedWorld where
  heap : Heap
  cell : ℕ → Option NamedCell
  buckets : ℕ → ℕ
  readyCount : ℕ
  totalCount : ℕ
  reservedCount : ℕ
  processAlive : ℕ → Bool
  constructions : ℕ
  events : List ElementEvent

/-- What a named object is made of: `sizeof(T)`, `alignof(T)`, `named_type_hash<T>()`, and which of the constructor calls throw. -/
structure NamedType where
  size : ℕ
  align : ℕ
  typeHash : ℕ
  throws : ℕ → Bool
  size_pos : 0 < size
  align_pow : ∃ k < 64, align = 2^k

inductive NamedThrown where
  | manager (e : Thrown)
  | element
  deriving DecidableEq, Repr

abbrev NamedOp (α : Type) := Prog NamedWorld NamedThrown α

abbrev NamedSteps (α : Type) := Steps NamedWorld NamedThrown α

/-- The heap after an allocator call. A cell lives on only where its bytes were left alone. -/
def NamedWorld.withHeap (w : NamedWorld) (g : Heap) : NamedWorld :=
  { w with
    heap := g
    cell := fun q => (w.cell q).filter fun c => decide (∀ i < c.extent, g.alloc.mem (q+i) = w.heap.alloc.mem (q+i)) }

namespace NamedOp
variable {α : Type}

/-- The language defines no behaviour from here on. -/
def undefined : NamedOp α := Prog.hang

/-- The stores of a member function of the block allocator. -/
def inAllocator : Op α → NamedOp α
  | .ret a => .ret a
  | .throw e => .throw (.manager e)
  | .hang => .hang
  | .read k => .read fun w => inAllocator (k w.heap.alloc)
  | .write f k => .write (fun w => { w with heap := { w.heap with alloc := f w.heap.alloc } }) (inAllocator k)

/-- A member call of the block allocator, and the allocations held once it has returned. -/
def callAllocator (call : Op α) (after : α → Heap → Heap) : NamedOp α :=
  Prog.read fun w₀ => do
    match ← (inAllocator call).attempt with
    | .ok a =>
      Prog.store fun w => w₀.withHeap (after a w.heap)
      pure a
    | .error e =>
      Prog.store fun w => w₀.withHeap w.heap
      Prog.throw e

def setCell (p : ℕ) (c : Option NamedCell) : NamedOp Unit := Prog.store fun w => { w with cell := Function.update w.cell p c }

/-- `block_allocator.allocate(size, alignment)`. -/
def allocate (size al : ℕ) : NamedOp ℕ :=
  callAllocator (ShmNext.allocate size al) fun p g => { g with live := newAllocs g.alloc.mem size al [p] ++ g.live }

/-- `block_allocator.deallocate(ptr)`. What the block holds is gone. -/
def deallocate (p : ℕ) : NamedOp Unit := do
  setCell p none
  callAllocator (ShmNext.deallocate p) fun _ g => g.release g.alloc [p]

def readHeader (p : ℕ) : NamedOp NamedObjectHeader :=
  Prog.read fun w =>
    match w.cell p with
    | some (.header h) => pure h
    | _ => undefined

/-- A store to a member of the header at `p`. -/
def modifyHeader (p : ℕ) (f : NamedObjectHeader → NamedObjectHeader) : NamedOp Unit :=
  Prog.read fun w =>
    match w.cell p with
    | some (.header h) => setCell p (some (.header (f h)))
    | _ => undefined

/-- `memcmp(q, name, name_length) == 0`. -/
def nameEquals (q : ℕ) (name : List UInt8) : NamedOp Bool :=
  Prog.read fun w =>
    match w.cell q with
    | some (.name bytes) => pure (bytes.take name.length == name)
    | _ => undefined

def setBucket (index p : ℕ) : NamedOp Unit := Prog.store fun w => { w with buckets := Function.update w.buckets index p }

def setReadyCount (n : ℕ) : NamedOp Unit := Prog.store fun w => { w with readyCount := n }

def setTotalCount (n : ℕ) : NamedOp Unit := Prog.store fun w => { w with totalCount := n }

def throwInterprocess (e : InterprocessErrc) : NamedOp α := Prog.throw (.manager (.interprocess e))

end NamedOp

namespace NamedObjectRegistry
open NamedOp

def bucketCount : ℕ := 64

def hashName (name : List UInt8) : UInt64 :=
  name.foldl (fun hash c => (hash ^^^ c.toUInt64) * 1099511628211) 1469598103934665603

def bucketIndex (hash : UInt64) : ℕ := hash.toNat%bucketCount

def matchesName (h : NamedObjectHeader) (hash : UInt64) (name : List UInt8) : NamedOp Bool :=
  if h.nameHash = hash ∧ h.nameLength = name.length then nameEquals h.name name else pure false

/-- The rounds of `find_any`. -/
def findAnyFrom (hash : UInt64) (name : List UInt8) : ℕ → ℕ → NamedOp ℕ
  | fuel, curr =>
    if curr = 0 then pure 0
    else match fuel with
      | 0 => Prog.hang
      | fuel+1 => do
        let h ← readHeader curr
        let found ← matchesName h hash name
        if found then pure curr else findAnyFrom hash name fuel h.next

def findAny (name : List UInt8) : NamedOp ℕ := do
  let w ← Prog.get
  findAnyFrom (hashName name) name walkFuel (w.buckets (bucketIndex (hashName name)))

def findReady (name : List UInt8) : NamedOp ℕ := do
  let p ← findAny name
  if p = 0 then pure 0
  else do
    let h ← readHeader p
    if h.state = .ready then pure p else pure 0

/-- The inner loop of `find_if`, over one chain. -/
def findIfFrom (predicate : NamedObjectHeader → Bool) : ℕ → ℕ → NamedOp ℕ
  | fuel, curr =>
    if curr = 0 then pure 0
    else match fuel with
      | 0 => Prog.hang
      | fuel+1 => do
        let h ← readHeader curr
        if predicate h then pure curr else findIfFrom predicate fuel h.next

/-- The outer loop of `find_if`, with so many buckets left. -/
def findIfInBuckets (predicate : NamedObjectHeader → Bool) : ℕ → NamedOp ℕ
  | 0 => pure 0
  | left+1 => do
    let w ← Prog.get
    let p ← findIfFrom predicate walkFuel (w.buckets (bucketCount-(left+1)))
    if p ≠ 0 then pure p else findIfInBuckets predicate left

def findIf (predicate : NamedObjectHeader → Bool) : NamedOp ℕ := findIfInBuckets predicate bucketCount

/-- The loops are those of `find_if`. -/
def findReadyByPtr (ptr : ℕ) : NamedOp ℕ := findIf fun h => decide (h.state = .ready ∧ h.ptr = ptr)

def insert (p : ℕ) : NamedOp Unit := do
  let h ← readHeader p
  let index := bucketIndex h.nameHash
  let w ← Prog.get
  modifyHeader p fun h => { h with next := w.buckets index }
  setBucket index p
  let w ← Prog.get
  setTotalCount (w.totalCount+1)
  if h.state = .ready then
    let w ← Prog.get
    setReadyCount (w.readyCount+1)
  else pure ()

def markReady (p : ℕ) : NamedOp Unit := do
  let h ← readHeader p
  if h.state ≠ .ready then
    modifyHeader p fun h => { h with state := .ready }
    let w ← Prog.get
    setReadyCount (w.readyCount+1)
  else pure ()

/-- `if (state == ready && ready_count > 0) { --ready_count; }` -/
def dropReady (state : NamedObjectState) : NamedOp Unit := do
  let w ← Prog.get
  if state = .ready ∧ 0 < w.readyCount then setReadyCount (w.readyCount-1) else pure ()

def markNotReady (p : ℕ) (state : NamedObjectState) : NamedOp Unit := do
  let h ← readHeader p
  dropReady h.state
  modifyHeader p fun h => { h with state := state }

/-- `if (total_count > 0) { --total_count; }` -/
def dropTotal : NamedOp Unit := do
  let w ← Prog.get
  if 0 < w.totalCount then setTotalCount (w.totalCount-1) else pure ()

/-- What comes before `curr` in the chain links to what comes behind it. -/
def bypass (index prev next : ℕ) : NamedOp Unit :=
  if prev ≠ 0 then modifyHeader prev fun h => { h with next := next } else setBucket index next

/-- What `unlink` does once it has come to `curr`, with `prev` before it. -/
def detach (index prev curr : ℕ) : NamedOp Unit := do
  let h ← readHeader curr
  bypass index prev h.next
  dropReady h.state
  dropTotal
  modifyHeader curr fun h => { h with next := 0 }

/-- The rounds of `unlink`. -/
def unlinkFrom (index target : ℕ) : ℕ → ℕ → ℕ → NamedOp Unit
  | fuel, prev, curr =>
    if curr = 0 then pure ()
    else match fuel with
      | 0 => Prog.hang
      | fuel+1 =>
        if curr = target then detach index prev curr
        else do
          let h ← readHeader curr
          unlinkFrom index target fuel curr h.next

def unlink (target : ℕ) : NamedOp Unit :=
  if target = 0 then pure ()
  else do
    let h ← readHeader target
    let index := bucketIndex h.nameHash
    let w ← Prog.get
    unlinkFrom index target walkFuel 0 (w.buckets index)

end NamedObjectRegistry

namespace SharedMemoryManager
open NamedOp NamedObjectRegistry

/-- A name is the C string behind the pointer, `none` for a null pointer. -/
def validateName : Option (List UInt8) → NamedOp (List UInt8)
  | none | some [] => throwInterprocess .invalidName
  | some name => pure name

def checkedObjectBytes (T : NamedType) (count : ℕ) : NamedOp ℕ :=
  if count = 0 then throwInterprocess .invalidName
  else if (2^64-1)/T.size < count then throwInterprocess .allocationSizeOverflow
  else pure (count*T.size)

def validateNamedType (T : NamedType) (h : NamedObjectHeader) : NamedOp Unit :=
  if h.objectSize ≠ T.size ∨ h.typeHash ≠ T.typeHash then throwInterprocess .namedObjectTypeMismatch else pure ()

/-- The null pointer is 0. -/
structure NamedReservation where
  header : ℕ
  objectStorage : ℕ
  existingObject : ℕ
  deriving DecidableEq, Repr

/-- The `catch` block of `reserve_named_storage`. -/
def releaseStorage {α : Type} (name header object : ℕ) (e : NamedThrown) : NamedOp α := do
  NamedOp.deallocate name
  NamedOp.deallocate header
  NamedOp.deallocate object
  Prog.throw e

/-- The `try` block of `reserve_named_storage`: storage for the object, the header and the name. -/
def allocateStorage (objectBytes al nameLength : ℕ) : NamedOp (ℕ × ℕ × ℕ) := do
  match ← (NamedOp.allocate objectBytes al).attempt with
  | .error e => releaseStorage 0 0 0 e
  | .ok object =>
    match ← (NamedOp.allocate namedObjectHeaderSize namedObjectHeaderAlign).attempt with
    | .error e => releaseStorage 0 0 object e
    | .ok header =>
      match ← (NamedOp.allocate (nameLength+1) 1).attempt with
      | .error e => releaseStorage 0 header object e
      | .ok name => pure (object, header, name)

/-- `reserve_named_storage` once there is storage, in the process `pid`. -/
def fillStorage (T : NamedType) (pid : ℕ) (name : List UInt8) (count objectBytes object header nameStorage : ℕ) :
    NamedOp NamedReservation := do
  setCell object (some (.object objectBytes []))
  setCell nameStorage (some (.name name))
  setCell header (some (.header ⟨object, nameStorage, 0, name.length, count, T.size, T.typeHash, hashName name, pid, .constructing⟩))
  insert header
  pure ⟨header, object, 0⟩

/-- The section of `reserve_named_storage`. -/
def reserveUnlocked (T : NamedType) (pid : ℕ) (name : List UInt8) (count objectBytes : ℕ) (returnExistingReady : Bool) :
    NamedOp NamedReservation := do
  let existing ← findAny name
  if existing ≠ 0 then
    let h ← readHeader existing
    if returnExistingReady = true ∧ h.state = .ready then
      validateNamedType T h
      pure ⟨0, 0, h.ptr⟩
    else pure ⟨0, 0, 0⟩
  else
    let (object, header, nameStorage) ← allocateStorage objectBytes T.align name.length
    fillStorage T pid name count objectBytes object header nameStorage

def reserveNamedStorage (T : NamedType) (pid : ℕ) (name : Option (List UInt8)) (count : ℕ) (returnExistingReady : Bool) :
    NamedOp NamedReservation := do
  let name ← validateName name
  let objectBytes ← checkedObjectBytes T count
  reserveUnlocked T pid name count objectBytes returnExistingReady

def markNamedObjectReady (header : ℕ) : NamedOp Unit := do
  modifyHeader header fun h => { h with ownerPid := 0 }
  markReady header

def deallocateNamedStorageUnlocked (header : ℕ) : NamedOp Unit :=
  if header = 0 then pure ()
  else do
    let h ← readHeader header
    unlink header
    setCell header none
    NamedOp.deallocate h.name
    NamedOp.deallocate header
    NamedOp.deallocate h.ptr

def releaseFailedConstruction (header : ℕ) : NamedOp Unit := deallocateNamedStorageUnlocked header

/-- `new (array + i) T(...)`. -/
def constructElement (T : NamedType) (storage i : ℕ) : NamedOp Unit :=
  Prog.read fun w =>
    match w.cell storage with
    | some (.object bytes alive) =>
      if i ∈ alive ∨ bytes < (i+1)*T.size then undefined
      else Prog.write (fun w => { w with constructions := w.constructions+1 }) <|
        if T.throws w.constructions then Prog.throw .element
        else Prog.store fun w => { w with
          cell := Function.update w.cell storage (some (.object bytes (i :: alive)))
          events := .constructed storage i :: w.events }
    | _ => undefined

/-- `objects[i].~T()`. -/
def destroyElement (storage i : ℕ) : NamedOp Unit :=
  Prog.read fun w =>
    match w.cell storage with
    | some (.object bytes alive) =>
      if i ∈ alive then
        Prog.store fun w => { w with
          cell := Function.update w.cell storage (some (.object bytes (alive.erase i)))
          events := .destroyed storage i :: w.events }
      else undefined
    | _ => undefined

def destroyConstructedRange (storage : ℕ) : ℕ → NamedSteps Unit
  | 0 => pure ()
  | count+1 => do
    .atomically (destroyElement storage count)
    destroyConstructedRange storage count

/-- `construct` and `find_or_construct` from the reservation on. -/
def constructReserved (T : NamedType) (reservation : NamedReservation) : NamedSteps ℕ := do
  if reservation.existingObject ≠ 0 then pure reservation.existingObject
  else if reservation.header = 0 then pure 0
  else do
    match ← (Steps.atomically (constructElement T reservation.objectStorage 0)).attempt with
    | .ok () =>
      .atomically (markNamedObjectReady reservation.header)
      pure reservation.objectStorage
    | .error e =>
      .atomically (releaseFailedConstruction reservation.header)
      .throw e

def construct (T : NamedType) (pid : ℕ) (name : Option (List UInt8)) : NamedSteps ℕ := do
  let reservation ← .atomically (reserveNamedStorage T pid name 1 false)
  constructReserved T reservation

def findOrConstruct (T : NamedType) (pid : ℕ) (name : Option (List UInt8)) : NamedSteps ℕ := do
  let reservation ← .atomically (reserveNamedStorage T pid name 1 true)
  constructReserved T reservation

/-- `construct_array` and `construct_array_from_range` once there is storage. -/
def constructElements (T : NamedType) (reservation : NamedReservation) (count : ℕ) : NamedSteps ℕ := do
  Steps.tryLoop (fun i => .atomically (constructElement T reservation.objectStorage i))
    (fun constructed => do
      destroyConstructedRange reservation.objectStorage constructed
      .atomically (releaseFailedConstruction reservation.header)) 0 count
  .atomically (markNamedObjectReady reservation.header)
  pure reservation.objectStorage

def constructArray (T : NamedType) (pid : ℕ) (name : Option (List UInt8)) (count : ℕ) : NamedSteps ℕ := do
  let reservation ← .atomically (reserveNamedStorage T pid name count false)
  if reservation.existingObject ≠ 0 then pure reservation.existingObject
  else if reservation.header = 0 then pure 0
  else constructElements T reservation count

/-- For a range of so many elements. -/
def constructArrayFromRange (T : NamedType) (pid : ℕ) (name : Option (List UInt8)) (count : ℕ) : NamedSteps ℕ := do
  let reservation ← .atomically (reserveNamedStorage T pid name count false)
  if reservation.header = 0 then pure 0
  else constructElements T reservation count

/-- `find` and `find_array`: the object and how many elements it has. -/
def find (T : NamedType) (name : Option (List UInt8)) : NamedOp (ℕ × ℕ) := do
  let name ← validateName name
  let p ← findReady name
  if p = 0 then pure (0, 0)
  else do
    let h ← readHeader p
    validateNamedType T h
    pure (h.ptr, h.instanceCount)

/-- The section of `destroy` and `destroy_ptr`, once the entry has been looked for. -/
def claimForDestruction (T : NamedType) (pid p : ℕ) : NamedOp ℕ :=
  if p = 0 then pure 0
  else do
    let h ← readHeader p
    validateNamedType T h
    markNotReady p .destroying
    modifyHeader p fun h => { h with ownerPid := pid }
    pure p

/-- `destroy`, `destroy_array` and `destroy_ptr` once the entry is claimed. -/
def destroyReservedObject (header : ℕ) : NamedSteps Bool :=
  if header = 0 then pure false
  else do
    let h ← .atomically (readHeader header)
    destroyConstructedRange h.ptr h.instanceCount
    .atomically (deallocateNamedStorageUnlocked header)
    pure true

def destroy (T : NamedType) (pid : ℕ) (name : Option (List UInt8)) : NamedSteps Bool := do
  let header ← .atomically do
    let name ← validateName name
    let p ← findReady name
    claimForDestruction T pid p
  destroyReservedObject header

def destroyPtr (T : NamedType) (pid ptr : ℕ) : NamedSteps Bool :=
  if ptr = 0 then pure false
  else do
    let header ← .atomically do
      let p ← findReadyByPtr ptr
      claimForDestruction T pid p
    destroyReservedObject header

def isProcessAlive (w : NamedWorld) (pid : ℕ) : Bool := pid ≠ 0 && w.processAlive pid

/-- The entry is not ready, and its owner is gone. -/
def abandoned (w : NamedWorld) (h : NamedObjectHeader) : Bool := h.state ≠ .ready && !isProcessAlive w h.ownerPid

/-- The rounds of `recover_abandoned_named_objects`. -/
def recoverFrom : ℕ → ℕ → NamedOp ℕ
  | fuel, recovered => do
    let w ← Prog.get
    let p ← findIf (abandoned w)
    if p = 0 then pure recovered
    else match fuel with
      | 0 => Prog.hang
      | fuel+1 => do
        deallocateNamedStorageUnlocked p
        recoverFrom fuel (recovered+1)

def recoverAbandonedNamedObjects : NamedOp ℕ := recoverFrom walkFuel 0

end SharedMemoryManager

end ShmNext
