import ShmNext.ByteMemory
import ShmNext.LinkedChain
import ShmNext.OffsetPtr
import ShmNext.StoreProgram

/-! `SharedMemoryBlockAllocator` as the header computes it: block and allocation
headers are bytes of the segment, links are stored `OffsetPtr` words, arithmetic
is modulo `2^64`, and every member function is a program of stores. -/
namespace ShmNext

inductive InterprocessErrc where
  | segmentTooSmall
  | initializationInProgress
  | initializationCorrupted
  | invalidName
  | allocationSizeOverflow
  | badAlloc
  | invalidPointer
  | doubleFree
  | namedObjectTypeMismatch
  | metadataChangedDuringRead
  deriving DecidableEq, Repr

/-- What a member function can throw; `outOfRange` comes from `OffsetPtr`,
`stdBadAlloc` from the size guard of `SharedMemoryAllocator`, and `systemError` from a system call. -/
inductive Thrown where
  | interprocess (e : InterprocessErrc)
  | outOfRange
  | stdBadAlloc
  | systemError
  deriving DecidableEq, Repr

def add64 (a b : ℕ) : ℕ := (a+b)%2^64

def sub64 (a b : ℕ) : ℕ := (a+2^64-b)%2^64

def not64 (a : ℕ) : ℕ := 2^64-1-a

structure Counters where
  allocateCalls : ℕ
  deallocateCalls : ℕ
  allocateManyCalls : ℕ
  deallocateManyCalls : ℕ
  failedAllocations : ℕ
  splitCount : ℕ
  mergeCount : ℕ
  tryExpandCalls : ℕ
  tryExpandSuccesses : ℕ
  tryExpandFailures : ℕ
  deriving DecidableEq, Repr

def Counters.zero : Counters := ⟨0, 0, 0, 0, 0, 0, 0, 0, 0, 0⟩

/-- The bytes of the mapping and the members of the allocator object at address
`self`; its three `OffsetPtr` members are kept as stored words. -/
structure Allocator where
  mem : Mem
  self : ℕ
  segmentBase : ℕ
  segmentSize : ℕ
  firstBlock : ℕ
  freeListHead : ℕ
  counters : Counters

abbrev Op := Prog Allocator Thrown

/-- `sizeof(BlockHeader)`: size at 0, is_free at 8, next_free at 16. -/
def blockHeaderSize : ℕ := 32

/-- `sizeof(AllocationHeader)`: block at 0, requested_size at 8. -/
def allocationHeaderSize : ℕ := 16

def alignment : ℕ := 16

/-- One more than the number of addresses: a list walk that takes longer repeats itself for ever. -/
def walkFuel : ℕ := 2^64

def blockSize (m : Mem) (block : ℕ) : ℕ := m.load64 block

/-- The byte of `is_free`. A `bool` is stored as 0 or 1, but corrupted memory may hold any byte. -/
def isFreeByte (m : Mem) (block : ℕ) : UInt8 := m (block+8)

/-- `is_free` as a condition, where every byte but 0 counts as true. -/
def blockIsFree (m : Mem) (block : ℕ) : Bool := isFreeByte m block != 0

/-- The byte that stores a `bool`. -/
def boolByte (f : Bool) : UInt8 := UInt8.ofNat f.toNat

@[simp] theorem boolByte_ne_zero (f : Bool) : (boolByte f != 0) = f := by
  cases f <;> rfl

def nextFree (m : Mem) (block : ℕ) : ℕ := getPointer (block+16) (m.load64 (block+16))

/-- `allocation_header->block` for the header just below `payload`. -/
def headerBlock (m : Mem) (payload : ℕ) : ℕ := getPointer (payload-16) (m.load64 (payload-16))

def headerRequestedSize (m : Mem) (payload : ℕ) : ℕ := m.load64 (payload-8)

namespace Allocator

def segmentBegin (s : Allocator) : ℕ := getPointer s.self s.segmentBase

def segmentEnd (s : Allocator) : ℕ := add64 s.segmentBegin s.segmentSize

def first (s : Allocator) : ℕ := getPointer (s.self+16) s.firstBlock

def head (s : Allocator) : ℕ := getPointer (s.self+24) s.freeListHead

def maxBlocks (s : Allocator) : ℕ := s.segmentSize/alignment+1

end Allocator

def alignUp (value align : ℕ) : ℕ := sub64 (add64 value align) 1 &&& not64 (sub64 align 1)

def alignDown (value align : ℕ) : ℕ := value &&& not64 (sub64 align 1)

/-- The doubling loop of `normalize_alignment`. Sixty-four doublings turn any
starting value into 0, from where the loop never ends. -/
def normalizeLoop (requested : ℕ) : ℕ → ℕ → Option ℕ
  | fuel, normalized =>
    if normalized < requested then
      match fuel with
      | 0 => none
      | fuel+1 => normalizeLoop requested fuel ((normalized <<< 1)%2^64)
    else some normalized

/-- `none` when the loop runs for ever. -/
def normalizeAlignment (requestedAlignment : ℕ) : Option ℕ :=
  normalizeLoop requestedAlignment 64 alignment

structure AllocationLayout where
  payload : ℕ
  totalSize : ℕ
  deriving DecidableEq, Repr

def makeLayout (block size payloadAlignment : ℕ) : AllocationLayout :=
  let payloadStart := alignUp (add64 (add64 block blockHeaderSize) allocationHeaderSize) payloadAlignment
  { payload := payloadStart
    totalSize := alignUp (sub64 (add64 payloadStart size) block) alignment }

/-! Reads of the structure. -/

def isAlignedAddress (value : ℕ) : Bool := value%alignment == 0

def isAddressInSegment (s : Allocator) (value : ℕ) : Bool :=
  decide (s.segmentBegin ≤ value) && decide (value < s.segmentEnd)

def isRangeInSegment (s : Allocator) (begin size : ℕ) : Bool :=
  decide (s.segmentBegin ≤ begin) && decide (begin ≤ s.segmentEnd) &&
    decide (size ≤ sub64 s.segmentEnd begin)

/-- The step all bounded walks over the blocks share: the checked address of the next header. -/
@[irreducible] def blockAfter (m : Mem) (limit current : ℕ) : Option ℕ :=
  let size := blockSize m current
  if size < blockHeaderSize ∨ size%alignment ≠ 0 then none
  else
    let next := add64 current size
    if next ≤ current ∨ limit < next then none else some next

def physicalNext (s : Allocator) (block : ℕ) : ℕ :=
  let next := add64 block (blockSize s.mem block)
  if s.segmentEnd ≤ next then 0 else next

/-- The common body of `physical_previous` and `last_block`; `left` more blocks
may be visited before `visited_blocks` exceeds `max_blocks`. -/
def lastBlockBefore (m : Mem) (limit : ℕ) : ℕ → ℕ → ℕ → ℕ
  | left, current, prev =>
    if current < limit then
      match blockAfter m limit current with
      | none => 0
      | some next =>
        match left with
        | 0 => 0
        | left+1 => lastBlockBefore m limit left next current
    else if current = limit then prev else 0

def physicalPrevious (s : Allocator) (block : ℕ) : ℕ :=
  lastBlockBefore s.mem block s.maxBlocks s.first 0

def lastBlock (s : Allocator) : ℕ :=
  lastBlockBefore s.mem s.segmentEnd s.maxBlocks s.first 0

def isBlockInChainLoop (m : Mem) (target limit : ℕ) : ℕ → ℕ → Bool
  | left, current =>
    if current < limit then
      if current = target then true
      else match blockAfter m limit current with
        | none => false
        | some next =>
          match left with
          | 0 => false
          | left+1 => isBlockInChainLoop m target limit left next
    else false

def isBlockInChain (s : Allocator) (target : ℕ) : Bool :=
  isBlockInChainLoop s.mem target s.segmentEnd s.maxBlocks s.first

def isInFreeListLoop (m : Mem) (target : ℕ) : ℕ → ℕ → Bool
  | left, curr =>
    if curr = 0 then false
    else if curr = target then true
    else match left with
      | 0 => false
      | left+1 => isInFreeListLoop m target left (nextFree m curr)

def isInFreeList (s : Allocator) (target : ℕ) : Bool :=
  isInFreeListLoop s.mem target s.maxBlocks s.head

def isValidFreeListLoop (s : Allocator) : ℕ → ℕ → Bool
  | left, curr =>
    if curr = 0 then true
    else if !isAddressInSegment s curr || !isAlignedAddress curr || !blockIsFree s.mem curr ||
        !isBlockInChain s curr then false
    else match left with
      | 0 => false
      | left+1 => isValidFreeListLoop s left (nextFree s.mem curr)

def isValidFreeList (s : Allocator) : Bool := isValidFreeListLoop s s.maxBlocks s.head

def checkSanityLoop (s : Allocator) : ℕ → ℕ → Bool
  | left, current =>
    if current < s.segmentEnd then
      if !isAlignedAddress current then false
      else match blockAfter s.mem s.segmentEnd current with
        | none => false
        | some next =>
          -- the comparison is one of bytes: one that is neither 0 nor 1 differs from both answers
          if isFreeByte s.mem current != boolByte (isInFreeList s current) then false
          else match left with
            | 0 => false
            | left+1 => checkSanityLoop s left next
    else current == s.segmentEnd

def checkSanity (s : Allocator) : Bool :=
  if s.segmentBegin = 0 ∨ s.segmentSize = 0 ∨ s.first = 0 then false
  else if !isValidFreeList s then false
  else checkSanityLoop s s.maxBlocks s.first

def owns (s : Allocator) (ptr : ℕ) : Bool := ptr != 0 && isAddressInSegment s ptr

def hasAllocationHeader (s : Allocator) (ptr : ℕ) : Bool :=
  owns s ptr && !decide (ptr < allocationHeaderSize) &&
    isRangeInSegment s (ptr-allocationHeaderSize) allocationHeaderSize

def isValidPayload (s : Allocator) (ptr block : ℕ) : Bool :=
  if !hasAllocationHeader s ptr || block == 0 then false
  else if !isAddressInSegment s block || !isAlignedAddress block || !isBlockInChain s block then false
  else
    let payloadBegin := add64 (add64 block blockHeaderSize) allocationHeaderSize
    let blockEnd := add64 block (blockSize s.mem block)
    decide (payloadBegin ≤ ptr) && decide (ptr < blockEnd) &&
      decide (headerRequestedSize s.mem ptr ≤ sub64 blockEnd ptr)

/-! Stores. -/

def storeMem (f : Mem → Mem) : Op Unit := Prog.store fun s => { s with mem := f s.mem }

def count (f : Counters → Counters) : Op Unit := Prog.store fun s => { s with counters := f s.counters }

/-- Assignment to the `OffsetPtr` at address `self`. -/
def storePointer (self ptr : ℕ) : Op Unit :=
  match setPointer self ptr with
  | none => Prog.throw .outOfRange
  | some w => storeMem fun m => m.store64 self w

def setSize (block size : ℕ) : Op Unit := storeMem fun m => m.store64 block size

def setIsFree (block : ℕ) (free : Bool) : Op Unit := storeMem fun m => m.store8 (block+8) free.toNat

def setNextFree (block next : ℕ) : Op Unit := storePointer (block+16) next

def setFreeListHead (block : ℕ) : Op Unit := do
  let s ← Prog.get
  match setPointer (s.self+24) block with
  | none => Prog.throw .outOfRange
  | some w => Prog.store fun s => { s with freeListHead := w }

def setSegmentSize (size : ℕ) : Op Unit := Prog.store fun s => { s with segmentSize := size }

/-! Member functions that change the structure. -/

/-- `remove_free_block(prev, target)`. -/
def removeFreeBlockAfter (prev target : ℕ) : Op Unit := do
  let s ← Prog.get
  if prev ≠ 0 then setNextFree prev (nextFree s.mem target)
  else setFreeListHead (nextFree s.mem target)
  setNextFree target 0

/-- `remove_free_block(target)`: nothing happens when `target` is not on the list. -/
def removeFreeBlock (target : ℕ) : Op Unit := do
  let s ← Prog.get
  match scanChain (nextFree s.mem) (· == target) walkFuel 0 s.head with
  | none => Prog.hang
  | some (prev, curr) => if curr = 0 then pure () else removeFreeBlockAfter prev curr

def insertFreeBlock (block : ℕ) : Op Unit := do
  let s ← Prog.get
  let size := blockSize s.mem
  match scanChain (nextFree s.mem)
      (fun curr => !(decide (size curr < size block) || (size curr == size block && decide (curr < block))))
      walkFuel 0 s.head with
  | none => Prog.hang
  | some (prev, curr) =>
    setNextFree block curr
    if prev ≠ 0 then setNextFree prev block else setFreeListHead block

def splitAllocatedBlock (block usedSize : ℕ) : Op Unit := do
  let s ← Prog.get
  let remaining := sub64 (blockSize s.mem block) usedSize
  if remaining < blockHeaderSize+alignment then pure ()
  else
    count fun c => { c with splitCount := add64 c.splitCount 1 }
    let newBlock := add64 block usedSize
    setSize newBlock remaining
    setIsFree newBlock true
    setNextFree newBlock 0
    setSize block usedSize
    insertFreeBlock newBlock

def allocateFromBlock (prev curr : ℕ) (layout : AllocationLayout) (requestedSize : ℕ) : Op ℕ := do
  removeFreeBlockAfter prev curr
  splitAllocatedBlock curr layout.totalSize
  setIsFree curr false
  setNextFree curr 0
  let header := sub64 layout.payload allocationHeaderSize
  storePointer header curr
  storeMem fun m => m.store64 (header+8) requestedSize
  pure layout.payload

/-- Whether `allocate` takes the block: free, and its size covers the layout. -/
def fits (m : Mem) (size payloadAlignment curr : ℕ) : Bool :=
  blockIsFree m curr && decide ((makeLayout curr size payloadAlignment).totalSize ≤ blockSize m curr)

def allocate (size requestedAlignment : ℕ) : Op ℕ := do
  count fun c => { c with allocateCalls := add64 c.allocateCalls 1 }
  if size = 0 then pure 0
  else match normalizeAlignment requestedAlignment with
    | none => Prog.hang
    | some payloadAlignment => do
      let s ← Prog.get
      match scanChain (nextFree s.mem) (fits s.mem size payloadAlignment) walkFuel 0 s.head with
      | none => Prog.hang
      | some (prev, curr) =>
        if curr = 0 then do
          count fun c => { c with failedAllocations := add64 c.failedAllocations 1 }
          Prog.throw (.interprocess .badAlloc)
        else allocateFromBlock prev curr (makeLayout curr size payloadAlignment) size

/-- The merge with the physically next block in `deallocate_block`. -/
def mergeNext (block : ℕ) : Op Unit := do
  let s ← Prog.get
  let next := physicalNext s block
  if next ≠ 0 ∧ blockIsFree s.mem next = true then
    removeFreeBlock next
    let s ← Prog.get
    setSize block (add64 (blockSize s.mem block) (blockSize s.mem next))
    count fun c => { c with mergeCount := add64 c.mergeCount 1 }
  else pure ()

/-- The merge with the physically previous block, answering the block that is left. -/
def mergePrevious (block : ℕ) : Op ℕ := do
  let s ← Prog.get
  let prev := physicalPrevious s block
  if prev ≠ 0 ∧ blockIsFree s.mem prev = true then
    removeFreeBlock prev
    let s ← Prog.get
    setSize prev (add64 (blockSize s.mem prev) (blockSize s.mem block))
    count fun c => { c with mergeCount := add64 c.mergeCount 1 }
    pure prev
  else pure block

def deallocateBlock (block : ℕ) : Op Unit := do
  setIsFree block true
  setNextFree block 0
  mergeNext block
  let block ← mergePrevious block
  setIsFree block true
  setNextFree block 0
  insertFreeBlock block

def deallocate (ptr : ℕ) : Op Unit := do
  count fun c => { c with deallocateCalls := add64 c.deallocateCalls 1 }
  if ptr = 0 then pure ()
  else do
    let s ← Prog.get
    if !hasAllocationHeader s ptr then Prog.throw (.interprocess .invalidPointer)
    else
      let block := headerBlock s.mem ptr
      if !isValidPayload s ptr block then Prog.throw (.interprocess .invalidPointer)
      else if blockIsFree s.mem block then Prog.throw (.interprocess .doubleFree)
      else deallocateBlock block

/-- The loop of `allocate_many`; `out` holds the filled entries, the latest first.
On an exception the entries are freed in that order and read null in `out`. -/
def allocateManyLoop (size requestedAlignment : ℕ) : ℕ → List ℕ → Op (List ℕ × Option Thrown)
  | 0, out => pure (out.reverse, none)
  | left+1, out => do
    match ← (allocate size requestedAlignment).attempt with
    | .ok p => allocateManyLoop size requestedAlignment left (p :: out)
    | .error e => do
      out.forM deallocate
      pure (out.map fun _ => 0, some e)

/-- `allocate_many`: the entries of `out` it has written, and the exception it rethrows. -/
def allocateMany (size count' requestedAlignment : ℕ) : Op (List ℕ × Option Thrown) := do
  count fun c => { c with allocateManyCalls := add64 c.allocateManyCalls 1 }
  allocateManyLoop size requestedAlignment count' []

def deallocateMany (ptrs : List ℕ) : Op Unit := do
  count fun c => { c with deallocateManyCalls := add64 c.deallocateManyCalls 1 }
  ptrs.forM deallocate

def expandFailure : Op Bool := do
  count fun c => { c with tryExpandFailures := add64 c.tryExpandFailures 1 }
  pure false

def expandSuccess : Op Bool := do
  count fun c => { c with tryExpandSuccesses := add64 c.tryExpandSuccesses 1 }
  pure true

/-- The rest of `try_expand` once the layout at `block` is known to start at `ptr`. -/
def expandBlock (ptr block newSize totalSize : ℕ) : Op Bool := do
  let s ← Prog.get
  if totalSize ≤ blockSize s.mem block then
    storeMem fun m => m.store64 (ptr-8) newSize
    expandSuccess
  else
    let next := physicalNext s block
    if next = 0 ∨ blockIsFree s.mem next = false then expandFailure
    else
      let combined := add64 (blockSize s.mem block) (blockSize s.mem next)
      if combined < totalSize then expandFailure
      else
        removeFreeBlock next
        setSize block combined
        splitAllocatedBlock block totalSize
        storeMem fun m => m.store64 (ptr-8) newSize
        expandSuccess

def tryExpand (ptr newSize requestedAlignment : ℕ) : Op Bool := do
  count fun c => { c with tryExpandCalls := add64 c.tryExpandCalls 1 }
  let s ← Prog.get
  if ptr = 0 ∨ newSize = 0 ∨ hasAllocationHeader s ptr = false then expandFailure
  else
    let block := headerBlock s.mem ptr
    if isValidPayload s ptr block = false ∨ blockIsFree s.mem block = true then expandFailure
    else match normalizeAlignment requestedAlignment with
      | none => Prog.hang
      | some payloadAlignment =>
        let layout := makeLayout block newSize payloadAlignment
        if layout.payload ≠ ptr then expandFailure
        else expandBlock ptr block newSize layout.totalSize

def grow (newSegmentSize : ℕ) : Op Bool := do
  let s ← Prog.get
  let newSegmentSize := alignDown newSegmentSize alignment
  if newSegmentSize ≤ s.segmentSize then pure false
  else
    let oldSegmentSize := s.segmentSize
    let oldSegmentEnd := s.segmentEnd
    let extraSize := sub64 newSegmentSize oldSegmentSize
    setSegmentSize newSegmentSize
    let s ← Prog.get
    let tail := physicalPrevious s oldSegmentEnd
    if tail ≠ 0 ∧ blockIsFree s.mem tail = true then
      removeFreeBlock tail
      let s ← Prog.get
      setSize tail (add64 (blockSize s.mem tail) extraSize)
      insertFreeBlock tail
      pure true
    else if extraSize < blockHeaderSize+alignment then
      setSegmentSize oldSegmentSize
      pure false
    else
      setSize oldSegmentEnd extraSize
      setIsFree oldSegmentEnd true
      setNextFree oldSegmentEnd 0
      insertFreeBlock oldSegmentEnd
      pure true

def shrinkToFit : Op ℕ := do
  let s ← Prog.get
  let last := lastBlock s
  if last = 0 ∨ blockIsFree s.mem last = false then pure s.segmentSize
  else
    let keepSize := if last = s.first then blockHeaderSize+alignment else 0
    if blockSize s.mem last ≤ keepSize then pure s.segmentSize
    else
      removeFreeBlock last
      let newSegmentSize := add64 (sub64 last s.segmentBegin) keepSize
      if keepSize ≠ 0 then
        setSize last keepSize
        setIsFree last true
        setNextFree last 0
        insertFreeBlock last
      else pure ()
      setSegmentSize newSegmentSize
      pure newSegmentSize

/-- The loop of `zero_free_memory`. -/
def zeroFreeLoop : ℕ → ℕ → Op Unit
  | fuel, curr =>
    if curr = 0 then pure ()
    else match fuel with
      | 0 => Prog.hang
      | fuel+1 => do
        storeMem fun m => m.fill (add64 curr blockHeaderSize) (sub64 (blockSize m curr) blockHeaderSize) 0
        let s ← Prog.get
        zeroFreeLoop fuel (nextFree s.mem curr)

def zeroFreeMemory : Op Unit := do
  let s ← Prog.get
  zeroFreeLoop walkFuel s.head

def allocationSize (ptr : ℕ) : Op ℕ := do
  if ptr = 0 then pure 0
  else do
    let s ← Prog.get
    if !hasAllocationHeader s ptr then Prog.throw (.interprocess .invalidPointer)
    else
      let block := headerBlock s.mem ptr
      if !isValidPayload s ptr block || blockIsFree s.mem block then Prog.throw (.interprocess .invalidPointer)
      else pure (headerRequestedSize s.mem ptr)

/-- `initialize`; the allocator object itself is in the manager header below the first block. -/
def initializeAllocator (base managerHeaderSize totalSize : ℕ) : Op Unit := do
  let s ← Prog.get
  let headerSize := alignUp managerHeaderSize alignment
  if totalSize < add64 headerSize blockHeaderSize then Prog.throw (.interprocess .segmentTooSmall)
  else
    let firstBlock := add64 base headerSize
    setSize firstBlock (sub64 totalSize headerSize)
    setIsFree firstBlock true
    setNextFree firstBlock 0
    match setPointer s.self base with
    | none => Prog.throw .outOfRange
    | some w => Prog.store fun s => { s with segmentBase := w }
    setSegmentSize totalSize
    match setPointer (s.self+16) firstBlock with
    | none => Prog.throw .outOfRange
    | some w => Prog.store fun s => { s with firstBlock := w }
    setFreeListHead firstBlock
    count fun _ => Counters.zero

end ShmNext
