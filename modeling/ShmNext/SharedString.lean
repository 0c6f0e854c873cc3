import ShmNext.Vector

/-! `BasicSharedMemoryString` as the header computes it. A string has the same three members as a vector, and its
buffer has one slot more than its capacity, for the terminator. The characters of a buffer have to be
written before they may be read, and they end with the allocation. -/
namespace ShmNext

/-- The character type, with `CharT(0)`. Its copies throw nothing. -/
structure CharType (C : Type) extends ElementType C where
  zero : C

abbrev StringOp (C α : Type) := VectorOp C α

/-- `start`, `finish` and `end_of_storage`. -/
abbrev SharedMemoryString := SharedMemoryVector

/-- The range `[s, s+n)` that a call is given: characters that lie where no string has its buffer, or `n` characters
from the address `p` on. -/
inductive CharSource (C : Type) where
  | outside (chars : List C)
  | inside (p n : ℕ)

namespace CharSource
variable {C : Type}

def length : CharSource C → ℕ
  | outside chars => chars.length
  | inside _ n => n

end CharSource

/-- What a C string is to the calls that take one: `Traits::length` stops at the first terminator. -/
def cString {C : Type} [DecidableEq C] (T : CharType C) (chars : List C) : CharSource C := .outside (chars.takeWhile (· ≠ T.zero))

namespace SharedMemoryString
open SharedMemoryVector
variable {C : Type} (T : CharType C)

/-- `*p` is read. -/
def charAt (p : ℕ) : StringOp C C := elementAt p

/-- `s[i]`. -/
def sourceAt : CharSource C → ℕ → StringOp C C
  | .outside chars, i =>
    match chars[i]? with
    | none => undefined
    | some x => pure x
  | .inside p _, i => charAt (p+i*T.sizeofT)

/-- The bytes of a character lie in an allocation that is held. -/
def InAllocation (g : Heap) (p : ℕ) : Prop := ∃ a ∈ g.live, a.payload ≤ p ∧ p+T.sizeofT ≤ a.payload+a.size

instance (g : Heap) (p : ℕ) : Decidable (InAllocation T g p) := inferInstanceAs (Decidable (∃ a ∈ g.live, _))

/-- `*p = x`. -/
def setChar (p : ℕ) (x : C) : StringOp C Unit :=
  Prog.read fun w =>
    if InAllocation T w.heap p then
      if (w.objects.slot p).isSome then assignAt p x else constructAt T.toElementType true p x
    else undefined

/-- The rounds of `Traits::copy(dst, s, n)` from `i` on. -/
def copyChars (dst : ℕ) (s : CharSource C) : ℕ → ℕ → StringOp C Unit
  | _, 0 => pure ()
  | i, left+1 => do
    let x ← sourceAt T s i
    setChar T (dst+i*T.sizeofT) x
    copyChars dst s (i+1) left

/-- The characters written so far in a buffer of `left` slots are no more. -/
def endChars (p : ℕ) : ℕ → ℕ → StringOp C Unit
  | _, 0 => pure ()
  | i, left+1 => do
    let w ← Prog.get
    if (w.objects.slot (p+i*T.sizeofT)).isSome then destroyAt (p+i*T.sizeofT) else pure ()
    endChars p (i+1) left

/-- `allocator.deallocate(p, n)`. A buffer that is not held must not be given back. -/
def deallocateChars (p n : ℕ) : StringOp C Unit := do
  let w ← Prog.get
  if ∃ a ∈ w.heap.live, a.payload = p then
    endChars T p 0 n
    SharedMemoryVector.deallocate T.toElementType p
  else undefined

/-! The members of the string. -/

def size (x : SharedMemoryString) : ℕ := SharedMemoryVector.size T.toElementType x

def capacity (x : SharedMemoryString) : ℕ := SharedMemoryVector.capacity T.toElementType x

/-- `*finish = CharT(0)`. -/
def terminate (v : ℕ) : StringOp C Unit := do
  let w ← Prog.get
  setChar T (w.vec v).finish T.zero

def reallocate (v newCapacity : ℕ) : StringOp C Unit := do
  let w ← Prog.get
  let x := w.vec v
  let oldSize := size T x
  let expanded ←
    if x.start ≠ 0 ∧ capacity T x < newCapacity then SharedMemoryVector.tryExpand T.toElementType x.start ((newCapacity+1)%2^64) else pure false
  if expanded then
    setFinish v (x.start+oldSize*T.sizeofT)
    setEndOfStorage v (x.start+newCapacity*T.sizeofT)
    terminate T v
  else
    let newData ← SharedMemoryVector.allocate T.toElementType ((newCapacity+1)%2^64)
    if x.start ≠ 0 then
      copyChars T newData (.inside x.start oldSize) 0 oldSize
      deallocateChars T x.start (capacity T x+1)
    else pure ()
    setStart v newData
    setFinish v (newData+oldSize*T.sizeofT)
    setEndOfStorage v (newData+newCapacity*T.sizeofT)
    terminate T v

def initEmpty (v : ℕ) : StringOp C Unit := do
  reallocate T v 0
  let w ← Prog.get
  setChar T (w.vec v).start T.zero
  setFinish v (w.vec v).start

def releaseStorage (v : ℕ) : StringOp C Unit := do
  let w ← Prog.get
  if (w.vec v).start ≠ 0 then
    deallocateChars T (w.vec v).start (capacity T (w.vec v)+1)
    setNull v
  else pure ()

def reserve (v n : ℕ) : StringOp C Unit := do
  let w ← Prog.get
  if (w.vec v).start = 0 then reallocate T v n
  else if capacity T (w.vec v) < n then reallocate T v n
  else pure ()

def clear (v : ℕ) : StringOp C Unit := do
  let w ← Prog.get
  if (w.vec v).start ≠ 0 then
    setFinish v (w.vec v).start
    terminate T v
  else pure ()

/-- `finish = start+n; *finish = CharT(0);` -/
def finishAt (v n : ℕ) : StringOp C Unit := do
  let w ← Prog.get
  setFinish v ((w.vec v).start+n*T.sizeofT)
  terminate T v

def assign (v : ℕ) (s : CharSource C) : StringOp C Unit := do
  let n := s.length
  let w ← Prog.get
  if (w.vec v).start = 0 then initEmpty T v else pure ()
  let w ← Prog.get
  if capacity T (w.vec v) < n then reallocate T v n else pure ()
  let w ← Prog.get
  if n ≠ 0 then copyChars T (w.vec v).start s 0 n else pure ()
  finishAt T v n

def append (v : ℕ) (s : CharSource C) : StringOp C Unit := do
  let n := s.length
  let w ← Prog.get
  let wanted := (size T (w.vec v)+n)%2^64
  if capacity T (w.vec v) < wanted then reserve T v wanted else pure ()
  let w ← Prog.get
  copyChars T (w.vec v).finish s 0 n
  setFinish v ((w.vec v).finish+n*T.sizeofT)
  terminate T v

/-- The string without storage that each constructor begins with. -/
def construct (v : ℕ) : StringOp C Unit := do
  setNull v
  initEmpty T v
  born v

/-- The constructors from characters. -/
def constructFrom (v : ℕ) (s : CharSource C) : StringOp C Unit := do
  setNull v
  reserve T v s.length
  let w ← Prog.get
  copyChars T (w.vec v).start s 0 s.length
  finishAt T v s.length
  born v

/-- `[other.data(), other.data()+other.size())`. -/
def contents (w : VectorWorld C) (other : ℕ) : CharSource C := .inside (w.vec other).start (size T (w.vec other))

def copyConstruct (v other : ℕ) : StringOp C Unit := do
  setNull v
  let w ← Prog.get
  let s := contents T w other
  reserve T v s.length
  let w ← Prog.get
  if s.length ≠ 0 then copyChars T (w.vec v).start s 0 s.length else pure ()
  finishAt T v s.length
  born v

def moveConstruct (v other : ℕ) : StringOp C Unit := do
  takeFrom v other
  born v

def destruct (v : ℕ) : StringOp C Unit := do
  let w ← Prog.get
  if (w.vec v).start ≠ 0 then deallocateChars T (w.vec v).start (capacity T (w.vec v)+1) else pure ()
  Prog.store fun w => { w with names := w.names.erase v }

def copyAssign (v other : ℕ) : StringOp C Unit :=
  if v = other then pure ()
  else do
    let w ← Prog.get
    assign T v (contents T w other)

def moveAssign (v other : ℕ) : StringOp C Unit :=
  if v = other then pure ()
  else do
    releaseStorage T v
    takeFrom v other

/-! Comparisons. -/

end SharedMemoryString

end ShmNext
