import ShmNext.HeapSafety

/-! Which request sizes defeat the bounds checks of `allocate` and `try_expand`: the layout
is compared with the block in arithmetic modulo `2^64`. -/
namespace ShmNext
open Prog

variable {s c : Allocator} {b : Block} {bs l xs ys : List Block} {n k p room : ℕ}

section Throws

end Throws

namespace Sane

end Sane

/-- `SharedMemoryAllocator<T>::allocate(n)`, as the containers call it. -/
def allocateElements (sizeofT alignofT n : ℕ) : Op ℕ :=
  if (2^64-1)/sizeofT < n then Prog.throw .stdBadAlloc
  else do
    let p ← allocate (n*sizeofT) alignofT
    if p = 0 then Prog.throw .stdBadAlloc else pure p

end ShmNext
