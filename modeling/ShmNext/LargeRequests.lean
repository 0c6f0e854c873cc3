import ShmNext.NamedConstruction
import ShmNext.SegmentFields
import ShmNext.VectorFailures

/-! Requests larger than the segment, made of the allocator itself, through `construct_array` and through `reserve`: the guards
of these two let every number of single bytes through, and what comes of it is decided by the layout. -/
namespace ShmNext
open Prog

variable {s c d : Allocator} {bs l : List Block} {n k p : ℕ}

theorem CountersOnly.between (h : CountersOnly s c) (h' : CountersOnly s d) : CountersOnly c d := by
  obtain ⟨k, rfl⟩ := h
  obtain ⟨k', rfl⟩ := h'
  exact ⟨k', rfl⟩

section Reserve
open SharedMemoryVector
variable {V α : Type} {T : ElementType V} {w : VectorWorld V} {v : ℕ} {g : Heap} {A : ℕ → Option (List V)}

variable {f : ℕ → VectorOp V Unit}

end Reserve

section ConstructArray
open NamedOp NamedObjectRegistry SharedMemoryManager
variable {α β : Type} {T : NamedType} {w : NamedWorld} {E : Buckets} {others : List (ℕ × ℕ)} {pid : ℕ} {name : List UInt8} {g : Heap}
  {e : NamedThrown}

/-- How often `allocate` has been called. -/
def NamedWorld.allocateCalls (w : NamedWorld) : ℕ := w.heap.alloc.counters.allocateCalls

end ConstructArray

end ShmNext
