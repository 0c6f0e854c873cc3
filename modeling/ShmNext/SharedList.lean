import Mathlib.Order.Defs.Unbundled
import ShmNext.NodePools
import ShmNext.LinkedNodes

/-! `SharedMemoryList` as the header computes it. The nodes form a circle through the sentinel, which is a member of
the list object. -/
namespace ShmNext

/-- What a `BaseNode*` names: the sentinel of a list object, or a node by its address. -/
inductive BaseNode where
  | sentinel (v : ℕ)
  | node (p : ℕ)
  deriving DecidableEq, Repr

instance : Inhabited BaseNode := ⟨.node 0⟩

/-- The links of a `BaseNode`. -/
inductive BaseLink where
  | prev
  | next
  deriving DecidableEq, Repr

/-- The node type, with the element that `T()` makes. -/
structure ListType (E : Type) extends NodeType where
  default : E

/-- The links of `sentinel`, and `size_`. -/
structure SharedMemoryList where
  links : BaseLink → BaseNode
  size : ℕ

abbrev ListNode (E : Type) := LinkedNode BaseLink BaseNode E

abbrev ListWorld (E : Type) := NodeWorld (ListNode E) SharedMemoryList

abbrev ListOp (E α : Type) := NodeOp (ListNode E) SharedMemoryList α

/-- `std::stable_sort` over a scratch array, under a comparison `lt` that is a strict weak order, as the library asks for: getting the
array may throw, and so may a comparison. Where neither does, the elements are put in order, and those that are equivalent stay in the
order they had. -/
structure StableSort (α : Type) (lt : α → α → Bool) where
  weak : IsStrictWeakOrder α fun a b => lt a b = true
  reserve : ℕ → Option NodeThrown
  sort : List α → Except NodeThrown (List α)
  stable : ∀ l r, sort l = .ok r → r = l.mergeSort fun a b => !lt b a

namespace SharedMemoryList
open NodeOp BaseLink BaseNode
variable {E : Type} (T : ListType E)

/-! Links. -/

/-- `q->f`. -/
def readPtr (q : BaseNode) (f : BaseLink) : ListOp E BaseNode :=
  match q with
  | sentinel v => do
    let w ← Prog.get
    pure ((w.obj v).links f)
  | node p => readLink p f

/-- `q->f = x`. -/
def setPtr (q : BaseNode) (f : BaseLink) (x : BaseNode) : ListOp E Unit :=
  match q with
  | sentinel v => modifyObj v fun l => { l with links := Function.update l.links f x }
  | node p => setLink p f x

def setSize (v n : ℕ) : ListOp E Unit := modifyObj v fun l => { l with size := n }

/-- `static_cast<Node*>(q)->value`. -/
def readValue (q : BaseNode) : ListOp E E :=
  match q with
  | sentinel _ => undefined
  | node p => readElem p

def resetSentinel (v : ℕ) : ListOp E Unit := do
  setPtr (sentinel v) prev (sentinel v)
  setPtr (sentinel v) next (sentinel v)

def createNode (v : ℕ) (x : E) : ListOp E BaseNode := do
  let p ← NodePool.create T.toNodeType v fun p => ⟨fun _ => node p, x⟩
  pure (node p)

def destroyNode (v : ℕ) (q : BaseNode) : ListOp E Unit :=
  match q with
  | sentinel _ => undefined
  | node p => NodePool.destroy v p

def linkBetween (before behind q : BaseNode) : ListOp E Unit := do
  setPtr q prev before
  setPtr q next behind
  setPtr before next q
  setPtr behind prev q

def unlink (q : BaseNode) : ListOp E Unit := do
  let before ← readPtr q prev
  let behind ← readPtr q next
  setPtr before next behind
  setPtr behind prev before
  setPtr q prev q
  setPtr q next q

/-- `begin()`. -/
def begin' (v : ℕ) : ListOp E BaseNode := readPtr (sentinel v) next

/-! Insertion. -/

def emplace (v : ℕ) (pos : BaseNode) (x : E) : ListOp E BaseNode := do
  let q ← createNode T v x
  let before ← readPtr pos prev
  linkBetween before pos q
  let w ← Prog.get
  setSize v ((w.obj v).size+1)
  pure q

/-- Each of `xs` is put before the same position. -/
def emplaceEach (v : ℕ) (pos : BaseNode) : List E → ListOp E Unit
  | [] => pure ()
  | x :: xs => do
    let _ ← emplace T v pos x
    emplaceEach v pos xs

/-- `insert(pos, count, value)`. -/
def insertFill (v : ℕ) (pos : BaseNode) (count : ℕ) (x : E) : ListOp E BaseNode :=
  match count with
  | 0 => pure pos
  | n+1 => do
    let result ← emplace T v pos x
    let behind ← readPtr result next
    emplaceEach T v behind (List.replicate n x)
    pure result

/-- `insert(pos, first, last)` for a range that lies outside the lists. -/
def insertRange (v : ℕ) (pos : BaseNode) (xs : List E) : ListOp E BaseNode :=
  match xs with
  | [] => pure pos
  | x :: xs => do
    let result ← emplace T v pos x
    emplaceEach T v pos xs
    pure result

/-- The rounds of `insert(pos, first, last)` for a range of another list. -/
def insertFrom (v : ℕ) (pos last : BaseNode) : ℕ → BaseNode → ListOp E Unit
  | fuel, first =>
    if first = last then pure ()
    else match fuel with
      | 0 => Prog.hang
      | fuel+1 => do
        let x ← readValue first
        let _ ← emplace T v pos x
        let behind ← readPtr first next
        insertFrom v pos last fuel behind

def emplaceFront (v : ℕ) (x : E) : ListOp E BaseNode := do
  let first ← begin' v
  emplace T v first x

def emplaceBack (v : ℕ) (x : E) : ListOp E BaseNode := emplace T v (sentinel v) x

/-! Removal. -/

def erase (v : ℕ) (pos : BaseNode) : ListOp E BaseNode :=
  if pos = sentinel v then pure (sentinel v)
  else do
    let behind ← readPtr pos next
    unlink pos
    destroyNode v pos
    let w ← Prog.get
    setSize v ((w.obj v).size-1)
    pure behind

/-- The rounds of `erase(first, last)`. -/
def eraseRange (v : ℕ) (finish : BaseNode) : ℕ → BaseNode → ListOp E Unit
  | fuel, current =>
    if current = finish then pure ()
    else match fuel with
      | 0 => Prog.hang
      | fuel+1 => do
        let behind ← erase v current
        eraseRange v finish fuel behind

def popFront (v : ℕ) : ListOp E Unit := do
  let first ← begin' v
  let _ ← erase v first

def popBack (v : ℕ) : ListOp E Unit := do
  let last ← readPtr (sentinel v) prev
  let _ ← erase v last

/-- The loop of `clear`. -/
def destroyNodes (v : ℕ) : ℕ → BaseNode → ListOp E Unit
  | fuel, current =>
    if current = sentinel v then pure ()
    else match fuel with
      | 0 => Prog.hang
      | fuel+1 => do
        let behind ← readPtr current next
        destroyNode v current
        destroyNodes v fuel behind

def clear (v : ℕ) : ListOp E Unit := do
  let first ← readPtr (sentinel v) next
  destroyNodes v walkFuel first
  resetSentinel v
  setSize v 0

def shrinkToFit (v : ℕ) : ListOp E Unit := NodePool.shrinkToFit T.toNodeType v

/-- The loop `while (size_ > count)`. -/
def dropTo (v count : ℕ) : ℕ → ListOp E Unit
  | 0 => do
    let w ← Prog.get
    if count < (w.obj v).size then Prog.hang else pure ()
  | fuel+1 => do
    let w ← Prog.get
    if count < (w.obj v).size then
      popBack v
      dropTo v count fuel
    else pure ()

/-- The loop `while (size_ < count)`. -/
def growTo (v count : ℕ) (x : E) : ℕ → ListOp E Unit
  | 0 => do
    let w ← Prog.get
    if (w.obj v).size < count then Prog.hang else pure ()
  | fuel+1 => do
    let w ← Prog.get
    if (w.obj v).size < count then
      let _ ← emplaceBack T v x
      growTo v count x fuel
    else pure ()

def resizeFill (v count : ℕ) (x : E) : ListOp E Unit := do
  dropTo v count walkFuel
  growTo T v count x count

def resize (v count : ℕ) : ListOp E Unit := resizeFill T v count T.default

def assignFill (v count : ℕ) (x : E) : ListOp E Unit := do
  clear v
  let first ← begin' v
  let _ ← insertFill T v first count x

def assignRange (v : ℕ) (xs : List E) : ListOp E Unit := do
  clear v
  let first ← begin' v
  let _ ← insertRange T v first xs

/-- The rounds of `remove_if`, with a predicate that does not throw. `remove(value)` is this for a value that is none of the list's own
elements, which the source compares with by reference. -/
def removeIfFrom (v : ℕ) (predicate : E → Bool) : ℕ → BaseNode → ListOp E Unit
  | fuel, current =>
    if current = sentinel v then pure ()
    else match fuel with
      | 0 => Prog.hang
      | fuel+1 => do
        let x ← readValue current
        let behind ← if predicate x then erase v current else readPtr current next
        removeIfFrom v predicate fuel behind

def removeIf (v : ℕ) (predicate : E → Bool) : ListOp E Unit := do
  let first ← begin' v
  removeIfFrom v predicate walkFuel first

/-- The rounds of `unique`, with a predicate that does not throw. -/
def uniqueFrom (v : ℕ) (predicate : E → E → Bool) : ℕ → BaseNode → BaseNode → ListOp E Unit
  | fuel, current, behind =>
    if behind = sentinel v then pure ()
    else match fuel with
      | 0 => Prog.hang
      | fuel+1 => do
        let x ← readValue current
        let y ← readValue behind
        if predicate x y then
          let behind ← erase v behind
          uniqueFrom v predicate fuel current behind
        else
          let further ← readPtr behind next
          uniqueFrom v predicate fuel behind further

def unique (v : ℕ) (predicate : E → E → Bool) : ListOp E Unit := do
  let w ← Prog.get
  if (w.obj v).size < 2 then pure ()
  else
    let current ← begin' v
    let behind ← readPtr current next
    uniqueFrom v predicate walkFuel current behind

/-! Nodes in another order, or in another list. -/

/-- The rounds of `reverse`. -/
def reverseFrom (v : ℕ) : ℕ → BaseNode → ListOp E Unit
  | 0, _ => Prog.hang
  | fuel+1, current => do
    let oldNext ← readPtr current next
    let oldPrev ← readPtr current prev
    setPtr current next oldPrev
    setPtr current prev oldNext
    if oldNext = sentinel v then pure () else reverseFrom v fuel oldNext

def reverse (v : ℕ) : ListOp E Unit := do
  let w ← Prog.get
  if (w.obj v).size < 2 then pure () else reverseFrom v walkFuel (sentinel v)

def transferRangeBefore (v : ℕ) (position : BaseNode) (other : ℕ) (first lastExclusive : BaseNode) (movedCount : ℕ) : ListOp E Unit := do
  let beforeFirst ← readPtr first prev
  let last ← readPtr lastExclusive prev
  setPtr beforeFirst next lastExclusive
  setPtr lastExclusive prev beforeFirst
  let beforePosition ← readPtr position prev
  setPtr beforePosition next first
  setPtr first prev beforePosition
  setPtr last next position
  setPtr position prev last
  if v ≠ other then
    let w ← Prog.get
    setSize v ((w.obj v).size+movedCount)
    let w ← Prog.get
    setSize other ((w.obj other).size-movedCount)
  else pure ()

/-- `splice(pos, other)`. The lists have the segment in common, so `require_compatible_allocator` lets them pass. -/
def splice (v : ℕ) (position : BaseNode) (other : ℕ) : ListOp E Unit := do
  let w ← Prog.get
  if v = other ∨ (w.obj other).size = 0 then pure ()
  else
    let first ← readPtr (sentinel other) next
    transferRangeBefore v position other first (sentinel other) (w.obj other).size

/-- `splice(pos, other, it)`. -/
def spliceOne (v : ℕ) (position : BaseNode) (other : ℕ) (it : BaseNode) : ListOp E Unit :=
  if it = sentinel other then pure ()
  else do
    let behind ← readPtr it next
    if v = other ∧ (position = it ∨ position = behind) then pure ()
    else transferRangeBefore v position other it behind 1

/-- The rounds of `count_range`. -/
def countRange (last : BaseNode) : ℕ → BaseNode → ListOp E ℕ
  | fuel, current =>
    if current = last then pure 0
    else match fuel with
      | 0 => Prog.hang
      | fuel+1 => do
        let behind ← readPtr current next
        let count ← countRange last fuel behind
        pure (count+1)

/-- The rounds of `is_node_in_range`. -/
def isNodeInRange (target last : BaseNode) : ℕ → BaseNode → ListOp E Bool
  | fuel, current =>
    if current = last then pure false
    else match fuel with
      | 0 => Prog.hang
      | fuel+1 =>
        if current = target then pure true
        else do
          let behind ← readPtr current next
          isNodeInRange target last fuel behind

/-- `splice(pos, other, first, last)`. -/
def spliceRange (v : ℕ) (position : BaseNode) (other : ℕ) (first last : BaseNode) : ListOp E Unit :=
  if first = last then pure ()
  else do
    let stays ←
      if v = other then
        if position = first ∨ position = last then pure true else isNodeInRange position last walkFuel first
      else pure false
    if stays then pure ()
    else
      let count ← countRange last walkFuel first
      transferRangeBefore v position other first last count

/-- The nodes from `current` on, with what the comparison reads of them. -/
def collectFrom (v : ℕ) : ℕ → BaseNode → ListOp E (List (BaseNode × E))
  | fuel, current =>
    if current = sentinel v then pure []
    else match fuel with
      | 0 => Prog.hang
      | fuel+1 => do
        let x ← readValue current
        let behind ← readPtr current next
        let rows ← collectFrom v fuel behind
        pure ((current, x) :: rows)

/-- The loop of `relink_nodes_in_order`. -/
def linkNeighbours : List BaseNode → ListOp E Unit
  | a :: b :: l => do
    setPtr a next b
    setPtr b prev a
    linkNeighbours (b :: l)
  | _ => pure ()

def relinkNodesInOrder (v : ℕ) (nodes : List BaseNode) : ListOp E Unit :=
  match nodes.head?, nodes.getLast? with
  | some front, some back => do
    setPtr (sentinel v) next front
    setPtr (sentinel v) prev back
    setPtr front prev (sentinel v)
    setPtr back next (sentinel v)
    linkNeighbours nodes
  | _, _ => resetSentinel v

/-- The comparison of two nodes by their values. -/
abbrev byValue (comp : E → E → Bool) (a b : BaseNode × E) : Bool := comp a.2 b.2

/-- A scratch array for so many nodes. -/
def reserveScratch {comp : E → E → Bool} (S : StableSort (BaseNode × E) (byValue comp)) (n : ℕ) : ListOp E Unit :=
  match S.reserve n with
  | some e => Prog.throw e
  | none => pure ()

def sortScratch {comp : E → E → Bool} (S : StableSort (BaseNode × E) (byValue comp)) (rows : List (BaseNode × E)) :
    ListOp E (List (BaseNode × E)) :=
  match S.sort rows with
  | .ok sorted => pure sorted
  | .error e => Prog.throw e

def merge (v other : ℕ) {comp : E → E → Bool} (S : StableSort (BaseNode × E) (byValue comp)) : ListOp E Unit := do
  let w ← Prog.get
  if v = other ∨ (w.obj other).size = 0 then pure ()
  else
    reserveScratch S ((w.obj v).size+(w.obj other).size)
    let first ← readPtr (sentinel v) next
    let mine ← collectFrom v walkFuel first
    let first ← readPtr (sentinel other) next
    let others ← collectFrom other walkFuel first
    let sorted ← sortScratch S (mine ++ others)
    relinkNodesInOrder v (sorted.map Prod.fst)
    setSize v sorted.length
    resetSentinel other
    setSize other 0

def sort (v : ℕ) {comp : E → E → Bool} (S : StableSort (BaseNode × E) (byValue comp)) : ListOp E Unit := do
  let w ← Prog.get
  if (w.obj v).size < 2 then pure ()
  else
    reserveScratch S (w.obj v).size
    let first ← readPtr (sentinel v) next
    let rows ← collectFrom v walkFuel first
    let sorted ← sortScratch S rows
    relinkNodesInOrder v (sorted.map Prod.fst)

/-- The circle that was `first` to `last` goes through the sentinel of `v`. -/
def takeCircle (v : ℕ) (first last : BaseNode) : ListOp E Unit := do
  setPtr (sentinel v) next first
  setPtr (sentinel v) prev last
  setPtr first prev (sentinel v)
  setPtr last next (sentinel v)

def adoptNodesFrom (v other : ℕ) : ListOp E Unit := do
  resetSentinel v
  let w ← Prog.get
  setSize v (w.obj other).size
  if (w.obj other).size = 0 then pure ()
  else
    let first ← readPtr (sentinel other) next
    let last ← readPtr (sentinel other) prev
    takeCircle v first last
    resetSentinel other
    setSize other 0

def swap (v other : ℕ) : ListOp E Unit :=
  if v = other then pure ()
  else do
    let w ← Prog.get
    NodePool.swap v other
    let thisFirst ← readPtr (sentinel v) next
    let thisLast ← readPtr (sentinel v) prev
    let otherFirst ← readPtr (sentinel other) next
    let otherLast ← readPtr (sentinel other) prev
    if (w.obj other).size = 0 then resetSentinel v else takeCircle v otherFirst otherLast
    if (w.obj v).size = 0 then resetSentinel other else takeCircle other thisFirst thisLast
    setSize v (w.obj other).size
    setSize other (w.obj v).size

/-! Constructors, destructor and assignment. -/

/-- The member initializers. The list object `v` exists from here on. -/
def construct (v : ℕ) : ListOp E Unit := do
  NodePool.modify v fun _ => .empty
  modifyObj v fun _ => ⟨fun _ => sentinel v, 0⟩
  Prog.store fun w => { w with names := v :: w.names }

def destruct (v : ℕ) : ListOp E Unit := do
  clear v
  shrinkToFit T v
  Prog.store fun w => { w with names := w.names.erase v }

/-- A constructor that inserts: where that throws, the members are destroyed. -/
def constructWith (v : ℕ) (insertion : ListOp E Unit) : ListOp E Unit := do
  construct v
  match ← insertion.attempt with
  | .ok () => pure ()
  | .error e =>
    destruct T v
    Prog.throw e

/-- The constructor from a number of elements. -/
def constructCount (v count : ℕ) : ListOp E Unit := constructWith T v (growTo T v count T.default count)

def constructFill (v count : ℕ) (x : E) : ListOp E Unit :=
  constructWith T v do
    let first ← begin' v
    let _ ← insertFill T v first count x

/-- The constructors from a range and from an initializer list. -/
def constructRange (v : ℕ) (xs : List E) : ListOp E Unit :=
  constructWith T v do
    let first ← begin' v
    let _ ← insertRange T v first xs

def copyConstruct (v other : ℕ) : ListOp E Unit :=
  constructWith T v do
    let pos ← begin' v
    let first ← begin' other
    insertFrom T v pos (sentinel other) walkFuel first

def moveConstruct (v other : ℕ) : ListOp E Unit := do
  construct v
  NodePool.takeFrom v other
  adoptNodesFrom v other

/-- The copy is made in the local list `tmp` and swapped in. -/
def copyAssign (v other tmp : ℕ) : ListOp E Unit :=
  if v = other then pure ()
  else do
    copyConstruct T tmp other
    swap v tmp
    destruct T tmp

def moveAssign (v other : ℕ) : ListOp E Unit :=
  if v = other then pure ()
  else do
    clear v
    shrinkToFit T v
    NodePool.moveAssign T.toNodeType v other
    adoptNodesFrom v other

end SharedMemoryList

end ShmNext
