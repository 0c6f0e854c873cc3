import ShmNext.NamedSections
import ShmNext.HeapSafety

/-! The construction of named objects with nobody acting in between: it succeeds as a whole, or leaves no trace. -/
namespace ShmNext
open Prog NamedObjectRegistry NamedOp NamedWorld SharedMemoryManager

variable {w w' t t' : NamedWorld} {E E' : Buckets} {e : NamedEntry} {p q i pid count : ℕ} {g₀ : Heap} {kept : List LiveAlloc}
  {mine mine' others : List (ℕ × ℕ)} {T : NamedType} {F : NamedThrown → NamedWorld → Prop}

/-- The registry is that of the lists `E`, and besides the blocks of its entries only `others` are held. -/
structure NamedWorld.Consistent (w : NamedWorld) (E : Buckets) (others : List (ℕ × ℕ)) : Prop where
  lists : w.Lists E
  stocked : w.Stocked w.heap [] (E.entries.flatMap NamedEntry.blocks ++ others)

/-- All that is held is kept from now on. -/
theorem NamedWorld.Consistent.beside (h : w.Consistent E others) : w.Stocked w.heap (w.heap.beside []) [] := by
  have hhold : Holding w.heap [] w.heap ([] ++ (E.entries.flatMap NamedEntry.blocks ++ others)) := h.stocked.holding
  exact ⟨hhold.focus, h.stocked.placed⟩

/-- The work on `mine` is done. -/
theorem NamedWorld.Stocked.gather (h : w'.Stocked w.heap (w.heap.beside mine) mine') (hall : w.Stocked w.heap [] (mine ++ others)) :
    w'.Stocked w'.heap [] (mine' ++ others) := ⟨h.holding.gather hall.holding, h.placed⟩

namespace NamedWorld.Lists

/-- The lists of no other buckets matter. -/
theorem of_eq (h : w.Lists E) (heq : ∀ i < bucketCount, E' i = E i) : w.Lists E' := by
  have hentries : E'.entries = E.entries := List.flatMap_congr fun i hi => heq i (List.mem_range.mp hi)
  refine ⟨fun i hi => heq i hi ▸ h.chains i hi, hentries ▸ h.shows, fun i hi => heq i hi ▸ h.in_bucket i hi, hentries ▸ h.named,
    hentries ▸ h.ready, hentries ▸ h.total, ?_⟩
  unfold Buckets.Apart
  rw [hentries]
  exact h.apart

/-- The entry added last is not among the others. -/
theorem header_ne_of_add (h : w.Lists (E.add e)) {x : NamedEntry} (hx : x ∈ E.entries) : x.header ≠ e.header := by
  have hnd := ((E.entries_add e).map NamedEntry.header).nodup_iff.mp h.apart.headers
  rw [List.map_cons] at hnd
  exact fun heq => (List.nodup_cons.mp hnd).1 (heq ▸ List.mem_map_of_mem hx)

theorem mem_add (E : Buckets) (e : NamedEntry) : e ∈ (E.add e).entries := (E.entries_add e).mem_iff.mpr List.mem_cons_self

theorem alter_add (h : w.Lists (E.add e)) {f : NamedEntry → NamedEntry} (hname : (f e).name = e.name)
    (hi : i < bucketCount) : (E.add e).alter e.header f i = E.add (f e) i := by
  have hkept : (E i).map (fun x => if x.header = e.header then f x else x) = E i := by
    conv_rhs => rw [← List.map_id (E i)]
    exact List.map_congr_left fun x hx => if_neg (h.header_ne_of_add (mem_entries_of_mem hi hx))
  have hbucket : (f e).bucket = e.bucket := congrArg (fun name => bucketIndex (hashName name)) hname
  unfold Buckets.alter Buckets.add
  rw [hbucket]
  by_cases hie : i = e.bucket
  · subst hie
    rw [Function.update_self, Function.update_self, List.map_cons, if_pos rfl, hkept]
  · rw [Function.update_of_ne hie, Function.update_of_ne hie, hkept]

theorem remove_add (h : w.Lists (E.add e)) (hi : i < bucketCount) : (E.add e).remove e.header i = E i := by
  have hkept : (E i).filter (fun x => x.header ≠ e.header) = E i :=
    List.filter_eq_self.mpr fun x hx => decide_eq_true (h.header_ne_of_add (mem_entries_of_mem hi hx))
  unfold Buckets.remove Buckets.add
  by_cases hie : i = e.bucket
  · subst hie
    rw [Function.update_self, List.filter_cons_of_neg (by simp), hkept]
  · rw [Function.update_of_ne hie, hkept]

end NamedWorld.Lists

/-- The constructor calls of the first elements, the latest first. -/
def builtUp (storage k : ℕ) : List ElementEvent := (List.range k).reverse.map (ElementEvent.constructed storage)

/-- The destructor calls of the first elements, in reverse order, the latest first. -/
def tornDown (storage k : ℕ) : List ElementEvent := (List.range k).map (ElementEvent.destroyed storage)

/-- The first elements, the last of them in front. -/
def firstElements (k : ℕ) : List ℕ := (List.range k).reverse

theorem firstElements_succ (k : ℕ) : firstElements (k+1) = k :: firstElements k := by
  unfold firstElements
  rw [List.range_succ, List.reverse_append]
  rfl

theorem builtUp_succ (storage k : ℕ) : builtUp storage (k+1) = .constructed storage k :: builtUp storage k := by
  unfold builtUp
  rw [List.range_succ, List.reverse_append]
  rfl

theorem not_mem_firstElements (k : ℕ) : k ∉ firstElements k := by simp [firstElements]

/-- In `t` there is, besides what there was in `w`, the entry `e`, the first of its bucket. -/
structure NamedWorld.Building (w : NamedWorld) (E : Buckets) (e : NamedEntry) (t : NamedWorld) : Prop where
  lists : t.Lists (E.add e)
  stocked : t.Stocked w.heap (w.heap.beside []) e.blocks
  empty : ∀ q ∈ e.addresses, w.cell q = none
  frame : ∀ q, q ∉ e.addresses → t.cell q = w.cell q
  next : t.next e.header = w.buckets e.bucket
  same : t = { w with
    heap := t.heap, cell := t.cell, buckets := Function.update w.buckets e.bucket e.header, readyCount := t.readyCount
    totalCount := w.totalCount+1, constructions := t.constructions, events := t.events }

/-- Nothing but the elements has been worked on: the registry is what it was, and so are the blocks of the segment. -/
structure NamedWorld.NoTrace (w w' : NamedWorld) : Prop where
  same : w' = { w with heap := w'.heap, constructions := w'.constructions, events := w'.events }
  chain : blockChain w'.heap.alloc = blockChain w.heap.alloc
  free : freeList w'.heap.alloc = freeList w.heap.alloc

namespace NamedWorld.Building

/-- The entry has just been reserved. -/
theorem of_reserved (h : w.Reserved E e t) (hs : t.Stocked w.heap (w.heap.beside []) (e.blocks ++ [])) : w.Building E e t := by
  rw [List.append_nil] at hs
  refine ⟨h.lists, hs, h.empty, h.frame, h.next, ?_⟩
  conv_lhs => rw [h.same]
  rw [h.same]

/-- The new entry besides what there was. -/
theorem consistent (h : w.Building E e t) (hc : w.Consistent E others) : t.Consistent (E.add e) others := by
  have hall : w.Stocked w.heap [] ([] ++ (E.entries.flatMap NamedEntry.blocks ++ others)) := hc.stocked
  refine ⟨h.lists, (h.stocked.gather hall).perm ?_⟩
  rw [← List.append_assoc]
  exact ((E.entries_add _).flatMap_right NamedEntry.blocks).symm.append_right others

/-- The entry is in the next phase of its life. -/
theorem altered {f : NamedEntry → NamedEntry} (h : w.Building E e t) (hsame : e.SameObject (f e)) (ha : t.Altered (E.add e) e f t') :
    w.Building E (f e) t' := by
  have hbucket : (f e).bucket = e.bucket := congrArg (fun name => bucketIndex (hashName name)) hsame.name
  refine ⟨ha.lists.of_eq fun i hi => (h.lists.alter_add hsame.name hi).symm, ?_, ?_, fun q hq => ?_, ?_, ?_⟩
  · rw [hsame.blocks]
    exact ha.stocked h.stocked
  · rw [hsame.addresses]
    exact h.empty
  · rw [hsame.addresses] at hq
    rw [ha.frame q (fun heq => hq (heq ▸ e.header_mem)) fun heq => hq (heq ▸ e.object_mem), h.frame q hq]
  · rw [hsame.header, hbucket, ha.next, h.next]
  · rw [hbucket, hsame.header, ha.same, h.same]

/-- The entry goes, and with it all traces of it. -/
theorem released (h : w.Building E e t) (hc : w.Consistent E others) (hr : t.Released (E.add e) e w') (hs : w'.Stocked w.heap (w.heap.beside []) []) :
    w.NoTrace w' ∧ w'.events = t.events := by
  have hfirst : (E.add e) e.bucket = e :: E e.bucket := Function.update_self ..
  obtain ⟨hbuckets, hcells⟩ := hr.first _ hfirst
  -- the entry was the first of its bucket: its link leads back to what was the first before
  have hcell : w'.cell = w.cell := by
    funext q
    by_cases hq : q ∈ e.addresses
    · rw [hr.cleared q hq, h.empty q hq]
    · rw [hcells q hq, h.frame q hq]
  have hbucket : w'.buckets = w.buckets := by
    rw [hbuckets, h.next, h.same]
    dsimp only
    rw [Function.update_idem, Function.update_eq_self]
  have hlists : w'.Lists E := hr.lists.of_eq fun i hi => (h.lists.remove_add hi).symm
  obtain ⟨bs, l, hinv⟩ := hc.stocked.holding.heap
  have hrestored := hs.holding.restored hinv (fun a ha => Heap.mem_beside.mpr ⟨ha, by simp⟩) fun a ha => (Heap.mem_beside.mp ha).1
  refine ⟨⟨?_, hrestored.1, hrestored.2⟩, (congrArg NamedWorld.events hr.same).trans rfl⟩
  have hsame : w' = { w with
      heap := w'.heap, cell := w'.cell, buckets := w'.buckets, readyCount := w'.readyCount, totalCount := w'.totalCount
      constructions := w'.constructions, events := w'.events } := by
    conv_lhs => rw [hr.same, h.same]
    rw [hr.same, h.same]
  rw [hsame, hcell, hbucket, hlists.ready, hlists.total, ← hc.lists.ready, ← hc.lists.total]

/-- So many elements of the object have been constructed since `w`. -/
structure Upto (w : NamedWorld) (E : Buckets) (e : NamedEntry) (T : NamedType) (k : ℕ) (t : NamedWorld) : Prop where
  building : w.Building E (e.withAlive (firstElements k)) t
  events : t.events = builtUp e.object k ++ w.events
  constructions : t.constructions = w.constructions+k
  spared : ∀ j < k, T.throws (w.constructions+j) = false

/-- After them a constructor has thrown. -/
structure Failed (w : NamedWorld) (E : Buckets) (e : NamedEntry) (T : NamedType) (k : ℕ) (t : NamedWorld) : Prop where
  building : w.Building E (e.withAlive (firstElements k)) t
  events : t.events = builtUp e.object k ++ w.events
  spared : ∀ j < k, T.throws (w.constructions+j) = false
  throws : T.throws (w.constructions+k) = true

theorem ends_constructElement {k : ℕ} (h : Upto w E e T k t) (hsize : e.size = T.size) (hk : k < e.count) :
    (constructElement T e.object k).Ends t (fun _ => Upto w E e T (k+1)) fun err t' => err = .element ∧ Failed w E e T k t' := by
  have hends := SharedMemoryManager.ends_constructElement (i := k) h.building.lists (Lists.mem_add ..) hsize (not_mem_firstElements k) hk
  refine hends.mono (fun _ t' ⟨ha, hevents, _, hspared, hcount⟩ => ?_) fun err t' ⟨herr, ht', hthrow⟩ => ⟨herr, ?_⟩
  · have hbuilding := h.building.altered (f := NamedEntry.withAlive (k :: firstElements k)) (NamedEntry.sameObject_withAlive _) ha
    rw [← firstElements_succ] at hbuilding
    refine ⟨hbuilding, ?_, ?_, fun j hj => ?_⟩
    · rw [hevents, h.events, builtUp_succ]
      rfl
    · rw [hcount, h.constructions]
      rfl
    · rcases Nat.lt_succ_iff_lt_or_eq.mp hj with hj | rfl
      · exact h.spared j hj
      · rw [← h.constructions]
        exact hspared
  · subst ht'
    have hb := h.building
    refine ⟨⟨hb.lists.congr (fun _ _ _ _ => rfl) rfl rfl rfl, ⟨hb.stocked.holding, hb.stocked.placed⟩, hb.empty, hb.frame, hb.next, ?_⟩,
      h.events, h.spared, ?_⟩
    · conv_lhs => rw [hb.same]
    · rw [← h.constructions]
      exact hthrow

/-- The elements that are alive are destroyed, the last one first. -/
theorem ends_destroyConstructedRange {k : ℕ} (h : w.Building E (e.withAlive (firstElements k)) t) :
    (destroyConstructedRange e.object k).alone.Ends t
      (fun _ t' => w.Building E (e.withAlive []) t' ∧ t'.events = tornDown e.object k ++ t.events) F := by
  -- on the number of elements that are alive: the last one goes first
  induction k generalizing t with
  | zero => exact ⟨h, rfl⟩
  | succ k ih =>
    unfold destroyConstructedRange
    rw [Steps.alone_bind]
    have hk : k ∈ (e.withAlive (firstElements (k+1))).alive := by
      rw [firstElements_succ]
      exact List.mem_cons_self
    refine (Steps.ends_alone_atomically.mpr (ends_destroyElement h.lists (Lists.mem_add ..) hk)).bind fun _ t₁ ⟨ha, hevents, _⟩ => ?_
    have hbuilding := h.altered (NamedEntry.sameObject_withAlive _) ha
    have hrest : (e.withAlive (firstElements (k+1))).alive.erase k = firstElements k := by
      rw [firstElements_succ]
      exact List.erase_cons_head ..
    rw [hrest] at hbuilding
    refine (ih hbuilding).mono (fun _ t₂ ⟨hb, hev⟩ => ⟨hb, ?_⟩) fun _ _ he => he
    rw [hev, hevents]
    unfold tornDown
    rw [List.range_succ, List.map_append, List.append_assoc]
    rfl

/-- After a constructor has thrown, everything is undone. -/
theorem ends_undo {k : ℕ} (hc : w.Consistent E others) (h : Failed w E e T k t) :
    ((destroyConstructedRange e.object k >>= fun _ => .atomically (releaseFailedConstruction e.header) : NamedSteps Unit).alone).Ends t
      (fun _ t' => w.NoTrace t' ∧ t'.events = tornDown e.object k ++ builtUp e.object k ++ w.events) F := by
  rw [Steps.alone_bind]
  refine (ends_destroyConstructedRange h.building).bind fun _ t₁ ⟨hb, hevents⟩ => Steps.ends_alone_atomically.mpr ?_
  have hst : t₁.Stocked w.heap (w.heap.beside []) ((e.withAlive []).blocks ++ []) := by
    rw [List.append_nil]
    exact hb.stocked
  refine (ends_deallocateNamedStorageUnlocked hb.lists (Lists.mem_add ..) hst).mono (fun _ t₂ ⟨hr, hs⟩ => ?_) fun _ _ he => he
  obtain ⟨hnone, hev⟩ := hb.released hc hr hs
  refine ⟨hnone, ?_⟩
  rw [hev, hevents, h.events, List.append_assoc]

/-- The object is there, and all of its elements are alive. -/
theorem ends_publish {k : ℕ} (hc : w.Consistent E others) (h : Upto w E e T k t) (hstate : e.state ≠ .ready) :
    (markNamedObjectReady e.header).Ends t
      (fun _ t' => t'.Consistent (E.add (e.withAlive (firstElements k)).publish) others ∧ t'.events = builtUp e.object k ++ w.events) F := by
  refine (ends_markNamedObjectReady h.building.lists (Lists.mem_add ..) hstate).mono (fun _ t' ⟨ha, hevents, _⟩ => ?_) fun _ _ he => he
  exact ⟨(h.building.altered (NamedEntry.sameObject_publish _) ha).consistent hc, hevents.trans h.events⟩

/-- What there is once the construction of the object `object` has come to its end. -/
structure Constructed (w : NamedWorld) (E : Buckets) (others : List (ℕ × ℕ)) (e : NamedEntry) (w' : NamedWorld) : Prop where
  consistent : w'.Consistent (E.add e) others
  ready : e.state = .ready
  alive : e.alive = firstElements e.count
  events : w'.events = builtUp e.object e.count ++ w.events

/-- What there is once the construction of an object has failed: `k` elements had come to life, and the constructor of the next one
threw. -/
structure Undone (w : NamedWorld) (T : NamedType) (count : ℕ) (w' : NamedWorld) : Prop where
  no_trace : w.NoTrace w'
  events : ∃ object, ∃ k < count, (∀ j < k, T.throws (w.constructions+j) = false) ∧ T.throws (w.constructions+k) = true ∧
    w'.events = tornDown object k ++ builtUp object k ++ w.events

theorem ends_constructElements (hc : w.Consistent E others) (h : w.Building E e t) (halive : e.alive = []) (hevents : t.events = w.events)
    (hcount : t.constructions = w.constructions) (hsize : e.size = T.size) (hstate : e.state ≠ .ready) :
    (constructElements T ⟨e.header, e.object, 0⟩ e.count).alone.Ends t
      (fun r t' => r = e.object ∧ Constructed w E others (e.withAlive (firstElements e.count)).publish t')
      fun err t' => err = .element ∧ Undone w T e.count t' := by
  have hstart : Upto w E e T 0 t := by
    refine ⟨?_, hevents, hcount, fun j hj => absurd hj (Nat.not_lt_zero _)⟩
    have heq : e.withAlive (firstElements 0) = e := by
      unfold NamedEntry.withAlive
      rw [show firstElements 0 = e.alive from halive.symm]
    rw [heq]
    exact h
  unfold constructElements
  rw [Steps.alone_bind, Steps.alone_tryLoop]
  -- `Upto` holds before each round, `Failed` is what the handler finds
  have hloop : (Prog.tryLoop (fun k => (Steps.atomically (constructElement T e.object k)).alone)
      (fun k => (destroyConstructedRange e.object k >>= fun _ => .atomically (releaseFailedConstruction e.header) : NamedSteps Unit).alone)
      0 e.count).Ends t (fun _ => Upto w E e T (0+e.count)) fun err t' => err = .element ∧ Undone w T e.count t' :=
    ends_tryLoop_throws (I := Upto w E e T) (J := fun k err t => err = .element ∧ Failed w E e T k t)
    (fun k t' _ hlt hk => Steps.ends_alone_atomically.mpr (ends_constructElement hk hsize (by omega)))
    (fun k t' err _ hlt hf => (ends_undo hc hf.2).mono
      (fun _ t₁ ⟨hnone, hev⟩ => ⟨hf.1, hnone, e.object, k, by omega, hf.2.spared, hf.2.throws, hev⟩) fun _ _ hfalse => hfalse) hstart
  refine hloop.bind fun _ t₁ hall => ?_
  rw [Nat.zero_add] at hall
  rw [Steps.alone_bind]
  refine (Steps.ends_alone_atomically.mpr (ends_publish hc hall hstate)).bind fun _ t₂ ⟨hcons, hev⟩ => ends_pure ⟨rfl, hcons, rfl, rfl, hev⟩

end NamedWorld.Building

/-- One object is constructed as an array of one. -/
theorem constructReserved_eq {header object : ℕ} (hheader : header ≠ 0) :
    constructReserved T ⟨header, object, 0⟩ = constructElements T ⟨header, object, 0⟩ 1 := by
  unfold constructReserved constructElements
  rw [if_neg (fun hne => hne rfl), if_neg hheader, Steps.tryLoop, Steps.bind_assoc]
  congr 1
  funext r
  rcases r with err | u
  · exact (Steps.bind_assoc (Steps.atomically (releaseFailedConstruction header)) (fun _ => Steps.throw err) _).symm
  · rfl

/-- The calls that construct a named object. -/
inductive ConstructCall where
  | construct
  | findOrConstruct
  | constructArray (count : ℕ)
  | constructArrayFromRange (count : ℕ)
  deriving DecidableEq, Repr

namespace ConstructCall

def elementCount : ConstructCall → ℕ
  | construct | findOrConstruct => 1
  | constructArray count | constructArrayFromRange count => count

def steps (T : NamedType) (pid : ℕ) (name : Option (List UInt8)) : ConstructCall → NamedSteps ℕ
  | construct => SharedMemoryManager.construct T pid name
  | findOrConstruct => SharedMemoryManager.findOrConstruct T pid name
  | constructArray count => SharedMemoryManager.constructArray T pid name count
  | constructArrayFromRange count => SharedMemoryManager.constructArrayFromRange T pid name count

/-- The call looks whether the object is there already. -/
def finds (call : ConstructCall) : Bool := call = findOrConstruct

/-- What comes after the reservation. -/
def rest (T : NamedType) (call : ConstructCall) (reservation : NamedReservation) : NamedSteps ℕ :=
  if reservation.existingObject ≠ 0 then pure reservation.existingObject
  else if reservation.header = 0 then pure 0
  else constructElements T reservation call.elementCount

variable {call : ConstructCall} {name : Option (List UInt8)}

/-- All calls are one: a reservation, and then the elements. -/
theorem steps_eq (call : ConstructCall) (T : NamedType) (pid : ℕ) (name : Option (List UInt8)) :
    ∃ k, call.steps T pid name = .atomically (reserveNamedStorage T pid name call.elementCount call.finds) >>= k ∧
      ∀ r, r.existingObject = 0 ∨ call.finds = true → k r = call.rest T r := by
  have hsingle : ∀ r, constructReserved T r = rest T .construct r := by
    rintro ⟨header, object, existing⟩
    unfold rest
    by_cases hexisting : existing = 0
    · subst hexisting
      rw [if_neg (fun hne => hne rfl)]
      by_cases hheader : header = 0
      · subst hheader
        rfl
      · rw [if_neg hheader]
        exact constructReserved_eq hheader
    · rw [if_pos hexisting]
      unfold constructReserved
      rw [if_pos hexisting]
  cases call with
  | construct => exact ⟨_, rfl, fun r _ => hsingle r⟩
  | findOrConstruct => exact ⟨_, rfl, fun r _ => hsingle r⟩
  | constructArray count => exact ⟨_, rfl, fun r _ => rfl⟩
  | constructArrayFromRange count =>
    -- this call does not ask for an existing object, and the source does not look whether there is one
    refine ⟨_, rfl, fun r hr => ?_⟩
    obtain ⟨header, object, existing⟩ := r
    rcases hr with hr | hr
    · obtain rfl : existing = 0 := hr
      rfl
    · cases hr

/-- The call has found the name taken, and has left everything alone. -/
structure Declined (w : NamedWorld) (E : Buckets) (call : ConstructCall) (T : NamedType) (name : Option (List UInt8)) (r : ℕ)
    (w' : NamedWorld) : Prop where
  unchanged : w' = w
  answer : ∃ e ∈ E.entries, name = some e.name ∧
    (r = 0 ∧ ¬(call.finds = true ∧ e.state = .ready) ∨
      r = e.object ∧ call.finds = true ∧ e.state = .ready ∧ e.size = T.size ∧ e.typeHash = T.typeHash)

/-- The call has made the object. -/
structure Made (w : NamedWorld) (E : Buckets) (others : List (ℕ × ℕ)) (call : ConstructCall) (T : NamedType) (name : Option (List UInt8))
    (r : ℕ) (w' : NamedWorld) : Prop where
  free : ∀ e ∈ E.entries, name ≠ some e.name
  made : ∃ e, Building.Constructed w E others e w' ∧ name = some e.name ∧ e.object = r ∧ e.count = call.elementCount ∧ e.size = T.size ∧
    e.typeHash = T.typeHash

/-- The call has thrown. -/
structure Threw (w : NamedWorld) (E : Buckets) (call : ConstructCall) (T : NamedType) (name : Option (List UInt8)) (err : NamedThrown)
    (w' : NamedWorld) : Prop where
  no_trace : w.NoTrace w'
  taken : (∃ e ∈ E.entries, name = some e.name) → w' = w
  events : err ≠ .element ∧ w'.events = w.events ∨ err = .element ∧ Building.Undone w T call.elementCount w'

/-- A reservation that throws leaves no trace. -/
theorem threw_of_throws {err : NamedThrown} (hc : w.Consistent E others) (herr : err ≠ .element)
    (h : ReserveThrows w.heap (w.heap.beside []) [] w E name w') : Threw w E call T name err w' := by
  obtain ⟨bs, l, hinv⟩ := hc.stocked.holding.heap
  have hrestored := h.stocked.holding.restored hinv (fun a ha => Heap.mem_beside.mpr ⟨ha, by simp⟩) fun a ha => (Heap.mem_beside.mp ha).1
  have hevents : w'.events = w.events := (congrArg NamedWorld.events h.only).trans rfl
  refine ⟨⟨?_, hrestored.1, hrestored.2⟩, h.taken, Or.inl ⟨herr, hevents⟩⟩
  have honly := h.only
  unfold OnlyHeap at honly
  rw [honly]

/-- A call that constructs a named object, with nobody acting in between: it finds the name taken and changes nothing; or it makes the
object, its elements one after the other; or it throws, and then the elements that had come to life have been destroyed in reverse order,
and the registry, the blocks of the segment and the free list are what they were. -/
theorem construct_or_no_trace (hc : w.Consistent E others) (call : ConstructCall) (pid : ℕ) (name : Option (List UInt8))
    (hroom : ∀ bytes, name = some bytes → NamedRoom w.heap T bytes call.elementCount) :
    (call.steps T pid name).alone.Ends w (fun r w' => Declined w E call T name r w' ∨ Made w E others call T name r w')
      (Threw w E call T name) := by
  obtain ⟨k, hsteps, hk⟩ := steps_eq call T pid name
  have hreserve : (reserveNamedStorage T pid name call.elementCount call.finds).Ends w
      (fun r w' => ∃ bytes, name = some bytes ∧ 0 < call.elementCount ∧
        Reserves w.heap (w.heap.beside []) [] w E T pid bytes call.elementCount call.finds r w')
      fun err w' => err ≠ .element ∧ ReserveThrows w.heap (w.heap.beside []) [] w E name w' :=
    ends_reserveNamedStorage hc.lists hc.beside hroom
  rw [hsteps, Steps.alone_bind]
  refine (Steps.ends_alone_atomically.mpr (hreserve.mono (fun r w₁ hr => hr) fun err w₁ he => threw_of_throws hc he.1 he.2)).bind ?_
  rintro r w₁ ⟨bytes, rfl, -, hr⟩
  cases hr with
  | @taken e he hname hnot =>
    rw [hk ⟨0, 0, 0⟩ (Or.inl rfl)]
    exact Or.inl ⟨rfl, e, he, by rw [hname], Or.inl ⟨rfl, hnot⟩⟩
  | @found e he hname hready htype =>
    rw [hk ⟨0, 0, e.object⟩ (Or.inr hready.1)]
    have hrest : call.rest T ⟨0, 0, e.object⟩ = pure e.object := by
      unfold rest
      by_cases hobject : e.object = 0
      · rw [hobject]
        rfl
      · rw [if_pos hobject]
    rw [hrest]
    exact Or.inl ⟨rfl, e, he, by rw [hname], Or.inr ⟨rfl, hready.1, hready.2, htype.1, htype.2⟩⟩
  | @reserved object header nameAt w₁ hnew hres hst =>
    have hheader : header ≠ 0 := hres.lists.header_ne_zero (Lists.mem_add ..)
    have hrest : call.rest T ⟨header, object, 0⟩ = constructElements T ⟨header, object, 0⟩ call.elementCount := by
      unfold rest
      rw [if_neg (fun hne => hne rfl), if_neg hheader]
    have hbuilding := Building.of_reserved hres hst
    -- the reservation has not touched the elements
    have hevents : w₁.events = w.events := (congrArg NamedWorld.events hres.same).trans rfl
    have hconstructions : w₁.constructions = w.constructions := (congrArg NamedWorld.constructions hres.same).trans rfl
    have hstate : NamedObjectState.constructing ≠ .ready := by decide
    have hends := hbuilding.ends_constructElements (T := T) hc rfl hevents hconstructions rfl hstate
    rw [hk ⟨header, object, 0⟩ (Or.inl rfl), hrest]
    refine hends.mono (fun r w₂ ⟨hobject, hcons⟩ => Or.inr ⟨fun e he heq => hnew e he (Option.some.inj heq).symm, ?_⟩)
      fun err w₂ ⟨herr, hundone⟩ => ?_
    · exact ⟨_, hcons, rfl, hobject.symm, rfl, rfl, rfl⟩
    · exact ⟨hundone.no_trace, fun ⟨e, he, heq⟩ => absurd (Option.some.inj heq).symm (hnew e he), Or.inr ⟨herr, hundone⟩⟩

end ConstructCall

/-- A segment without named objects. -/
def emptyRegistry (g : Heap) : NamedWorld := ⟨g, fun _ => none, fun _ => 0, 0, 0, 0, fun _ => true, 0, []⟩

theorem Buckets.entries_nil : Buckets.entries (fun _ => []) = [] := List.flatMap_eq_nil_iff.mpr fun _ _ => rfl

theorem consistent_emptyRegistry {g : Heap} (hg : ∃ bs l, HeapInv (fun _ => False) g.alloc g.live bs l) :
    (emptyRegistry g).Consistent (fun _ => []) g.allocations := by
  have hnil := Buckets.entries_nil
  obtain ⟨bs, l, hinv⟩ := hg
  have hnone : ∀ e, e ∉ Buckets.entries fun _ => [] := fun e he => by
    rw [hnil] at he
    cases he
  refine ⟨⟨fun i _ => rfl, fun e he => absurd he (hnone e), fun i _ e he => (by cases he), ?_, ?_, ?_, ?_⟩, ?_, fun q c hq => (by cases hq)⟩
  · rw [hnil]
    exact List.nodup_nil
  · rw [hnil]
    rfl
  · rw [hnil]
    rfl
  · unfold Buckets.Apart
    rw [hnil]
    exact List.nodup_nil
  · rw [hnil]
    exact .all hinv

/-- Words whose third constructor call throws. -/
def throwingWord : NamedType := ⟨8, 8, 1, fun k => k = 2, word_pos, word_align⟩

theorem namedRoom_small {count : ℕ} (hcount : count ≤ 3) (bytes : List UInt8) (hbytes : some [97] = some bytes) :
    NamedRoom smallHeap throwingWord bytes count := by
  obtain rfl := Option.some.inj hbytes
  refine ⟨fun _ A hA => ?_, by decide +kernel, by decide +kernel⟩
  have hthree : AddressRoom smallHeap (3*8) 8 := by decide +kernel
  have hfits := hthree A hA
  have hle : count*8 ≤ 3*8 := Nat.mul_le_mul_right 8 hcount
  change smallHeap.alloc.segmentBegin+smallHeap.alloc.segmentSize+count*8+A+64 ≤ 2^64
  omega

section
-- a statement about this one state is not to be run
attribute [local irreducible] Ends

theorem construct_or_no_trace_throwingWord :
    (ConstructCall.steps throwingWord 7 (some [97]) (.constructArray 3)).alone.Ends (emptyRegistry smallHeap)
      (fun r w' => ConstructCall.Declined (emptyRegistry smallHeap) (fun _ => []) (.constructArray 3) throwingWord (some [97]) r w' ∨
        ConstructCall.Made (emptyRegistry smallHeap) (fun _ => []) smallHeap.allocations (.constructArray 3) throwingWord (some [97]) r w')
      (ConstructCall.Threw (emptyRegistry smallHeap) (fun _ => []) (.constructArray 3) throwingWord (some [97])) := by
  exact ConstructCall.construct_or_no_trace (consistent_emptyRegistry smallHeap_reachable.inv) (.constructArray 3) 7 (some [97])
    (namedRoom_small (by decide))

end

end ShmNext
