import ShmNext.NamedObjects
import ShmNext.LinkedChain

/-! The registry as lists of entries, one for each bucket: what its lookups find, and what its edits make of the lists. -/
namespace ShmNext
open Prog NamedObjectRegistry NamedOp

/-- A named object: its three blocks, what its header says, and which of its elements are alive. -/
structure NamedEntry where
  header : ℕ
  object : ℕ
  nameAt : ℕ
  name : List UInt8
  count : ℕ
  size : ℕ
  typeHash : ℕ
  owner : ℕ
  state : NamedObjectState
  alive : List ℕ
  deriving DecidableEq

namespace NamedEntry

def record (e : NamedEntry) (next : ℕ) : NamedObjectHeader :=
  ⟨e.object, e.nameAt, next, e.name.length, e.count, e.size, e.typeHash, hashName e.name, e.owner, e.state⟩

def blocks (e : NamedEntry) : List (ℕ × ℕ) :=
  [(e.nameAt, e.name.length+1), (e.header, namedObjectHeaderSize), (e.object, e.count*e.size)]

def addresses (e : NamedEntry) : List ℕ := [e.nameAt, e.header, e.object]

def bucket (e : NamedEntry) : ℕ := bucketIndex (hashName e.name)

theorem map_blocks (e : NamedEntry) : e.blocks.map Prod.fst = e.addresses := rfl

theorem bucket_lt (e : NamedEntry) : e.bucket < bucketCount := Nat.mod_lt _ (by decide)

/-- The same object, in another phase of its life. -/
structure SameObject (e e' : NamedEntry) : Prop where
  header : e'.header = e.header
  object : e'.object = e.object
  nameAt : e'.nameAt = e.nameAt
  name : e'.name = e.name
  count : e'.count = e.count
  size : e'.size = e.size

variable {e e' : NamedEntry}

theorem SameObject.addresses (h : e.SameObject e') : e'.addresses = e.addresses := by
  unfold NamedEntry.addresses
  rw [h.nameAt, h.header, h.object]

theorem SameObject.blocks (h : e.SameObject e') : e'.blocks = e.blocks := by
  unfold NamedEntry.blocks
  rw [h.nameAt, h.header, h.object, h.name, h.count, h.size]

end NamedEntry

/-- The entries of each bucket, in the order of its chain. -/
abbrev Buckets := ℕ → List NamedEntry

namespace Buckets
variable {E : Buckets} {e x : NamedEntry} {p : ℕ} {f : NamedEntry → NamedEntry}

def entries (E : Buckets) : List NamedEntry := (List.range bucketCount).flatMap E

/-- The new entry comes first in its bucket. -/
def add (E : Buckets) (e : NamedEntry) : Buckets := Function.update E e.bucket (e :: E e.bucket)

/-- The entry with the header at `p` becomes another. -/
def alter (E : Buckets) (p : ℕ) (f : NamedEntry → NamedEntry) : Buckets := fun i => (E i).map fun e => if e.header = p then f e else e

def remove (E : Buckets) (p : ℕ) : Buckets := fun i => (E i).filter fun e => e.header ≠ p

theorem mem_entries : e ∈ E.entries ↔ ∃ i < bucketCount, e ∈ E i := by
  unfold entries
  rw [List.mem_flatMap]
  simp only [List.mem_range]

theorem entries_alter : (E.alter p f).entries = E.entries.map fun e => if e.header = p then f e else e :=
  List.map_flatMap.symm

theorem entries_remove : (E.remove p).entries = E.entries.filter fun e => e.header ≠ p :=
  List.filter_flatMap.symm

theorem entries_add (E : Buckets) (e : NamedEntry) : (E.add e).entries.Perm (e :: E.entries) := by
  have hmem : e.bucket ∈ List.range bucketCount := List.mem_range.mpr e.bucket_lt
  have hp := List.perm_cons_erase hmem
  have hnot : e.bucket ∉ (List.range bucketCount).erase e.bucket := List.nodup_range.not_mem_erase
  have hrest : ((List.range bucketCount).erase e.bucket).flatMap (E.add e) = ((List.range bucketCount).erase e.bucket).flatMap E := by
    refine List.flatMap_congr fun i hi => Function.update_of_ne ?_ _ _
    rintro rfl
    exact hnot hi
  calc (E.add e).entries.Perm ((e.bucket :: (List.range bucketCount).erase e.bucket).flatMap (E.add e)) := hp.flatMap_right _
    _ = e :: (e.bucket :: (List.range bucketCount).erase e.bucket).flatMap E := by
      rw [List.flatMap_cons, List.flatMap_cons, hrest]
      unfold add
      rw [Function.update_self]
      rfl
    List.Perm _ (e :: E.entries) := (hp.flatMap_right E).symm.cons e

/-- No two entries have an address in common. -/
def Apart (E : Buckets) : Prop := (E.entries.flatMap NamedEntry.addresses).Nodup

theorem Apart.headers (h : E.Apart) : (E.entries.map NamedEntry.header).Nodup := by
  refine List.Nodup.sublist ?_ h
  induction E.entries with
  | nil => exact List.Sublist.slnil
  | cons e l ih =>
    rw [List.map_cons, List.flatMap_cons]
    exact List.Sublist.append (List.Sublist.cons _ (List.Sublist.cons_cons _ (List.nil_sublist _))) ih

/-- An entry and the others. -/
theorem Apart.split (h : E.Apart) (he : e ∈ E.entries) :
    ∃ rest, E.entries.Perm (e :: rest) ∧ (∀ x ∈ rest, ∀ q ∈ x.addresses, q ∉ e.addresses) ∧
      (∀ f, (E.alter e.header f).entries.Perm (f e :: rest)) ∧ (E.remove e.header).entries.Perm rest := by
  have hp := List.perm_cons_erase he
  have hnd := (hp.flatMap_right NamedEntry.addresses).nodup_iff.mp h
  rw [List.flatMap_cons] at hnd
  have hapart : ∀ x ∈ E.entries.erase e, ∀ q ∈ x.addresses, q ∉ e.addresses := fun x hx q hq hq' =>
    (List.nodup_append.mp hnd).2.2 q hq' q (List.mem_flatMap.mpr ⟨x, hx, hq⟩) rfl
  -- the others have other headers, so `alter` and `remove` pass them by
  have hne : ∀ x ∈ E.entries.erase e, x.header ≠ e.header := by
    intro x hx heq
    refine hapart x hx x.header (by simp [NamedEntry.addresses]) ?_
    rw [heq]
    simp [NamedEntry.addresses]
  refine ⟨E.entries.erase e, hp, hapart, fun f => ?_, ?_⟩
  · rw [entries_alter]
    refine (hp.map _).trans ?_
    rw [List.map_cons, if_pos rfl]
    have hid : (E.entries.erase e).map (fun x => if x.header = e.header then f x else x) = E.entries.erase e := by
      conv_rhs => rw [← List.map_id (E.entries.erase e)]
      exact List.map_congr_left fun x hx => if_neg (hne x hx)
    rw [hid]
  · rw [entries_remove]
    refine (hp.filter _).trans ?_
    rw [List.filter_cons_of_neg (by simp)]
    rw [List.filter_eq_self.mpr fun x hx => decide_eq_true (hne x hx)]

end Buckets

namespace NamedWorld

/-- The link of the header at `p`. -/
def next (w : NamedWorld) (p : ℕ) : ℕ :=
  match w.cell p with
  | some (.header h) => h.next
  | _ => 0

/-- The blocks of `e` hold what it says. -/
structure Shows (w : NamedWorld) (e : NamedEntry) : Prop where
  header : w.cell e.header = some (.header (e.record (w.next e.header)))
  name : w.cell e.nameAt = some (.name e.name)
  object : w.cell e.object = some (.object (e.count*e.size) e.alive)

/-- The chains, the blocks and the counters of the registry are those of the lists `E`. -/
structure Lists (w : NamedWorld) (E : Buckets) : Prop where
  chains : ∀ i < bucketCount, LinkedFrom w.next (w.buckets i) ((E i).map NamedEntry.header)
  shows : ∀ e ∈ E.entries, w.Shows e
  in_bucket : ∀ i < bucketCount, ∀ e ∈ E i, e.bucket = i
  named : (E.entries.map NamedEntry.name).Nodup
  ready : w.readyCount = E.entries.countP fun e => e.state = .ready
  total : w.totalCount = E.entries.length
  apart : E.Apart

variable {w w' : NamedWorld} {E : Buckets} {e : NamedEntry} {p q i fuel : ℕ} {h : NamedObjectHeader} {l : List NamedEntry}
  {name : List UInt8}

theorem next_of_header (hw : w.cell p = some (.header h)) : w.next p = h.next := by
  unfold next
  rw [hw]

theorem next_congr (hw : w'.cell p = w.cell p) : w'.next p = w.next p := by
  unfold next
  rw [hw]

theorem Shows.congr (hs : w.Shows e) (hw : ∀ q ∈ e.addresses, w'.cell q = w.cell q) : w'.Shows e := by
  have hheader : w'.cell e.header = w.cell e.header := hw _ (by simp [NamedEntry.addresses])
  have hname : w'.cell e.nameAt = w.cell e.nameAt := hw _ (by simp [NamedEntry.addresses])
  have hobject : w'.cell e.object = w.cell e.object := hw _ (by simp [NamedEntry.addresses])
  refine ⟨?_, hname.trans hs.name, hobject.trans hs.object⟩
  rw [hheader, next_congr hheader]
  exact hs.header

end NamedWorld

open NamedWorld

variable {w w' : NamedWorld} {E : Buckets} {e : NamedEntry} {p q i fuel : ℕ} {h : NamedObjectHeader} {l : List NamedEntry}
  {name : List UInt8}

/-- The address of the header, and the null pointer for no entry. -/
def NamedEntry.address : Option NamedEntry → ℕ
  | some e => e.header
  | none => 0

namespace NamedOp

theorem run_readHeader (hw : w.cell p = some (.header h)) : (readHeader p).run w = (.ok h, w) := by
  unfold readHeader
  rw [run_read, hw]
  rfl

theorem run_modifyHeader {f : NamedObjectHeader → NamedObjectHeader} (hw : w.cell p = some (.header h)) :
    (modifyHeader p f).run w = (.ok (), { w with cell := Function.update w.cell p (some (.header (f h))) }) := by
  unfold modifyHeader
  rw [run_read, hw]
  rfl

theorem run_nameEquals {bytes : List UInt8} (hw : w.cell q = some (.name bytes)) :
    (nameEquals q name).run w = (.ok (bytes.take name.length == name), w) := by
  unfold nameEquals
  rw [run_read, hw]
  rfl

end NamedOp

namespace NamedObjectRegistry

/-- The hash and the length are compared first, and do not change the answer. -/
theorem run_matchesName (hs : w.Shows e) (next : ℕ) :
    (matchesName (e.record next) (hashName name) name).run w = (.ok (decide (e.name = name)), w) := by
  have hcompare : (nameEquals (e.record next).name name).run w = (.ok (e.name.take name.length == name), w) :=
    run_nameEquals hs.name
  unfold matchesName
  by_cases hsame : e.name = name
  · subst hsame
    rw [if_pos ⟨rfl, rfl⟩, hcompare, List.take_length, beq_self_eq_true, decide_eq_true rfl]
  rw [decide_eq_false hsame]
  split
  · next hpre =>
    have hlen : e.name.length = name.length := hpre.2
    rw [hcompare, ← hlen, List.take_length, beq_eq_false_iff_ne.mpr hsame]
  · rfl

theorem run_findAnyFrom (hl : LinkedFrom w.next p (l.map NamedEntry.header)) (hs : ∀ e ∈ l, w.Shows e) (hfuel : l.length ≤ fuel) :
    (findAnyFrom (hashName name) name fuel p).run w = (.ok (NamedEntry.address (l.find? fun e => e.name = name)), w) := by
  -- the walk follows the list, and the fuel outlasts it
  induction l generalizing p fuel with
  | nil =>
    obtain rfl : p = 0 := hl
    cases fuel <;> rfl
  | cons e l ih =>
    obtain ⟨rfl, hne, htail⟩ := hl
    obtain ⟨fuel, rfl⟩ := Nat.exists_eq_succ_of_ne_zero (n := fuel) (by
      rintro rfl
      exact Nat.not_succ_le_zero _ hfuel)
    have hse := hs e List.mem_cons_self
    unfold findAnyFrom
    rw [if_neg hne]
    change (readHeader e.header >>= _).run w = _
    rw [run_bind_ok (run_readHeader hse.header), run_bind_ok (run_matchesName hse _)]
    by_cases hname : e.name = name
    · rw [List.find?_cons_of_pos (by exact decide_eq_true hname), decide_eq_true hname, if_pos rfl]
      rfl
    · rw [List.find?_cons_of_neg (by simpa using hname), decide_eq_false hname, if_neg Bool.false_ne_true]
      exact ih htail (fun x hx => hs x (List.mem_cons_of_mem _ hx)) (Nat.le_of_succ_le_succ hfuel)

theorem run_findIfFrom {predicate : NamedObjectHeader → Bool} (hl : LinkedFrom w.next p (l.map NamedEntry.header))
    (hs : ∀ e ∈ l, w.Shows e) (hfuel : l.length ≤ fuel) :
    (findIfFrom predicate fuel p).run w =
      (.ok (NamedEntry.address (l.find? fun e => predicate (e.record (w.next e.header)))), w) := by
  induction l generalizing p fuel with
  | nil =>
    obtain rfl : p = 0 := hl
    cases fuel <;> rfl
  | cons e l ih =>
    obtain ⟨rfl, hne, htail⟩ := hl
    obtain ⟨fuel, rfl⟩ := Nat.exists_eq_succ_of_ne_zero (n := fuel) (by
      rintro rfl
      exact Nat.not_succ_le_zero _ hfuel)
    have hse := hs e List.mem_cons_self
    unfold findIfFrom
    rw [if_neg hne]
    change (readHeader e.header >>= _).run w = _
    rw [run_bind_ok (run_readHeader hse.header)]
    by_cases hpred : predicate (e.record (w.next e.header)) = true
    · rw [List.find?_cons_of_pos (by exact hpred), if_pos hpred]
      rfl
    · rw [List.find?_cons_of_neg (by simpa using hpred), if_neg hpred]
      exact ih htail (fun x hx => hs x (List.mem_cons_of_mem _ hx)) (Nat.le_of_succ_le_succ hfuel)

end NamedObjectRegistry

namespace NamedWorld.Lists

theorem mem_bucket (h : w.Lists E) (he : e ∈ E.entries) : e ∈ E e.bucket := by
  obtain ⟨i, hi, hmem⟩ := Buckets.mem_entries.mp he
  rw [h.in_bucket i hi e hmem]
  exact hmem

theorem mem_entries_of_mem (hi : i < bucketCount) (he : e ∈ E i) : e ∈ E.entries := Buckets.mem_entries.mpr ⟨i, hi, he⟩

theorem length_bucket (hi : i < bucketCount) : (E i).length ≤ E.entries.length := by
  unfold Buckets.entries
  rw [List.flatMap_def]
  exact (List.sublist_flatten_of_mem (List.mem_map_of_mem (List.mem_range.mpr hi))).length_le

theorem header_ne_zero (h : w.Lists E) (he : e ∈ E.entries) : e.header ≠ 0 := by
  obtain ⟨i, hi, hmem⟩ := Buckets.mem_entries.mp he
  exact (h.chains i hi).ne_zero _ (List.mem_map_of_mem hmem)

theorem header_unique (h : w.Lists E) {x : NamedEntry} (he : e ∈ E.entries) (hx : x ∈ E.entries) (hheader : x.header = e.header) :
    x = e := List.inj_on_of_nodup_map h.apart.headers hx he hheader

end NamedWorld.Lists

namespace NamedObjectRegistry

/-- `find_any` comes to the entry of that name, if there is one. -/
theorem run_findAny (h : w.Lists E) (hfuel : E.entries.length ≤ walkFuel) (name : List UInt8) :
    (∃ e ∈ E.entries, e.name = name ∧ (findAny name).run w = (.ok e.header, w)) ∨
      (∀ e ∈ E.entries, e.name ≠ name) ∧ (findAny name).run w = (.ok 0, w) := by
  have hi : bucketIndex (hashName name) < bucketCount := Nat.mod_lt _ (by decide)
  have hshows : ∀ e ∈ E (bucketIndex (hashName name)), w.Shows e := fun e he => h.shows e (Lists.mem_entries_of_mem hi he)
  have hrun : (findAny name).run w =
      (.ok (NamedEntry.address ((E (bucketIndex (hashName name))).find? fun e => e.name = name)), w) :=
    run_findAnyFrom (h.chains _ hi) hshows ((Lists.length_bucket hi).trans hfuel)
  rcases hfind : (E (bucketIndex (hashName name))).find? fun e => e.name = name with _ | e
  · rw [hfind] at hrun
    refine Or.inr ⟨fun e he hname => ?_, hrun⟩
    have hmem := h.mem_bucket he
    -- an entry of that name could only be in the bucket that has been searched
    unfold NamedEntry.bucket at hmem
    rw [hname] at hmem
    exact List.find?_eq_none.mp hfind e hmem (decide_eq_true hname)
  · rw [hfind] at hrun
    exact Or.inl ⟨e, Lists.mem_entries_of_mem hi (List.mem_of_find?_eq_some hfind), by simpa using List.find?_some hfind, hrun⟩

theorem run_findIfInBuckets {predicate : NamedObjectHeader → Bool} (h : w.Lists E) (hfuel : E.entries.length ≤ walkFuel) {left : ℕ}
    (hleft : left ≤ bucketCount) :
    (∃ e ∈ E.entries, predicate (e.record (w.next e.header)) ∧ (findIfInBuckets predicate left).run w = (.ok e.header, w)) ∨
      (∀ i < bucketCount, bucketCount-left ≤ i → ∀ e ∈ E i, predicate (e.record (w.next e.header)) = false) ∧
        (findIfInBuckets predicate left).run w = (.ok 0, w) := by
  induction left with
  | zero => exact Or.inr ⟨fun i hi hle => by omega, rfl⟩
  | succ left ih =>
    have hi : bucketCount-(left+1) < bucketCount := by omega
    have hshows : ∀ e ∈ E (bucketCount-(left+1)), w.Shows e := fun e he => h.shows e (Lists.mem_entries_of_mem hi he)
    have hfirst : (findIfFrom predicate walkFuel (w.buckets (bucketCount-(left+1)))).run w =
        (.ok (NamedEntry.address ((E (bucketCount-(left+1))).find? fun e => predicate (e.record (w.next e.header)))), w) :=
      run_findIfFrom (h.chains _ hi) hshows ((Lists.length_bucket hi).trans hfuel)
    have hrun : (findIfInBuckets predicate (left+1)).run w = (findIfFrom predicate walkFuel (w.buckets (bucketCount-(left+1))) >>=
      fun p => if p ≠ 0 then pure p else findIfInBuckets predicate left).run w := rfl
    rcases hfind : (E (bucketCount-(left+1))).find? fun e => predicate (e.record (w.next e.header)) with _ | e
    · rw [hfind] at hfirst
      rw [hrun, run_bind_ok hfirst, if_neg (fun hne => hne rfl)]
      rcases ih (by omega) with hfound | ⟨hnone, hzero⟩
      · exact Or.inl hfound
      · refine Or.inr ⟨fun i hi hle e he => ?_, hzero⟩
        by_cases heq : i = bucketCount-(left+1)
        · subst heq
          exact Bool.eq_false_iff.mpr (List.find?_eq_none.mp hfind e he)
        · exact hnone i hi (by omega) e he
    · have he := Lists.mem_entries_of_mem hi (List.mem_of_find?_eq_some hfind)
      have hne : NamedEntry.address (some e) ≠ 0 := h.header_ne_zero he
      rw [hfind] at hfirst
      have hpred := List.find?_some hfind
      rw [hrun, run_bind_ok hfirst, if_pos hne]
      exact Or.inl ⟨e, he, hpred, rfl⟩

/-- `find_if` comes to an entry that satisfies the predicate, if there is one. -/
theorem run_findIf (predicate : NamedObjectHeader → Bool) (h : w.Lists E) (hfuel : E.entries.length ≤ walkFuel) :
    (∃ e ∈ E.entries, predicate (e.record (w.next e.header)) ∧ (findIf predicate).run w = (.ok e.header, w)) ∨
      (∀ e ∈ E.entries, predicate (e.record (w.next e.header)) = false) ∧ (findIf predicate).run w = (.ok 0, w) := by
  refine (run_findIfInBuckets h hfuel le_rfl).imp_right fun ⟨hnone, hrun⟩ => ⟨fun e he => ?_, hrun⟩
  obtain ⟨i, hi, hmem⟩ := Buckets.mem_entries.mp he
  exact hnone i hi (by omega) e hmem

end NamedObjectRegistry

/-! Edits of the lists. -/

namespace NamedEntry

theorem header_mem (e : NamedEntry) : e.header ∈ e.addresses := by simp [addresses]

theorem object_mem (e : NamedEntry) : e.object ∈ e.addresses := by simp [addresses]

theorem nameAt_mem (e : NamedEntry) : e.nameAt ∈ e.addresses := by simp [addresses]

end NamedEntry

namespace NamedWorld.Lists

/-- What other entries hold lies elsewhere. -/
theorem elsewhere (h : w.Lists E) {x : NamedEntry} (he : e ∈ E.entries) (hx : x ∈ E.entries) (hne : x.header ≠ e.header) :
    ∀ q ∈ x.addresses, q ∉ e.addresses := by
  obtain ⟨rest, hp, hapart, -⟩ := h.apart.split he
  rcases List.mem_cons.mp (hp.mem_iff.mp hx) with rfl | hx
  · exact absurd rfl hne
  · exact hapart x hx

theorem nodup_addresses (h : w.Lists E) (he : e ∈ E.entries) : e.addresses.Nodup := (List.nodup_flatMap.mp h.apart).1 e he

/-- One entry has changed, in its place. -/
theorem alter (h : w.Lists E) (he : e ∈ E.entries) {f : NamedEntry → NamedEntry} (hsame : e.SameObject (f e))
    (hheader : w'.cell e.header = some (.header ((f e).record (w.next e.header))))
    (hobject : w'.cell e.object = some (.object (e.count*e.size) (f e).alive))
    (hframe : ∀ q, q ≠ e.header → q ≠ e.object → w'.cell q = w.cell q) (hbuckets : w'.buckets = w.buckets)
    (htotal : w'.totalCount = w.totalCount)
    (hready : w'.readyCount+(if e.state = .ready then 1 else 0) = w.readyCount+(if (f e).state = .ready then 1 else 0)) :
    w'.Lists (E.alter e.header f) := by
  have hnext : ∀ q, w'.next q = w.next q := by
    intro q
    by_cases hq : q = e.header
    · rw [hq, next_of_header hheader]
      rfl
    by_cases hq' : q = e.object
    · unfold next
      rw [hq', hobject, (h.shows e he).object]
    exact next_congr (hframe q hq hq')
  -- each entry stays the same object: the altered one by `hsame`, the others as they are
  have hkept : ∀ x ∈ E.entries, (if x.header = e.header then f x else x).SameObject x ∧ x.SameObject (if x.header = e.header then f x else x) := by
    intro x hx
    split
    · next heq =>
      obtain rfl := h.header_unique he hx heq
      exact ⟨⟨hsame.header.symm, hsame.object.symm, hsame.nameAt.symm, hsame.name.symm, hsame.count.symm, hsame.size.symm⟩, hsame⟩
    · exact ⟨⟨rfl, rfl, rfl, rfl, rfl, rfl⟩, ⟨rfl, rfl, rfl, rfl, rfl, rfl⟩⟩
  obtain ⟨rest, hp, hapart, halter, -⟩ := h.apart.split he
  refine ⟨fun i hi => ?_, fun x hx => ?_, fun i hi x hx => ?_, ?_, ?_, ?_, ?_⟩
  · have hheaders : (E.alter e.header f i).map NamedEntry.header = (E i).map NamedEntry.header := by
      unfold Buckets.alter
      rw [List.map_map]
      exact List.map_congr_left fun x hx => (hkept x (mem_entries_of_mem hi hx)).2.header
    rw [hheaders, hbuckets]
    exact (h.chains i hi).congr fun q _ => hnext q
  · rcases List.mem_cons.mp ((halter f).mem_iff.mp hx) with rfl | hx
    · have hname : w'.cell e.nameAt = w.cell e.nameAt := by
        have hnd := h.nodup_addresses he
        simp only [NamedEntry.addresses, List.nodup_cons, List.mem_cons, List.not_mem_nil, or_false, not_or] at hnd
        exact hframe _ hnd.1.1 hnd.1.2
      refine ⟨?_, ?_, ?_⟩
      · rw [hsame.header, hnext]
        exact hheader
      · rw [hsame.nameAt, hsame.name, hname]
        exact (h.shows e he).name
      · rw [hsame.object, hsame.count, hsame.size]
        exact hobject
    · have hxin : x ∈ E.entries := hp.mem_iff.mpr (List.mem_cons_of_mem _ hx)
      refine (h.shows x hxin).congr fun q hq => hframe q ?_ ?_
      · rintro rfl
        exact hapart x hx _ hq e.header_mem
      · rintro rfl
        exact hapart x hx _ hq e.object_mem
  · obtain ⟨y, hy, rfl⟩ := List.mem_map.mp hx
    unfold NamedEntry.bucket
    rw [(hkept y (mem_entries_of_mem hi hy)).2.name]
    exact h.in_bucket i hi y hy
  · rw [Buckets.entries_alter, List.map_map]
    have hnames : E.entries.map (NamedEntry.name ∘ fun x => if x.header = e.header then f x else x) = E.entries.map NamedEntry.name :=
      List.map_congr_left fun x hx => (hkept x hx).2.name
    rw [hnames]
    exact h.named
  · rw [(halter f).countP_eq, List.countP_cons]
    have hwas := h.ready
    rw [hp.countP_eq, List.countP_cons] at hwas
    simp only [decide_eq_true_eq] at hwas ⊢
    omega
  · rw [htotal, h.total, Buckets.entries_alter, List.length_map]
  · unfold Buckets.Apart
    rw [Buckets.entries_alter, List.flatMap_map]
    have haddresses : (E.entries.flatMap fun x => (if x.header = e.header then f x else x).addresses) =
        E.entries.flatMap NamedEntry.addresses := List.flatMap_congr fun x hx => (hkept x hx).2.addresses
    rw [haddresses]
    exact h.apart

/-- One more entry, the first of its bucket. -/
theorem add (h : w.Lists E) (hs : w'.Shows e) (hne : e.header ≠ 0) (hnext : w'.next e.header = w.buckets e.bucket)
    (hframe : ∀ q, q ∉ e.addresses → w'.cell q = w.cell q) (hbuckets : w'.buckets = Function.update w.buckets e.bucket e.header)
    (htotal : w'.totalCount = w.totalCount+1) (hready : w'.readyCount = w.readyCount+(if e.state = .ready then 1 else 0))
    (hname : ∀ x ∈ E.entries, x.name ≠ e.name) (hapart : ∀ x ∈ E.entries, ∀ q ∈ x.addresses, q ∉ e.addresses)
    (hnd : e.addresses.Nodup) : w'.Lists (E.add e) := by
  have hp := E.entries_add e
  have hchain : ∀ i < bucketCount, LinkedFrom w'.next (w.buckets i) ((E i).map NamedEntry.header) := by
    intro i hi
    refine (h.chains i hi).congr fun q hq => ?_
    obtain ⟨x, hx, rfl⟩ := List.mem_map.mp hq
    exact next_congr (hframe _ (hapart x (mem_entries_of_mem hi hx) _ x.header_mem))
  refine ⟨fun i hi => ?_, fun x hx => ?_, fun i hi x hx => ?_, ?_, ?_, ?_, ?_⟩
  · unfold Buckets.add
    rw [hbuckets]
    by_cases hieq : i = e.bucket
    · subst hieq
      rw [Function.update_self, Function.update_self, List.map_cons]
      refine ⟨rfl, hne, ?_⟩
      rw [hnext]
      exact hchain _ hi
    · rw [Function.update_of_ne hieq, Function.update_of_ne hieq]
      exact hchain i hi
  · rcases List.mem_cons.mp (hp.mem_iff.mp hx) with rfl | hx
    · exact hs
    · exact (h.shows x hx).congr fun q hq => hframe q (hapart x hx q hq)
  · unfold Buckets.add at hx
    by_cases hieq : i = e.bucket
    · subst hieq
      rw [Function.update_self] at hx
      rcases List.mem_cons.mp hx with rfl | hx
      · rfl
      · exact h.in_bucket _ hi x hx
    · rw [Function.update_of_ne hieq] at hx
      exact h.in_bucket i hi x hx
  · rw [(hp.map _).nodup_iff, List.map_cons]
    refine List.nodup_cons.mpr ⟨fun hm => ?_, h.named⟩
    obtain ⟨x, hx, hxname⟩ := List.mem_map.mp hm
    exact hname x hx hxname
  · rw [hready, hp.countP_eq, List.countP_cons, h.ready]
    simp only [decide_eq_true_eq]
  · rw [htotal, hp.length_eq, h.total]
    rfl
  · refine (hp.flatMap_right _).nodup_iff.mpr ?_
    rw [List.flatMap_cons]
    refine List.nodup_append.mpr ⟨hnd, h.apart, fun q hq q' hq' heq => ?_⟩
    obtain ⟨x, hx, hmem⟩ := List.mem_flatMap.mp hq'
    exact hapart x hx q' hmem (heq ▸ hq)

/-- One entry less. -/
theorem remove (h : w.Lists E) (he : e ∈ E.entries) (hshows : ∀ x ∈ E.entries, x.header ≠ e.header → w'.Shows x)
    (hchain : LinkedFrom w'.next (w'.buckets e.bucket) ((E.remove e.header e.bucket).map NamedEntry.header))
    (hbuckets : ∀ i, i ≠ e.bucket → w'.buckets i = w.buckets i)
    (hnext : ∀ x ∈ E.entries, x.bucket ≠ e.bucket → w'.next x.header = w.next x.header) (htotal : w'.totalCount = w.totalCount-1)
    (hready : w'.readyCount = w.readyCount-(if e.state = .ready then 1 else 0)) : w'.Lists (E.remove e.header) := by
  obtain ⟨rest, hp, hapart, -, hrest⟩ := h.apart.split he
  have hin : ∀ x ∈ rest, x ∈ E.entries ∧ x.header ≠ e.header := fun x hx =>
    ⟨hp.mem_iff.mpr (List.mem_cons_of_mem _ hx), fun heq => hapart x hx x.header x.header_mem (heq ▸ e.header_mem)⟩
  refine ⟨fun i hi => ?_, fun x hx => ?_, fun i hi x hx => h.in_bucket i hi x (List.mem_of_mem_filter hx), ?_, ?_, ?_, ?_⟩
  · by_cases hieq : i = e.bucket
    · subst hieq
      exact hchain
    have hsame : E.remove e.header i = E i := by
      refine List.filter_eq_self.mpr fun x hx => decide_eq_true fun heq => hieq ?_
      rw [← h.in_bucket i hi x hx, h.header_unique he (mem_entries_of_mem hi hx) heq]
    rw [hsame, hbuckets i hieq]
    refine (h.chains i hi).congr fun q hq => ?_
    obtain ⟨x, hx, rfl⟩ := List.mem_map.mp hq
    exact hnext x (mem_entries_of_mem hi hx) fun heq => hieq ((h.in_bucket i hi x hx).symm.trans heq)
  · have hx := hin x (hrest.mem_iff.mp hx)
    exact hshows x hx.1 hx.2
  · rw [(hrest.map _).nodup_iff]
    have hwas := (hp.map _).nodup_iff.mp h.named
    exact (List.nodup_cons.mp hwas).2
  · have hwas := h.ready
    rw [hp.countP_eq, List.countP_cons] at hwas
    rw [hready, hrest.countP_eq, hwas]
    simp only [decide_eq_true_eq]
    omega
  · rw [htotal, h.total, hrest.length_eq, hp.length_eq, List.length_cons]
    omega
  · refine (hrest.flatMap_right _).nodup_iff.mpr ?_
    have hwas := (hp.flatMap_right NamedEntry.addresses).nodup_iff.mp h.apart
    rw [List.flatMap_cons] at hwas
    exact (List.nodup_append.mp hwas).2.1

end NamedWorld.Lists

namespace NamedObjectRegistry

/-- The loop of `unlink` comes to its target, with the one before it at hand. -/
theorem run_unlinkFrom {index prev : ℕ} {xs ys : List NamedEntry}
    (hl : LinkedFrom w.next p ((xs ++ e :: ys).map NamedEntry.header)) (hs : ∀ x ∈ xs, w.Shows x) (hne : ∀ x ∈ xs, x.header ≠ e.header)
    (hfuel : xs.length < fuel) :
    (unlinkFrom index e.header fuel prev p).run w = (detach index ((xs.map NamedEntry.header).getLastD prev) e.header).run w := by
  -- `xs` are the entries to be passed on the way to `e`; `prev` is the last of them so far
  induction xs generalizing p prev fuel with
  | nil =>
    obtain ⟨rfl, hne, -⟩ := hl
    obtain ⟨fuel, rfl⟩ := Nat.exists_eq_succ_of_ne_zero (Nat.pos_iff_ne_zero.mp (Nat.zero_lt_of_lt hfuel))
    unfold unlinkFrom
    rw [if_neg hne]
    change Prog.run (if e.header = e.header then _ else _) w = _
    rw [if_pos rfl]
    rfl
  | cons x xs ih =>
    obtain ⟨rfl, hxne, htail⟩ := hl
    obtain ⟨fuel, rfl⟩ := Nat.exists_eq_succ_of_ne_zero (Nat.pos_iff_ne_zero.mp (Nat.zero_lt_of_lt hfuel))
    unfold unlinkFrom
    rw [if_neg hxne]
    change Prog.run (if x.header = e.header then _ else _) w = _
    rw [if_neg (hne x List.mem_cons_self), run_bind_ok (run_readHeader (hs x List.mem_cons_self).header)]
    change (unlinkFrom index e.header fuel x.header (w.next x.header)).run w = _
    rw [ih htail (fun y hy => hs y (List.mem_cons_of_mem _ hy)) (fun y hy => hne y (List.mem_cons_of_mem _ hy))
      (Nat.lt_of_succ_lt_succ hfuel)]
    cases xs <;> rfl

theorem run_dropReady (state : NamedObjectState) :
    (dropReady state).run w = (.ok (), { w with readyCount := w.readyCount-(if state = .ready then 1 else 0) }) := by
  have hrun : (dropReady state).run w =
      Prog.run (if state = .ready ∧ 0 < w.readyCount then setReadyCount (w.readyCount-1) else pure ()) w := rfl
  rw [hrun]
  by_cases hstate : state = .ready
  · by_cases hpos : 0 < w.readyCount
    · rw [if_pos ⟨hstate, hpos⟩, if_pos hstate]
      rfl
    · rw [if_neg (fun hand => hpos hand.2), if_pos hstate, Nat.eq_zero_of_not_pos hpos]
      have hzero : w = { w with readyCount := 0 } := by
        rw [← Nat.eq_zero_of_not_pos hpos]
      exact congrArg (Prod.mk _) hzero
  · rw [if_neg (fun hand => hstate hand.1), if_neg hstate]
    rfl

theorem run_dropTotal : dropTotal.run w = (.ok (), { w with totalCount := w.totalCount-1 }) := by
  have hrun : dropTotal.run w = Prog.run (if 0 < w.totalCount then setTotalCount (w.totalCount-1) else pure ()) w := rfl
  rw [hrun]
  -- at zero the guard of the source and the truncated subtraction agree
  by_cases hpos : 0 < w.totalCount
  · rw [if_pos hpos]
    rfl
  · rw [if_neg hpos, Nat.eq_zero_of_not_pos hpos]
    have hzero : w = { w with totalCount := 0 } := by
      rw [← Nat.eq_zero_of_not_pos hpos]
    exact congrArg (Prod.mk _) hzero

theorem run_detach_first {index : ℕ} (hw : w.cell p = some (.header h)) :
    (detach index 0 p).run w = (.ok (), { w with
      buckets := Function.update w.buckets index h.next
      readyCount := w.readyCount-(if h.state = .ready then 1 else 0)
      totalCount := w.totalCount-1
      cell := Function.update w.cell p (some (.header { h with next := 0 })) }) := by
  unfold detach
  rw [run_bind_ok (run_readHeader hw)]
  have hbypass : (bypass index 0 h.next).run w = (.ok (), { w with buckets := Function.update w.buckets index h.next }) := rfl
  rw [run_bind_ok hbypass, run_bind_ok (run_dropReady _), run_bind_ok run_dropTotal]
  exact run_modifyHeader hw

theorem run_detach_behind {index : ℕ} {g : NamedObjectHeader} (hw : w.cell p = some (.header h)) (hq : q ≠ 0) (hqp : q ≠ p)
    (hwq : w.cell q = some (.header g)) :
    (detach index q p).run w = (.ok (), { w with
      readyCount := w.readyCount-(if h.state = .ready then 1 else 0)
      totalCount := w.totalCount-1
      cell := Function.update (Function.update w.cell q (some (.header { g with next := h.next }))) p
        (some (.header { h with next := 0 })) }) := by
  unfold detach
  rw [run_bind_ok (run_readHeader hw)]
  have hbypass : (bypass index q h.next).run w =
      (.ok (), { w with cell := Function.update w.cell q (some (.header { g with next := h.next })) }) := by
    unfold bypass
    rw [if_pos hq]
    exact run_modifyHeader hwq
  rw [run_bind_ok hbypass, run_bind_ok (run_dropReady _), run_bind_ok run_dropTotal]
  refine run_modifyHeader ?_
  exact (Function.update_of_ne hqp.symm _ _).trans hw

end NamedObjectRegistry

/-- `e` is out of its chain, and nothing else has changed than what must. -/
structure NamedWorld.Unlinked (w : NamedWorld) (E : Buckets) (e : NamedEntry) (w' : NamedWorld) : Prop where
  lists : w'.Lists (E.remove e.header)
  frame : ∀ q, (∀ x ∈ E.entries, x.header ≠ q) → w'.cell q = w.cell q
  extents : ∀ q, (w'.cell q).map NamedCell.extent = (w.cell q).map NamedCell.extent
  same : w' = { w with cell := w'.cell, buckets := w'.buckets, readyCount := w'.readyCount, totalCount := w'.totalCount }
  first : ∀ l, E e.bucket = e :: l →
    w'.buckets = Function.update w.buckets e.bucket (w.next e.header) ∧ ∀ q, q ≠ e.header → w'.cell q = w.cell q

/-- The extent of a cell that has been overwritten by a header. -/
theorem extent_update {g : NamedObjectHeader} (hw : w.cell p = some (.header h)) (q : ℕ) :
    (Function.update w.cell p (some (.header g)) q).map NamedCell.extent = (w.cell q).map NamedCell.extent := by
  by_cases hq : q = p
  · rw [hq, Function.update_self, hw]
    rfl
  · rw [Function.update_of_ne hq]

namespace NamedObjectRegistry

/-- `unlink` takes an entry out of the registry, wherever in its chain it stands. -/
theorem run_unlink (hlists : w.Lists E) (hfuel : E.entries.length ≤ walkFuel) (he : e ∈ E.entries) :
    ∃ w', (unlink e.header).run w = (.ok (), w') ∧ w.Unlinked E e w' := by
  have hi := e.bucket_lt
  have hmem := hlists.mem_bucket he
  have hse := hlists.shows e he
  obtain ⟨xs, ys, hsplit⟩ := List.append_of_mem hmem
  have hchain := hlists.chains _ hi
  rw [hsplit] at hchain
  have hnodup : ((xs ++ e :: ys).map NamedEntry.header).Nodup := hchain.nodup
  rw [List.map_append, List.map_cons] at hnodup hchain
  have hin : ∀ x ∈ xs ++ ys, x ∈ E.entries := by
    intro x hx
    refine Lists.mem_entries_of_mem hi ?_
    rw [hsplit]
    rcases List.mem_append.mp hx with hx | hx
    · exact List.mem_append_left _ hx
    · exact List.mem_append_right _ (List.mem_cons_of_mem _ hx)
  have hne : ∀ x ∈ xs ++ ys, x.header ≠ e.header := by
    intro x hx heq
    obtain ⟨hxs, hys, hapart⟩ := List.nodup_append.mp hnodup
    rcases List.mem_append.mp hx with hx | hx
    · exact hapart _ (List.mem_map_of_mem hx) _ List.mem_cons_self heq
    · exact (List.nodup_cons.mp hys).1 (heq ▸ List.mem_map_of_mem hx)
  -- in the chain of its bucket the entry stands between `xs` and `ys`
  have hremove : (E.remove e.header) e.bucket = xs ++ ys := by
    unfold Buckets.remove
    rw [hsplit, List.filter_append, List.filter_cons_of_neg (by simp)]
    rw [List.filter_eq_self.mpr fun x hx => decide_eq_true (hne x (List.mem_append_left _ hx)),
      List.filter_eq_self.mpr fun x hx => decide_eq_true (hne x (List.mem_append_right _ hx))]
  have hlen : xs.length < walkFuel := by
    have hle := (Lists.length_bucket hi).trans hfuel
    rw [hsplit, List.length_append, List.length_cons] at hle
    omega
  -- the loop gets there with the last header of `xs` as `previous`, or with null
  have hloop : (unlink e.header).run w = (detach e.bucket ((xs.map NamedEntry.header).getLastD 0) e.header).run w := by
    unfold unlink
    rw [if_neg (hlists.header_ne_zero he), run_bind_ok (run_readHeader hse.header)]
    change (unlinkFrom e.bucket e.header walkFuel 0 (w.buckets e.bucket)).run w = _
    have hlinked : LinkedFrom w.next (w.buckets e.bucket) ((xs ++ e :: ys).map NamedEntry.header) := by
      rw [List.map_append, List.map_cons]
      exact hchain
    exact run_unlinkFrom hlinked (fun x hx => hlists.shows x (hin x (List.mem_append_left _ hx)))
      (fun x hx => hne x (List.mem_append_left _ hx)) hlen
  have hother : ∀ x ∈ E.entries, x.header ≠ e.header → ∀ q ∈ x.addresses, q ≠ e.header := fun x hx hxe q hq heq =>
    hlists.elsewhere he hx hxe q hq (heq ▸ e.header_mem)
  -- what is written is the head of the bucket, or the link of the header `d` before the entry
  rcases List.eq_nil_or_concat' xs with rfl | ⟨front, d, rfl⟩
  · refine ⟨_, hloop.trans (run_detach_first hse.header), ?_, fun q hq => ?_, fun q => ?_, rfl, fun l hl => ⟨rfl, fun q hq => ?_⟩⟩
    · refine hlists.remove he (fun x hx hxe => ?_) ?_ (fun i hie => Function.update_of_ne hie _ _) (fun x hx hxb => ?_) rfl rfl
      · exact (hlists.shows x hx).congr fun q hq => Function.update_of_ne (hother x hx hxe q hq) _ _
      · rw [hremove]
        change LinkedFrom _ (Function.update w.buckets e.bucket (w.next e.header) e.bucket) _
        rw [Function.update_self]
        refine (hchain.2.2).congr fun q hq => ?_
        obtain ⟨x, hx, rfl⟩ := List.mem_map.mp hq
        exact next_congr (Function.update_of_ne (hne x hx) _ _)
      · refine next_congr (Function.update_of_ne ?_ _ _)
        intro heq
        exact hxb (by rw [hlists.header_unique he hx heq])
    · exact Function.update_of_ne (fun heq => hq e he heq.symm) _ _
    · exact extent_update hse.header q
    · exact Function.update_of_ne hq _ _
  · have hd : d ∈ (front ++ [d]) ++ ys := List.mem_append_left _ (by simp)
    have hdin := hin d hd
    have hdne := hne d hd
    have hsd := hlists.shows d hdin
    have hlast : ((front ++ [d]).map NamedEntry.header).getLastD 0 = d.header := by
      rw [List.map_append]
      simp
    rw [hlast] at hloop
    have hdnd := hlists.nodup_addresses hdin
    simp only [NamedEntry.addresses, List.nodup_cons, List.mem_cons, List.not_mem_nil, or_false, not_or] at hdnd
    obtain ⟨c, hdetach, hcell, hbuckets, hready, htotal, hsame⟩ : ∃ c, (detach e.bucket d.header e.header).run w = (.ok (), c) ∧
        c.cell = Function.update (Function.update w.cell d.header (some (.header (d.record (w.next e.header))))) e.header
          (some (.header (e.record 0))) ∧ c.buckets = w.buckets ∧ c.readyCount = w.readyCount-(if e.state = .ready then 1 else 0) ∧
        c.totalCount = w.totalCount-1 ∧
        c = { w with cell := c.cell, buckets := c.buckets, readyCount := c.readyCount, totalCount := c.totalCount } :=
      ⟨_, run_detach_behind hse.header (hlists.header_ne_zero hdin) hdne hsd.header, rfl, rfl, rfl, rfl, rfl⟩
    have hce : ∀ q, q ≠ d.header → q ≠ e.header → c.cell q = w.cell q := by
      intro q hqd hqe
      rw [hcell, Function.update_of_ne hqe, Function.update_of_ne hqd]
    have hcd : c.cell d.header = some (.header (d.record (w.next e.header))) := by
      rw [hcell, Function.update_of_ne hdne, Function.update_self]
    have hnextd : c.next d.header = w.next e.header := next_of_header hcd
    refine ⟨c, hloop.trans hdetach, ?_, fun q hq => ?_, fun q => ?_, hsame, fun l hl => ?_⟩
    · refine hlists.remove he (fun x hx hxe => ?_) ?_ (fun i hie => congrFun hbuckets i) (fun x hx hxb => ?_) htotal hready
      · by_cases hxd : x.header = d.header
        · obtain rfl := hlists.header_unique hdin hx hxd
          refine ⟨?_, (hce _ hdnd.1.1 (hother x hx hxe _ x.nameAt_mem)).trans hsd.name,
            (hce _ (Ne.symm hdnd.2.1) (hother x hx hxe _ x.object_mem)).trans hsd.object⟩
          rw [hnextd]
          exact hcd
        · refine (hlists.shows x hx).congr fun q hq => hce q (fun heq => ?_) (hother x hx hxe q hq)
          exact hlists.elsewhere hdin hx hxd q hq (heq ▸ d.header_mem)
      · rw [hremove, hbuckets, List.append_assoc, List.singleton_append, List.map_append, List.map_cons]
        -- of the chain only `d` has changed
        have hkept : ∀ x ∈ front ++ ys, c.cell x.header = w.cell x.header := by
          intro x hx
          have hxin : x ∈ (front ++ [d]) ++ ys := by
            rcases List.mem_append.mp hx with hx | hx
            · exact List.mem_append_left _ (List.mem_append_left _ hx)
            · exact List.mem_append_right _ hx
          refine hce _ (fun heq => ?_) (hne x hxin)
          rw [List.map_append, List.map_singleton, List.append_assoc, List.singleton_append] at hnodup
          obtain ⟨-, hback, hapart⟩ := List.nodup_append.mp hnodup
          rcases List.mem_append.mp hx with hx | hx
          · exact hapart _ (List.mem_map_of_mem hx) _ List.mem_cons_self heq
          · exact (List.nodup_cons.mp hback).1 (heq ▸ List.mem_cons_of_mem _ (List.mem_map_of_mem hx))
        rw [List.map_append, List.map_singleton, List.append_assoc, List.singleton_append] at hchain
        have htail := (hchain.drop_append).2.2
        refine hchain.relink (fun q hq => ?_) ?_
        · obtain ⟨x, hx, rfl⟩ := List.mem_map.mp hq
          exact next_congr (hkept x (List.mem_append_left _ hx))
        · rw [hnextd]
          refine htail.congr fun q hq => ?_
          obtain ⟨x, hx, rfl⟩ := List.mem_map.mp hq
          exact next_congr (hkept x (List.mem_append_right _ hx))
      · refine next_congr (hce _ (fun heq => hxb ?_) fun heq => hxb ?_)
        · rw [hlists.header_unique hdin hx heq]
          refine hlists.in_bucket _ hi d ?_
          rw [hsplit]
          simp
        · rw [hlists.header_unique he hx heq]
    · exact hce q (fun heq => hq d hdin heq.symm) fun heq => hq e he heq.symm
    · have hstep := extent_update (g := d.record (w.next e.header)) hsd.header
      have hw1 : ({ w with cell := Function.update w.cell d.header (some (.header (d.record (w.next e.header)))) } : NamedWorld).cell
          e.header = some (.header (e.record (w.next e.header))) := (Function.update_of_ne hdne.symm _ _).trans hse.header
      rw [hcell]
      exact (extent_update hw1 q).trans (hstep q)
    · rw [hsplit] at hl
      rcases front with _ | ⟨a, front⟩
      · obtain rfl := (List.cons.inj hl).1
        exact absurd rfl hdne
      · obtain rfl := (List.cons.inj hl).1
        exact absurd rfl (hne a (by simp))

end NamedObjectRegistry

end ShmNext
