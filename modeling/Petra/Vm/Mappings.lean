import Petra.Base.SortedMap
import Petra.Vm.Abi

/-! # The mappings of an address space

A mapping is the record of one contiguous run of virtual addresses with a
single set of properties. The records are kept by start address. Operations on
a range take out the records that intersect it, split off the parts outside,
and put back what is kept, merging records that have become alike.
-/

namespace Petra.Vm

open Base Option

/-- A half-open range of addresses. -/
structure Range where
  start : Nat
  stop : Nat
  deriving DecidableEq, Repr

def Range.len (r : Range) : Nat := r.stop - r.start

theorem Range.len_add (a n : Nat) : (⟨a, a + n⟩ : Range).len = n := Nat.add_sub_cancel_left ..

/-- Whether two ranges overlap. -/
def isIntersected (a b : Range) : Bool := max a.start b.start < min a.stop b.stop

/-- The overlap of two ranges, which the caller knows to be non-empty. -/
def intersect (a b : Range) : Range := ⟨max a.start b.start, min a.stop b.stop⟩

/-- Whether a range can be mapped at all. -/
def isMappableRange (r : Range) : Bool := vmarLowestAddr ≤ r.start && r.stop ≤ vmarCapAddr

/-- Check that a range is non-empty and page-aligned. -/
def checkPageAlignedRange (r : Range) : Except Errno Unit :=
  if r.start ≥ r.stop then .error .EINVAL
  else if r.start % pageSize != 0 || r.stop % pageSize != 0 then .error .EINVAL
  else .ok ()

/-- How an object supplying pages keeps them. -/
inductive BackingKind
  /-- A file: a page is read on its first use. -/
  | file
  /-- A shared memory object: a page is zero on its first use. -/
  | shm
  /-- One fixed frame for every offset. -/
  | singleFrame
  deriving DecidableEq, Repr

/-- A reference to an object supplying pages: its identity, kind and size. -/
structure Backing where
  ptr : Nat
  kind : BackingKind
  size : Nat
  deriving DecidableEq, Repr

/-- One contiguous run of virtual addresses sharing a set of properties. -/
structure VmMapping where
  start : Nat
  len : Nat
  len_pos : 0 < len
  perms : VmPerms
  shared : Bool
  growsDown : Bool
  locked : Bool
  dontFork : Bool
  wipeOnFork : Bool
  backing : Option Backing
  backingOffset : Nat
  deriving DecidableEq, Repr

namespace VmMapping

variable (m : VmMapping)

/-- The first address past the end. -/
def stop : Nat := m.start + m.len

def range : Range := ⟨m.start, m.stop⟩

/-- Whether a fault below this mapping may extend it. -/
def isGrowable : Bool := m.growsDown && !m.shared && m.backing.isNone

/-- Whether a write to this mapping must copy the page first. -/
def isCow : Bool := !m.shared

/-- Whether the offset lies within the backing object. -/
def isBacked (offsetInMapping : Nat) : Bool :=
  match m.backing with
  | some backing => m.backingOffset + offsetInMapping < backing.size
  | none => false

/-- The record with another length, which must not be zero. -/
def withLen (len : Nat) : Except Panic VmMapping :=
  if h : 0 < len then .ok { m with len := len, len_pos := h } else .error .assertion

/-- Grow the record at its high end. -/
def enlarge (extra : Nat) : Except Panic VmMapping :=
  if extra % pageSize = 0 then do m.withLen (← addUsize m.len extra) else .error .assertion

/-- Lower the start of the record to `page`. -/
def extendDownwards (page : Nat) : Except Panic VmMapping :=
  if page % pageSize = 0 ∧ page < m.start ∧ (m.start - page) % pageSize = 0 then do
    let grown ← m.withLen (← addUsize m.len (m.start - page))
    .ok { grown with start := page }
  else .error .assertion

/-- Move the record, keeping its properties and backing. -/
def relocate (newStart : Nat) : Except Panic VmMapping :=
  if newStart % pageSize = 0 then .ok { m with start := newStart } else .error .assertion

/-- Shift the backing offset. -/
def rebase (delta : Nat) : Except Panic VmMapping :=
  if delta % pageSize = 0 then do
    .ok { m with backingOffset := ← addUsize m.backingOffset delta }
  else .error .assertion

/-- Split the record at an address strictly inside it. -/
def split (pos : Nat) : Except Panic (VmMapping × VmMapping) :=
  if m.start < pos ∧ pos < m.stop ∧ pos % pageSize = 0 then do
    let leftLen := pos - m.start
    let left ← m.withLen leftLen
    let right ← m.withLen (m.len - leftLen)
    let offset ← addUsize m.backingOffset leftLen
    .ok (left, { right with start := pos, backingOffset := offset })
  else .error .assertion

/-- Split the record so that the middle result covers exactly `sub`. -/
def splitRange (sub : Range) :
    Except Panic (Option VmMapping × VmMapping × Option VmMapping) :=
  if ¬ (m.start ≤ sub.start ∧ sub.stop ≤ m.stop) then .error .assertion
  else if sub.start = m.start ∧ sub.stop = m.stop then .ok (none, m, none)
  else if m.start < sub.start then do
    let (left, rest) ← m.split sub.start
    if sub.stop < m.stop then
      let (middle, right) ← rest.split sub.stop
      .ok (some left, middle, some right)
    else .ok (some left, rest, none)
  else if sub.stop < m.stop then do
    let (middle, right) ← m.split sub.stop
    .ok (none, middle, some right)
  else .ok (none, m, none)

/-- Whether two records are adjacent and may be merged. -/
def canMerge (left right : VmMapping) : Bool :=
  left.stop == right.start && left.shared == right.shared &&
    left.growsDown == right.growsDown && left.locked == right.locked &&
    left.dontFork == right.dontFork && left.wipeOnFork == right.wipeOnFork &&
    left.perms == right.perms &&
    match left.backing, right.backing with
    | none, none => true
    | some l, some r => l.ptr == r.ptr && left.backingOffset + left.len == right.backingOffset
    | _, _ => false

/-- The record covering `left` immediately followed by `right`. -/
def merged (left right : VmMapping) : VmMapping :=
  { left with
    len := left.len + right.len
    len_pos := Nat.add_pos_left left.len_pos right.len }

end VmMapping

/-- What a carve did. -/
structure CarveOutcome where
  mapped : Nat
  dropped : Nat
  deriving DecidableEq, Repr

/-- The records of an address space, by start address. -/
structure Mappings where
  map : SortedMap Nat VmMapping
  deriving DecidableEq

namespace Mappings

variable (ms : Mappings)

def empty : Mappings := ⟨.empty⟩

/-- The records in ascending address order. -/
def iter : List VmMapping := ms.map.values

/-- The record covering an address. -/
def get (addr : Nat) : Option VmMapping :=
  ((ms.map.atMost? addr).map Prod.snd).filter (fun m => m.stop > addr)

def prev (addr : Nat) : Option VmMapping := (ms.map.below? addr).map Prod.snd

def next (addr : Nat) : Option VmMapping := (ms.map.atLeast? addr).map Prod.snd

/-- The records that intersect a range. The key range is rejected when its start is past
its end. -/
def iterRange (range : Range) : Except Panic (List VmMapping) :=
  let startKey := ((ms.map.below? range.start).map Prod.fst).getD 0
  if startKey > range.stop then .error .assertion
  else .ok (((ms.map.entries.filter
      (fun e => startKey ≤ e.1 && e.1 < range.stop)).map Prod.snd).filter
      (fun m => m.stop > range.start && m.start < range.stop))

/-- The total length of a range that is covered by a record. -/
def countOverlap (range : Range) : Except Panic Nat := do
  let found ← ms.iterRange range
  .ok (found.map (fun m => (intersect range m.range).len)).sum

/-- Whether every page of a range is mapped. -/
def isFullyMapped (range : Range) : Except Panic Bool := do
  .ok ((← ms.countOverlap range) == range.len)

/-- Remove the record kept under a key. -/
def remove (start : Nat) : Option VmMapping × Mappings :=
  (ms.map.get? start, ⟨ms.map.erase start⟩)

/-- Take the records kept under the given keys out of the set. -/
def takeKeys (ms : Mappings) : List Nat → Except Panic (List VmMapping × Mappings)
  | [] => .ok ([], ms)
  | key :: keys =>
    match ms.remove key with
    | (none, _) => .error .assertion
    | (some m, rest) => do
      let (taken, rest) ← rest.takeKeys keys
      .ok (m :: taken, rest)

/-- Take the records that intersect a range out of the set. -/
def takeIn (range : Range) : Except Panic (List VmMapping × Mappings) := do
  let found ← ms.iterRange range
  ms.takeKeys (found.map VmMapping.start)

/-- Merge a record with the one before it, when that is possible. -/
def mergePrev (m : VmMapping) : VmMapping × Mappings :=
  match (ms.prev m.start).filter (fun prev => prev.canMerge m) with
  | some prev => (VmMapping.merged prev m, ⟨ms.map.erase prev.start⟩)
  | none => (m, ms)

/-- Merge a record with the one after it, when that is possible. -/
def mergeNext (m : VmMapping) : VmMapping × Mappings :=
  match (ms.next m.stop).filter (fun next => m.canMerge next) with
  | some next => (VmMapping.merged m next, ⟨ms.map.erase next.start⟩)
  | none => (m, ms)

/-- Put a record into the set. Two records under one key are an assertion failure. -/
def insert (m : VmMapping) : Except Panic Mappings :=
  let (m, ms) := ms.mergePrev m
  let (m, ms) := ms.mergeNext m
  if (ms.map.get? m.start).isSome then .error .assertion
  else .ok ⟨ms.map.insert m.start m⟩

/-- A record goes into a set as it is, or joined to a record that is taken out for it. -/
inductive Joins (ms : Mappings) (m : VmMapping) : VmMapping × Mappings → Prop
  | alone : Joins ms m (m, ms)
  | below {e : Nat × VmMapping} (he : e ∈ ms.map.entries) (hmerge : e.2.canMerge m = true) :
      Joins ms m (VmMapping.merged e.2 m, ⟨ms.map.erase e.2.start⟩)
  | above {e : Nat × VmMapping} (he : e ∈ ms.map.entries) (hmerge : m.canMerge e.2 = true) :
      Joins ms m (VmMapping.merged m e.2, ⟨ms.map.erase e.2.start⟩)

theorem joins_mergePrev (m : VmMapping) : ms.Joins m (ms.mergePrev m) := by
  unfold mergePrev
  cases hprev : (ms.prev m.start).filter (fun prev => prev.canMerge m) with
  | none => exact .alone
  | some prev =>
    obtain ⟨hfound, hmerge⟩ := filter_eq_some_iff.mp hprev
    obtain ⟨e, he, rfl⟩ := map_eq_some_iff.mp hfound
    exact .below (SortedMap.below?_eq_some he).1 hmerge

theorem joins_mergeNext (m : VmMapping) : ms.Joins m (ms.mergeNext m) := by
  unfold mergeNext
  cases hnext : (ms.next m.stop).filter m.canMerge with
  | none => exact .alone
  | some next =>
    obtain ⟨hfound, hmerge⟩ := filter_eq_some_iff.mp hnext
    obtain ⟨e, he, rfl⟩ := map_eq_some_iff.mp hfound
    exact .above (SortedMap.atLeast?_eq_some he).1 hmerge

/-- Put several records into the set, in order. -/
def insertAll (ms : Mappings) : List VmMapping → Except Panic Mappings
  | [] => .ok ms
  | m :: rest => do (← ms.insert m).insertAll rest

/-- Extend the growable record above `page` down to it. -/
def growDownwards (page : Nat) : Except Panic (Option VmMapping × Mappings) :=
  match ms.next page with
  | none => .ok (none, ms)
  | some above =>
    if above.start ≤ page || !above.isGrowable then .ok (none, ms)
    else
      match ms.remove above.start with
      | (none, _) => .ok (none, ms)
      | (some record, rest) => do
        let ms ← rest.insert (← record.extendDownwards page)
        .ok (ms.get page, ms)

/-- What a carve does to one piece it has been handed: keep a record or drop the piece.
The closure's own state is passed along. -/
abbrev CarveOp (τ : Type) := τ → VmMapping → Range → Except Panic (Option VmMapping × τ)

/-- Split each taken record at the range and apply `op` to the part inside. Returns the
survivors in the order in which they are put back. -/
def carvePieces {τ : Type} (range : Range) (op : CarveOp τ) (env : τ) :
    List VmMapping → Except Panic (List VmMapping × CarveOutcome × τ)
  | [] => .ok ([], ⟨0, 0⟩, env)
  | piece :: pieces => do
    let sub := intersect range piece.range
    let (left, middle, right) ← piece.splitRange sub
    let (kept, env) ← op env middle sub
    let (survivors, outcome, env) ← carvePieces range op env pieces
    .ok (left.toList ++ right.toList ++ kept.toList ++ survivors,
      ⟨sub.len + outcome.mapped, (if kept.isSome then 0 else sub.len) + outcome.dropped⟩, env)

/-- Apply `op` to the part of every record that intersects a range. -/
def carve {τ : Type} (ms : Mappings) (range : Range) (op : CarveOp τ) (env : τ) :
    Except Panic (Mappings × CarveOutcome × τ) :=
  if range.start % pageSize = 0 ∧ range.stop % pageSize = 0 ∧ range.start < range.stop then do
    let (pieces, rest) ← ms.takeIn range
    let (survivors, outcome, env) ← carvePieces range op env pieces
    .ok (← rest.insertAll survivors, outcome, env)
  else .error .assertion

end Mappings

end Petra.Vm
