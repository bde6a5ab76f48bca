import Petra.Kernel

/-! # Extents

A file's blocks are a sorted list of extents. An extent says where a stretch of logical blocks
lies on disk. The list is edited in place: a new extent is merged with its neighbours, and a
truncation drops or shortens extents and says which blocks have become free.
-/

namespace Petra.Ext4

/-- The longest extent. The length one above marks uninitialized extents on disk. -/
def maxExtentLen : Nat := 0x7FFF

/-- Addition of two `u32` values. -/
def addU32 (a b : Nat) : Except Panic Nat :=
  if a + b < 2 ^ 32 then .ok (a + b) else .error .overflow

structure Extent where
  log : Nat
  len : Nat
  phys : Nat
  deriving DecidableEq, Repr

namespace Extents

/-- Whether `b` follows `a` in the file and on disk, and one extent can hold both. -/
def mergeable (a b : Extent) : Except Panic Bool := do
  let next ← addU32 a.log a.len
  if b.log = next then
    let nextPhys ← addUsize a.phys a.len
    if nextPhys = b.phys then
      let len ← addU32 a.len b.len
      pure (len ≤ maxExtentLen)
    else pure false
  else pure false

def merge (a b : Extent) : Extent := { a with len := a.len + b.len }

/-- Merge an extent with those after it, as long as this is possible. -/
def mergeForward (a : Extent) : List Extent → Except Panic (List Extent)
  | [] => .ok [a]
  | b :: rest => do
    if ← mergeable a b then mergeForward (merge a b) rest else pure (a :: b :: rest)

/-- Merge the extents around the one that heads `after`. -/
def mergeNeighbors (before after : List Extent) : Except Panic (List Extent) :=
  match before.getLast?, after with
  | some a, b :: rest => do
    if ← mergeable a b then pure (before.dropLast ++ merge a b :: rest)
    else pure (before ++ after)
  | _, _ => pure (before ++ after)

/-- The place of an extent is found by a binary search of the sorted list. -/
def insert (extents : List Extent) (e : Extent) : Except Panic (List Extent) := do
  let merged ← mergeForward e (extents.dropWhile (·.log < e.log))
  mergeNeighbors (extents.takeWhile (·.log < e.log)) merged

/-- What is left of the extents below `bound`, and the ranges of blocks that are not. -/
def truncate (bound : Nat) : List Extent → Except Panic (List Extent × List (Nat × Nat))
  | [] => .ok ([], [])
  | e :: rest =>
    if bound ≤ e.log then do
      let (kept, freed) ← truncate bound rest
      pure (kept, (e.phys, e.len) :: freed)
    else do
      let stop ← addU32 e.log e.len
      if bound < stop then
        let keep := bound - e.log
        let start ← addUsize e.phys keep
        let (kept, freed) ← truncate bound rest
        pure ({ e with len := keep } :: kept, (start, e.len - keep) :: freed)
      else
        let (kept, freed) ← truncate bound rest
        pure (e :: kept, freed)

end Extents

end Petra.Ext4
