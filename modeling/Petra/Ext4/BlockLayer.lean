import Petra.Base.Run
import Petra.Base.SortedMap
import Petra.Ext4.Device

/-! # The block layer

Three places hold a block: the dirty blocks, the cache of blocks read or written, and the
device. Reads look at them in this order.
-/

namespace Petra.Ext4

open Base

structure BlockLayer where
  disk : Storage
  dirtyBlocks : SortedMap Nat Bytes
  metaCache : SortedMap Nat Bytes

namespace BlockLayer

/-- The number of blocks the cache holds before it evicts. -/
def metaCacheLimit : Nat := 8192

/-- The number of dirty blocks at which a flush is started. -/
def dirtyLimit : Nat := 512

/-- The number of blocks a partial flush takes. -/
def flushBatch : Nat := 256

/-- Put a block into the cache. A full cache loses its lowest block first. -/
def cachePut (cache : SortedMap Nat Bytes) (blk : Nat) (buf : Bytes) : SortedMap Nat Bytes :=
  if metaCacheLimit ≤ cache.length ∧ (cache.get? blk).isNone then
    match cache.first? with
    | some e => (cache.erase e.1).insert blk buf
    | none => cache.insert blk buf
  else cache.insert blk buf

variable (g : Geometry) (l : BlockLayer)

/-- Copy a cached block into a buffer of one block. -/
def copyOut (buf : Bytes) : Except Panic (Bytes × BlockLayer) :=
  if buf.length = g.blockSize then .ok (buf, l) else .error .assertion

def readFsBlock (blk : Nat) : Except Panic (Bytes × BlockLayer) :=
  match l.dirtyBlocks.get? blk with
  | some buf => l.copyOut g buf
  | none =>
    match l.metaCache.get? blk with
    | some buf => l.copyOut g buf
    | none => do
      let buf ← g.readFsBlocks l.disk blk
      .ok (buf, { l with metaCache := cachePut l.metaCache blk buf })

def writeFsBlock (blk : Nat) (buf : Bytes) : Except Panic BlockLayer := do
  let disk ← g.writeFsBlocks l.disk blk buf
  .ok ⟨disk, l.dirtyBlocks.erase blk, cachePut l.metaCache blk buf⟩

/-! ### Flushing -/

/-- The maximal runs of consecutive block numbers. -/
def runs : List (Nat × Bytes) → List (List (Nat × Bytes))
  | [] => []
  | e :: rest =>
    match runs rest with
    | (e' :: run) :: more =>
      if e'.1 = e.1 + 1 then (e :: e' :: run) :: more else [e] :: (e' :: run) :: more
    | more => [e] :: more

/-- Write one run: a single block by itself, more than one in a batch that goes to the device
directly. -/
def writeRun (l : BlockLayer) : List (Nat × Bytes) → Except Panic BlockLayer
  | [] => .ok l
  | [e] => l.writeFsBlock g e.1 e.2
  | e :: run => do
    let id ← mulUsize e.1 (g.blockSize / g.devBlockSize)
    .ok { l with disk := g.writeBlocks l.disk id ((e :: run).map Prod.snd).flatten }

/-- The dirty blocks that a flush takes. -/
def toFlush (syncAll : Bool) : List (Nat × Bytes) :=
  if syncAll then l.dirtyBlocks.entries else l.dirtyBlocks.entries.take flushBatch

/-- The dirty blocks that a flush leaves. -/
def leftDirty (syncAll : Bool) : SortedMap Nat Bytes :=
  if syncAll then .empty
  else l.dirtyBlocks.filter (fun blk _ => blk ∉ (l.dirtyBlocks.keys.take flushBatch))

def flushDirtyBlocks (syncAll : Bool) : Except Panic BlockLayer :=
  (runs (l.toFlush syncAll)).foldlM (writeRun g) { l with dirtyBlocks := l.leftDirty syncAll }

/-- Enter a dirty block, as a write of file or directory data does. -/
def insertDirty (blk : Nat) (buf : Bytes) : Except Panic BlockLayer :=
  let l := { l with dirtyBlocks := l.dirtyBlocks.insert blk buf }
  if dirtyLimit ≤ l.dirtyBlocks.length then l.flushDirtyBlocks g false else .ok l

def writeMetaBlockDeferred (blk : Nat) (buf : Bytes) : Except Panic BlockLayer :=
  insertDirty g { l with metaCache := cachePut l.metaCache blk buf } blk buf

end BlockLayer

end Petra.Ext4
