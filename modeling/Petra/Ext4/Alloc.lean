import Petra.Base.Bitmap
import Petra.Ext4.GroupTable

/-! # The allocators

Blocks and inodes are taken from bitmaps, one per group, and given back to them. The counts
of free blocks and inodes are kept in the group descriptors and in the superblock.
-/

namespace Petra.Ext4

open Base Crypto

structure AllocIo where
  sb : SuperBlock
  bgt : BgTable
  blockSize : Nat
  totalBlocks : Nat
  /-- The contents of the blocks. Reading and writing them never fails. -/
  blocks : Nat → Bytes

abbrev AllocCall := Call Panic Errno AllocIo

/-! ### Scanning a bitmap -/

/-- Look at the bits of one byte. The search may end, with or without a bit, or go on. -/
def scanByte (x : UInt8) (i span : Nat) : List Nat → Option (Option Nat)
  | [] => none
  | bit :: bits =>
    if span ≤ i * 8 + bit then some none
    else if x &&& maskOf bit = 0 then some (some (i * 8 + bit))
    else scanByte x i span bits

def scanBytes (bm : Bytes) (span : Nat) : List Nat → Option Nat
  | [] => none
  | i :: is =>
    match bm[i]? with
    | none => none
    | some x =>
      if x = 0xFF then scanBytes bm span is
      else
        match scanByte x i span (List.range 8) with
        | some found => found
        | none => scanBytes bm span is

def scanFree (bm : Bytes) (span : Nat) : Option Nat :=
  scanBytes bm span (List.range (span / 8 + 1))

namespace AllocIo

/-! ### Blocks -/

/-- The bits of group `g` that are searched. -/
def groupBlockBits (io : AllocIo) (g : Nat) : Nat :=
  if io.sb.blocksPerGroup = 0 then 0
  else
    let groupStart := io.sb.firstDataBlock + g * io.sb.blocksPerGroup
    if io.totalBlocks ≤ groupStart then 0 else min (io.totalBlocks - groupStart) (8 * io.blockSize)

def blockOfBit (io : AllocIo) (g bit : Nat) : Nat :=
  io.sb.firstDataBlock + g * io.sb.blocksPerGroup + bit

def onTable {α : Type} (call : TableCall α) : AllocCall α := fun io =>
  match call io.bgt with
  | .error p => .error p
  | .ok (r, t) => .ok (r, { io with bgt := t })

def readBlock (blk : Nat) : AllocCall Bytes := fun io => .ok (.ok (io.blocks blk), io)

def writeBlock (blk : Nat) (buf : Bytes) : AllocCall Unit := fun io =>
  .ok (.ok (), { io with blocks := Function.update io.blocks blk buf })

def onSuper (f : SuperBlock → SuperBlock) : AllocCall Unit := fun io =>
  .ok (.ok (), { io with sb := f io.sb })

/-- Write a bitmap, and the checksum of some of its bytes where there are checksums. -/
def storeBitmap (blk : Nat) (bm summed : Bytes) (patchCsum : UInt32 → Bool → TableCall Unit) :
    AllocCall Unit := do
  writeBlock blk bm
  let io ← Call.get
  if b64DescSize ≤ io.sb.descSize ∧ io.sb.hasMetadataCsum then
    onTable (patchCsum (crc32c io.sb.csumSeed summed) io.sb.has64bit)
  else pure ()

def storeBlockBitmap (g : Nat) (d : BgDesc) (bm : Bytes) : AllocCall Unit :=
  storeBitmap d.blockBitmap bm bm (BgTable.patchBlockBitmapCsum g)

/-- Write the bitmap of a group and then its descriptor. -/
def storeGroup (g : Nat) (d : BgDesc) (bm : Bytes) : AllocCall Unit := do
  storeBlockBitmap g d bm
  let _ ← onTable (BgTable.updateDesc g d)
  pure ()

/-- Take a block of group `g`, if there is one. -/
def allocBlockIn (g : Nat) : AllocCall (Option Nat) := do
  let d ← onTable (BgTable.desc g)
  if d.freeBlocksCount = 0 then pure none
  else do
    let bm ← readBlock d.blockBitmap
    let io ← Call.get
    match scanFree bm (io.groupBlockBits g) with
    | none => pure none
    | some bit => do
      storeGroup g (d.withFreeBlocks (d.freeBlocksCount - 1)) (setBit bm bit)
      onSuper fun sb => sb.patchFreeBlocks (sb.freeBlocksCount - 1)
      pure (some (io.blockOfBit g bit))

/-- The first answer that the groups give. -/
def firstOf {α : Type} (tryGroup : Nat → AllocCall (Option α)) : List Nat → AllocCall α
  | [] => Call.fail .ENOSPC
  | g :: gs => do
    match ← tryGroup g with
    | some a => pure a
    | none => firstOf tryGroup gs

/-- The groups in the order they are tried. -/
def groupsFrom (io : AllocIo) (startGroup : Nat) : List Nat :=
  (List.range io.bgt.count).map fun i => (startGroup + i) % io.bgt.count

def allocBlock (startGroup : Nat) : AllocCall Nat := do
  let io ← Call.get
  firstOf allocBlockIn (io.groupsFrom startGroup)

/-- Free the blocks from `b` on that lie in one group, at most `left` of them, and say how
many they were. -/
def freeBlocksIn (b left : Nat) : AllocCall Nat := do
  let io ← Call.get
  Call.assert (io.sb.firstDataBlock ≤ b) .overflow
  Call.assert (io.sb.blocksPerGroup ≠ 0) .assertion
  let g := (b - io.sb.firstDataBlock) / io.sb.blocksPerGroup
  let d ← onTable (BgTable.desc g)
  let bm ← readBlock d.blockBitmap
  let firstBit := (b - io.sb.firstDataBlock) % io.sb.blocksPerGroup
  let spanLeft := io.groupBlockBits g
  Call.assert (firstBit ≤ spanLeft) .overflow
  let take := min (spanLeft - firstBit) left
  Call.assert (d.freeBlocksCount + take < 2 ^ 32) .overflow
  storeGroup g (d.withFreeBlocks (d.freeBlocksCount + take))
    (clearBitRange bm firstBit take)
  pure take

/-- Group after group. A round that frees nothing would be repeated for ever, so `left`
rounds are enough. -/
def freeBlocksLoop : (rounds b left : Nat) → AllocCall Unit
  | _, _, 0 => pure ()
  | 0, _, _ + 1 => Call.abort .endless
  | rounds + 1, b, left + 1 => do
    let take ← freeBlocksIn b (left + 1)
    Call.assert (take ≠ 0) .endless
    freeBlocksLoop rounds (b + take) (left + 1 - take)

def freeBlocks (phys len : Nat) : AllocCall Unit := do
  freeBlocksLoop len phys len
  let io ← Call.get
  Call.assert (io.sb.freeBlocksCount + len < 2 ^ 64) .overflow
  onSuper fun sb => sb.patchFreeBlocks (sb.freeBlocksCount + len)

/-! ### Inodes -/

/-- Write the bitmap of the inodes of a group and then its descriptor. -/
def storeInodeGroup (g : Nat) (d : BgDesc) (bm : Bytes) : AllocCall Unit := do
  let io ← Call.get
  let limit := min ((io.sb.inodesPerGroup + 7) / 8) io.blockSize
  storeBitmap d.inodeBitmap bm (slice bm 0 limit) (BgTable.patchInodeBitmapCsum g)
  let _ ← onTable (BgTable.updateDesc g d)
  pure ()

def allocInodeIn (totalInodes g : Nat) : AllocCall (Option (Nat × Nat)) := do
  let d ← onTable (BgTable.desc g)
  if d.freeInodesCount = 0 then pure none
  else do
    let bm ← readBlock d.inodeBitmap
    let io ← Call.get
    match scanFree bm (min io.sb.inodesPerGroup (8 * io.blockSize)) with
    | none => pure none
    | some bit =>
      let ino := g * io.sb.inodesPerGroup + bit + 1
      if totalInodes < ino then pure none
      else do
        storeInodeGroup g (d.withFreeInodes (d.freeInodesCount - 1)) (setBit bm bit)
        onSuper fun sb => sb.patchFreeInodes (sb.freeInodesCount - 1)
        pure (some (ino, g))

def allocInode (startGroup totalInodes : Nat) : AllocCall (Nat × Nat) := do
  let io ← Call.get
  firstOf (allocInodeIn totalInodes) (io.groupsFrom startGroup)

def freeInode (ino : Nat) : AllocCall Unit := do
  let io ← Call.get
  Call.assert (ino ≠ 0) .overflow
  Call.assert (io.sb.inodesPerGroup ≠ 0) .assertion
  let g := (ino - 1) / io.sb.inodesPerGroup
  let bit := (ino - 1) % io.sb.inodesPerGroup
  let d ← onTable (BgTable.desc g)
  let bm ← readBlock d.inodeBitmap
  Call.assert (bit / 8 < bm.length) .assertion
  Call.assert (d.freeInodesCount + 1 < 2 ^ 32) .overflow
  storeInodeGroup g (d.withFreeInodes (d.freeInodesCount + 1)) (clearBit bm bit)
  onSuper fun sb => sb.patchFreeInodes (min (sb.freeInodesCount + 1) (2 ^ 32 - 1))

/-! ### Mounting -/

def csumMode (sb : SuperBlock) : DescSum :=
  if sb.hasMetadataCsum then .crc32c
  else if hasAny sb.featureRoCompat rocompat.gdtCsum then .crc16
  else .none

/-- The allocator of a filesystem that was just mounted. -/
def mount (sb : SuperBlock) (blocks : Nat → Bytes) : Except Panic AllocIo := do
  let groups ← sb.blockGroupsCount
  let firstDescBlock := if sb.blockSize = 1024 then 2 else 1
  let bgt ← BgTable.load firstDescBlock sb.descSize (max groups 1) sb.blockSize blocks (csumMode sb)
  .ok
    { sb := sb
      bgt := { bgt with uuid := sb.uuid, csumSeed := sb.csumSeed }
      blockSize := sb.blockSize
      totalBlocks := sb.blocksCount
      blocks := blocks }

end AllocIo

end Petra.Ext4
