import Petra.Base.Fields
import Petra.Crypto.Crc
import Petra.Kernel

/-! # The superblock

The fields are decoded once. A change to a counter is made to the decoded field and to the
raw image, and the image's checksum is renewed.
-/

namespace Petra.Ext4

open Base Crypto

def le16 (b : Bytes) (off : Nat) : Nat := leAt b off 2

def le32 (b : Bytes) (off : Nat) : Nat := leAt b off 4

/-- A number of which the high half, of the bits from `w` on, is stored apart. -/
def joinHalves (w lo hi : Nat) : Nat := lo + 2 ^ w * hi

theorem joinHalves_split (w n : Nat) : joinHalves w (n % 2 ^ w) (n / 2 ^ w) = n :=
  Nat.mod_add_div n (2 ^ w)

def superMagic : Nat := 0xEF53

namespace incompat

def journalDev : Nat := 0x8
def metaBg : Nat := 0x10
def b64 : Nat := 0x80
def csumSeed : Nat := 0x2000
def inlineData : Nat := 0x8000
def encrypt : Nat := 0x10000

end incompat

namespace rocompat

def gdtCsum : Nat := 0x10
def bigalloc : Nat := 0x200
def metadataCsum : Nat := 0x400
def readonly : Nat := 0x1000
def project : Nat := 0x2000

end rocompat

/-- Whether a feature word has one of the given bits. -/
def hasAny (features bits : Nat) : Bool := features &&& bits != 0

structure SuperBlock where
  raw : Bytes
  inodesCount : Nat
  blocksCountLo : Nat
  freeBlocksLo : Nat
  freeInodesCount : Nat
  firstDataBlock : Nat
  logBlockSize : Nat
  blocksPerGroup : Nat
  inodesPerGroup : Nat
  inodeSize : Nat
  featureIncompat : Nat
  featureRoCompat : Nat
  uuid : Bytes
  descSize : Nat
  blocksCountHi : Nat
  freeBlocksHi : Nat
  checksumSeed : Nat

namespace SuperBlock

/-- The size of a group descriptor. Only filesystems with one of three features store it. -/
def parseDescSize (buf : Bytes) : Nat :=
  if hasAny (le32 buf 96) incompat.metaBg || hasAny (le32 buf 100) rocompat.metadataCsum ||
      hasAny (le32 buf 96) incompat.b64 then
    if le16 buf 254 = 0 then 32 else le16 buf 254
  else 32

def decode (buf : Bytes) : SuperBlock where
  raw := buf
  inodesCount := le32 buf 0
  blocksCountLo := le32 buf 4
  freeBlocksLo := le32 buf 12
  freeInodesCount := le32 buf 16
  firstDataBlock := le32 buf 20
  logBlockSize := le32 buf 24
  blocksPerGroup := le32 buf 32
  inodesPerGroup := le32 buf 40
  inodeSize := if 1 ≤ le32 buf 76 then le16 buf 88 else 128
  featureIncompat := le32 buf 96
  featureRoCompat := le32 buf 100
  uuid := slice buf 104 16
  descSize := parseDescSize buf
  blocksCountHi := le32 buf 336
  freeBlocksHi := le32 buf 344
  checksumSeed := le32 buf 560

def fatalIncompat : Nat :=
  incompat.journalDev ||| incompat.inlineData ||| incompat.encrypt ||| incompat.metaBg

def fatalRocompat : Nat := rocompat.bigalloc ||| rocompat.readonly ||| rocompat.project

def validate (sb : SuperBlock) : Except Errno Unit :=
  if hasAny sb.featureIncompat fatalIncompat || hasAny sb.featureRoCompat fatalRocompat then
    .error .EINVAL
  else if 3 < sb.logBlockSize then .error .EINVAL
  else if sb.inodeSize < 128 then .error .EINVAL
  else .ok ()

def parse (buf : Bytes) : Except Errno SuperBlock :=
  if buf.length < 1024 then .error .EINVAL
  else if le16 buf 56 ≠ superMagic then .error .EINVAL
  else do
    (decode buf).validate
    .ok (decode buf)

variable (sb : SuperBlock)

def blockSize : Nat := 1024 <<< sb.logBlockSize

def blocksCount : Nat := joinHalves 32 sb.blocksCountLo sb.blocksCountHi

def freeBlocksCount : Nat := joinHalves 32 sb.freeBlocksLo sb.freeBlocksHi

def blockGroupsCount : Except Panic Nat :=
  if sb.blocksCount < sb.firstDataBlock then .error .overflow
  else if sb.blocksPerGroup = 0 then .ok 1
  else .ok ((sb.blocksCount - sb.firstDataBlock + sb.blocksPerGroup - 1) / sb.blocksPerGroup)

def hasMetadataCsum : Bool := hasAny sb.featureRoCompat rocompat.metadataCsum

def has64bit : Bool := hasAny sb.featureIncompat incompat.b64

def csumSeed : UInt32 :=
  if hasAny sb.featureIncompat incompat.csumSeed ∧ sb.checksumSeed ≠ 0 then
    UInt32.ofNat sb.checksumSeed
  else crc32c 0xFFFFFFFF sb.uuid

def recomputeSbChecksum : SuperBlock :=
  if sb.hasMetadataCsum then
    { sb with raw := putLe sb.raw 1020 4 (crc32c sb.csumSeed (slice sb.raw 0 1020)).toNat }
  else sb

def patchFreeInodes (v : Nat) : SuperBlock :=
  recomputeSbChecksum { sb with freeInodesCount := v, raw := putLe sb.raw 16 4 v }

def patchFreeBlocks (v : Nat) : SuperBlock :=
  recomputeSbChecksum
    { sb with
      freeBlocksLo := v % 2 ^ 32
      freeBlocksHi := v / 2 ^ 32 % 2 ^ 32
      raw := putLe (putLe sb.raw 12 4 (v % 2 ^ 32)) 344 4 (v / 2 ^ 32 % 2 ^ 32) }

/-! ### What a change of a counter leaves alone -/

/-- The geometry and the features are the same. -/
structure SameLayout (sb sb' : SuperBlock) : Prop where
  firstDataBlock : sb'.firstDataBlock = sb.firstDataBlock
  blocksPerGroup : sb'.blocksPerGroup = sb.blocksPerGroup
  inodesPerGroup : sb'.inodesPerGroup = sb.inodesPerGroup
  blocksCount : sb'.blocksCount = sb.blocksCount
  descSize : sb'.descSize = sb.descSize

/-- The checksum is part of the raw image alone. -/
theorem recomputeSbChecksum_eq : ∃ raw, sb.recomputeSbChecksum = { sb with raw := raw } := by
  unfold recomputeSbChecksum
  split
  · exact ⟨_, rfl⟩
  · exact ⟨sb.raw, rfl⟩

theorem patchFreeBlocks_eq (v : Nat) : ∃ raw, sb.patchFreeBlocks v =
      { sb with raw := raw, freeBlocksLo := v % 2 ^ 32, freeBlocksHi := v / 2 ^ 32 % 2 ^ 32 } :=
  recomputeSbChecksum_eq _

theorem sameLayout_patchFreeBlocks (v : Nat) : SameLayout sb (sb.patchFreeBlocks v) := by
  obtain ⟨raw, hraw⟩ := patchFreeBlocks_eq sb v
  rw [hraw]
  exact ⟨rfl, rfl, rfl, rfl, rfl⟩

variable {sb}

theorem freeBlocksCount_patchFreeBlocks {v : Nat} (h : v < 2 ^ 64) :
    (sb.patchFreeBlocks v).freeBlocksCount = v := by
  obtain ⟨raw, hraw⟩ := patchFreeBlocks_eq sb v
  rw [hraw]
  change joinHalves 32 (v % 2 ^ 32) (v / 2 ^ 32 % 2 ^ 32) = v
  rw [Nat.mod_eq_of_lt (a := v / 2 ^ 32) (by omega), joinHalves_split]

/-- What is accepted was decoded from the buffer, and has blocks of at most 8192 bytes. -/
theorem parse_eq_ok {buf : Bytes} (h : parse buf = .ok sb) :
    sb = decode buf ∧ sb.blockSize ≤ 8192 := by
  unfold parse at h
  split_ifs at h with hlen hmagic
  obtain ⟨_, hvalid, hsb⟩ := ok_of_bind h
  cases hsb
  refine ⟨rfl, ?_⟩
  unfold validate at hvalid
  split_ifs at hvalid with hfeatures hlog
  rw [blockSize]
  have hpow : 2 ^ (decode buf).logBlockSize ≤ 2 ^ 3 := Nat.pow_le_pow_right (by omega) (by omega)
  omega

theorem parse_of_valid (buf : Bytes) (hlen : ¬ buf.length < 1024) (hmagic : le16 buf 56 = superMagic)
    (hvalid : (decode buf).validate = .ok ()) : parse buf = .ok (decode buf) := by
  unfold parse
  rw [if_neg hlen, if_neg (not_not.mpr hmagic), hvalid]
  rfl

end SuperBlock

end Petra.Ext4
