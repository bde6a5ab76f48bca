import Petra.Ext4.SuperBlock

/-! # Replaying the journal

At mount time the log is read from its start. Every transaction that looks committed is
collected, and then the data of all of them are written, oldest first.
-/

namespace Petra.Ext4.Journal

open Base Errno

def magic : Bytes := [0xC0, 0x3B, 0x39, 0x98]

def be16 (b : Bytes) (off : Nat) : Nat := beAt b off 2

def be32 (b : Bytes) (off : Nat) : Nat := beAt b off 4

namespace bt

def descriptor : Nat := 1
def commit : Nat := 2
def superblockV1 : Nat := 3
def superblockV2 : Nat := 4
def revoke : Nat := 5

end bt

namespace jfeat

def b64 : Nat := 0x2
def csumV3 : Nat := 0x10

end jfeat

namespace tagf

def escape : Nat := 0x1
def sameUuid : Nat := 0x2
def last : Nat := 0x8

end tagf

/-- Put back the first bytes of a data block that looked like a journal block. -/
def unescape (buf : Bytes) : Bytes := if 4 ≤ buf.length then patch buf 0 magic else buf

structure JournalSb where
  magicOk : Bool
  blockType : Nat
  maxlen : Nat
  first : Nat
  sequence : Nat
  start : Nat
  featureIncompat : Nat
  deriving DecidableEq

def JournalSb.parse (buf : Bytes) : Except Errno JournalSb :=
  if buf.length < 1024 then .error .EINVAL
  else
    .ok
      { magicOk := slice buf 0 4 = magic
        blockType := be32 buf 4
        maxlen := be32 buf 0x10
        first := be32 buf 0x14
        sequence := be32 buf 0x18
        start := be32 buf 0x1C
        featureIncompat := be32 buf 0x28 }

/-- A transaction that was found in the log. -/
structure Tx where
  sequence : Nat
  writes : List (Nat × Bytes)
  revokes : List Nat

/-! ### Tags -/

/-- The fields of a tag that takes `size` bytes without its UUID: the block it is about, its
flags, and its size. -/
def withUuid (hdr : Bytes) (pos target flags size : Nat) : Except Errno (Nat × Nat × Nat) :=
  if hasAny flags tagf.sameUuid then .ok (target, flags, size)
  else if hdr.length < pos + size + 16 then .error EIO
  else .ok (target, flags, size + 16)

def parseTag (hdr : Bytes) (pos : Nat) (csumV3 b64 : Bool) : Except Errno (Nat × Nat × Nat) :=
  if hdr.length < pos + 8 then .error EIO
  else if csumV3 then
    if hdr.length < pos + 16 then .error EIO
    else withUuid hdr pos (joinHalves 32 (be32 hdr pos) (if b64 then be32 hdr (pos + 8) else 0))
      (be32 hdr (pos + 4)) 16
  else if b64 then
    if hdr.length < pos + 12 then .error EIO
    else withUuid hdr pos (joinHalves 32 (be32 hdr pos) (be32 hdr (pos + 8)))
      (be16 hdr (pos + 6)) 12
  else withUuid hdr pos (be32 hdr pos) (be16 hdr (pos + 6)) 8

/-- The tags from `pos` on, up to the one marked as the last. A tag takes eight bytes or more,
so there are fewer rounds than bytes. -/
def readTags (hdr : Bytes) (csumV3 b64 : Bool) :
    (rounds pos : Nat) → Except Errno (List (Nat × Nat))
  | 0, _ => .error EIO
  | rounds + 1, pos => do
    let (target, flags, consumed) ← parseTag hdr pos csumV3 b64
    if hasAny flags tagf.last then .ok [(target, flags)]
    else do
      let tags ← readTags hdr csumV3 b64 rounds (pos + consumed)
      .ok ((target, flags) :: tags)

/-! ### Transactions -/

section Scan

variable (readJournalBlock : Nat → Except Errno Bytes) (maxlength : Nat)

/-- Follow the tags through the data blocks. The search stops where it comes back to the
descriptor. -/
def readData (cur : Nat) : (tags : List (Nat × Nat)) → (jcur : Nat) →
    Except Errno (List (Nat × Bytes) × Nat × Bool)
  | [], jcur => .ok ([], jcur, false)
  | (target, flags) :: tags, jcur => do
    let data ← readJournalBlock jcur
    let data := if hasAny flags tagf.escape then unescape data else data
    let next := (jcur + 1) % maxlength
    if next = cur then .ok ([(target, data)], next, true)
    else do
      let (writes, jcur, done) ← readData cur tags next
      .ok ((target, data) :: writes, jcur, done)

/-- Whether the journal block is of a type. -/
def isBlock (buf : Bytes) : Bool := 12 ≤ buf.length ∧ slice buf 0 4 = magic

def isCommit (buf : Bytes) (seq : Nat) : Bool :=
  isBlock buf ∧ be32 buf 4 = bt.commit ∧ be32 buf 8 = seq

/-- A descriptor block and what follows it, if that is a committed transaction: its data, and
where its commit block is. -/
def readTransaction (csumV3 b64 : Bool) (hdr : Bytes) (cur seq : Nat) :
    Except Errno (Option (List (Nat × Bytes) × Nat)) := do
  let tags ← readTags hdr csumV3 b64 hdr.length 12
  let (writes, jcur, done) ← readData readJournalBlock maxlength cur tags ((cur + 1) % maxlength)
  if done then .ok none
  else do
    let cb ← readJournalBlock jcur
    .ok (if isCommit cb seq then some (writes, jcur) else none)

/-- The blocks listed in a revoke block. -/
def readRevokes (hdr : Bytes) (width stop : Nat) : (rounds off : Nat) → List Nat
  | 0, _ => []
  | rounds + 1, off =>
    if off + width ≤ stop then
      beAt hdr off width :: readRevokes hdr width stop rounds (off + width)
    else []

/-- The transactions of the log, from block `cur` and sequence number `expected` on. -/
def scan (csumV3 b64 : Bool) (fsBlockSize : Nat) :
    (steps cur expected : Nat) → Except Errno (List Tx)
  | 0, _, _ => .ok []
  | steps + 1, cur, expected => do
    let hdr ← readJournalBlock cur
    if isBlock hdr = false ∨ be32 hdr 8 ≠ expected then .ok []
    else if be32 hdr 4 = bt.descriptor then do
      match ← readTransaction readJournalBlock maxlength csumV3 b64 hdr cur expected with
      | none => .ok []
      | some (writes, jcur) => do
        let txs ← scan csumV3 b64 fsBlockSize steps ((jcur + 1) % maxlength)
          ((expected + 1) % 2 ^ 32)
        .ok (⟨expected, writes, []⟩ :: txs)
    else if be32 hdr 4 = bt.revoke then do
      -- A revoke block counts as a transaction of its own.
      let stop := min (16 + be32 hdr 12) fsBlockSize
      let revoked := readRevokes hdr (if b64 then 8 else 4) stop stop 16
      let txs ← scan csumV3 b64 fsBlockSize steps ((cur + 1) % maxlength)
        ((expected + 1) % 2 ^ 32)
      .ok (⟨expected, [], revoked⟩ :: txs)
    else .ok []

end Scan

/-! ### Replay -/

/-- Write the data of a transaction. The revoked blocks are kept in a list, from which a
write removes its block. -/
def applyWrites : (revoked : List Nat) → List (Nat × Bytes) → List Nat × List (Nat × Bytes)
  | revoked, [] => (revoked, [])
  | revoked, (target, data) :: writes =>
    let revoked := if target ∈ revoked then revoked.filter (· ≠ target) else revoked
    let (revoked, done) := applyWrites revoked writes
    (revoked, (target, data) :: done)

def applyTxs : (revoked : List Nat) → List Tx → List (Nat × Bytes)
  | _, [] => []
  | revoked, tx :: txs =>
    let (revoked, done) := applyWrites revoked tx.writes
    done ++ applyTxs (revoked ++ tx.revokes) txs

/-- The blocks that replay writes, in order, and whether there was anything to replay. The
filesystem's blocks can always be written. -/
def replay (jsb : JournalSb) (readJournalBlock : Nat → Except Errno Bytes) (fsBlockSize : Nat) :
    Except Errno (Bool × List (Nat × Bytes)) :=
  if jsb.magicOk = false then .ok (false, [])
  else if jsb.start = 0 ∨ jsb.maxlen = 0 then .ok (false, [])
  else do
    let txs ← scan readJournalBlock jsb.maxlen (hasAny jsb.featureIncompat jfeat.csumV3)
      (hasAny jsb.featureIncompat jfeat.b64) fsBlockSize (jsb.maxlen + 2)
      (jsb.start % jsb.maxlen) jsb.sequence
    .ok (!txs.isEmpty, applyTxs [] txs)

end Petra.Ext4.Journal
