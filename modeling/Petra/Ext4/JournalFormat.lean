import Petra.Ext4.Journal

/-! # What a journal holds

The log is a ring of blocks. It holds transactions, each made of descriptor blocks with the
data they describe and of revoke blocks, closed by a commit block. Recovery has to write, to
each block of the filesystem, the data of the last transaction that logged it, unless that
transaction or a later one revoked the block.
-/

namespace Petra.Ext4.Journal

open Base

/-! ### Transactions and what they mean -/

/-- A part of a transaction. -/
inductive Record
  | data (writes : List (Nat × Bytes))
  | revoke (blocks : List Nat)

abbrev Transaction := List Record

/-- The blocks a transaction logs, with their data. -/
def logged (tx : Transaction) : List (Nat × Bytes) :=
  tx.flatMap fun
    | .data writes => writes
    | .revoke _ => []

def revoked (tx : Transaction) : List Nat :=
  tx.flatMap fun
    | .data _ => []
    | .revoke blocks => blocks

/-- What a sequence of writes leaves in a block. -/
def lastWrite (writes : List (Nat × Bytes)) (b : Nat) : Option Bytes :=
  (writes.reverse.find? (fun w => w.1 = b)).map Prod.snd

/-- The last transaction that logged the block, as the data it logged and the transactions
from there on. -/
def lastLogged : List Transaction → Nat → Option (Bytes × List Transaction)
  | [], _ => none
  | tx :: txs, b =>
    match lastLogged txs b with
    | some found => some found
    | none => (lastWrite (logged tx) b).map fun data => (data, tx :: txs)

/-- The data that recovery has to write to a block. -/
def recovered (txs : List Transaction) (b : Nat) : Option Bytes :=
  match lastLogged txs b with
  | none => none
  | some (data, later) => if ∃ tx ∈ later, b ∈ revoked tx then none else some data

/-- The writes leave in every block what has to be recovered, and none is of a transaction
after or in which the block is revoked. -/
structure Recovers (txs : List Transaction) (writes : List (Nat × Bytes)) : Prop where
  contents : ∀ b, lastWrite writes b = recovered txs b
  unrevoked : ∀ w ∈ writes, ∃ earlier tx later, txs = earlier ++ tx :: later ∧ w ∈ logged tx ∧
    ∀ tx' ∈ tx :: later, w.1 ∉ revoked tx'

/-! ### Blocks of the log -/

/-- A journal block of a type, of the transaction with a sequence number. -/
def IsHeader (buf : Bytes) (type seq : Nat) : Prop :=
  slice buf 0 4 = magic ∧ be32 buf 4 = type ∧ be32 buf 8 = seq
deriving Decidable

def tagFlags (csumV3 : Bool) (hdr : Bytes) (pos : Nat) : Nat :=
  if csumV3 then be32 hdr (pos + 4) else be16 hdr (pos + 6)

def tagTarget (b64 : Bool) (hdr : Bytes) (pos : Nat) : Nat :=
  joinHalves 32 (be32 hdr pos) (if b64 then be32 hdr (pos + 8) else 0)

/-- A tag is followed by a UUID unless it is the one of the tag before. -/
def tagSize (csumV3 b64 : Bool) (flags : Nat) : Nat :=
  (if csumV3 then 16 else if b64 then 12 else 8) + if hasAny flags tagf.sameUuid then 0 else 16

section Format

variable (csumV3 b64 : Bool)

/-- The tags of a descriptor block from `pos` on, as targets and flags. -/
inductive Tags (hdr : Bytes) : (pos : Nat) → (tags : List (Nat × Nat)) → Prop
  | last {pos : Nat} (hfits : pos + tagSize csumV3 b64 (tagFlags csumV3 hdr pos) ≤ hdr.length)
      (hlast : hasAny (tagFlags csumV3 hdr pos) tagf.last = true) :
      Tags hdr pos [(tagTarget b64 hdr pos, tagFlags csumV3 hdr pos)]
  | more {pos : Nat} {tags : List (Nat × Nat)}
      (hfits : pos + tagSize csumV3 b64 (tagFlags csumV3 hdr pos) ≤ hdr.length)
      (hlast : hasAny (tagFlags csumV3 hdr pos) tagf.last = false)
      (hrest : Tags hdr (pos + tagSize csumV3 b64 (tagFlags csumV3 hdr pos)) tags) :
      Tags hdr pos ((tagTarget b64 hdr pos, tagFlags csumV3 hdr pos) :: tags)

/-- The data of a tag, from the block stored in the journal. A block that starts like a
journal block is stored with other bytes there. -/
def contents (tag : Nat × Nat) (stored : Bytes) : Nat × Bytes :=
  (tag.1, if hasAny tag.2 tagf.escape then patch stored 0 magic else stored)

/-- The blocks of a revoke block. The count is of bytes, the header's included. -/
def revokeList (hdr : Bytes) : List Nat :=
  let width := if b64 then 8 else 4
  (List.range ((be32 hdr 12 - 16) / width)).map fun i => beAt hdr (16 + i * width) width

inductive RecordBlocks (seq : Nat) : Record → List Bytes → Prop
  | data {hdr : Bytes} {tags : List (Nat × Nat)} {stored : List Bytes}
      (hhdr : IsHeader hdr bt.descriptor seq) (htags : Tags csumV3 b64 hdr 12 tags)
      (hlen : stored.length = tags.length) :
      RecordBlocks seq (.data (List.zipWith contents tags stored)) (hdr :: stored)
  | revoke {hdr : Bytes} (hhdr : IsHeader hdr bt.revoke seq) :
      RecordBlocks seq (.revoke (revokeList b64 hdr)) [hdr]

/-- The blocks of a transaction, the commit block last. -/
inductive TxBlocks (seq : Nat) : Transaction → List Bytes → Prop
  | commit {hdr : Bytes} (hhdr : IsHeader hdr bt.commit seq) : TxBlocks seq [] [hdr]
  | record {r : Record} {tx : Transaction} {blocks blocks' : List Bytes}
      (hrecord : RecordBlocks csumV3 b64 seq r blocks) (hrest : TxBlocks seq tx blocks') :
      TxBlocks seq (r :: tx) (blocks ++ blocks')

/-- The blocks of transactions with consecutive sequence numbers. -/
inductive LogBlocks : (seq : Nat) → List Transaction → List Bytes → Prop
  | nil {seq : Nat} : LogBlocks seq [] []
  | cons {seq : Nat} {tx : Transaction} {txs : List Transaction} {blocks blocks' : List Bytes}
      (htx : TxBlocks csumV3 b64 seq tx blocks)
      (hrest : LogBlocks ((seq + 1) % 2 ^ 32) txs blocks') :
      LogBlocks seq (tx :: txs) (blocks ++ blocks')

end Format

/-! ### Journals -/

def JournalSb.csumV3 (jsb : JournalSb) : Bool := hasAny jsb.featureIncompat jfeat.csumV3

def JournalSb.b64 (jsb : JournalSb) : Bool := hasAny jsb.featureIncompat jfeat.b64

/-- The blocks of the log in order, from its start once around. -/
def ring (jsb : JournalSb) (log : Nat → Bytes) : List Bytes :=
  (List.range (jsb.maxlen - jsb.first)).map fun i =>
    log (jsb.first + (jsb.start - jsb.first + i) % (jsb.maxlen - jsb.first))

/-- The sequence number after that of the last transaction. -/
def nextSeq (jsb : JournalSb) (txs : List Transaction) : Nat :=
  (jsb.sequence + txs.length) % 2 ^ 32

/-- The journal with the blocks `log` holds exactly the committed transactions `txs`, in the
blocks `committed`. What follows them, in the blocks `tail`, is not a transaction. -/
structure Holds (log : Nat → Bytes) (blockSize : Nat) (jsb : JournalSb) (txs : List Transaction)
    (committed tail : List Bytes) : Prop where
  sized : ∀ b, (log b).length = blockSize
  blockSize_ge : 1024 ≤ blockSize
  parsed : JournalSb.parse (log 0) = .ok jsb
  magicOk : jsb.magicOk = true
  isSuperblock : jsb.blockType = bt.superblockV1 ∨ jsb.blockType = bt.superblockV2
  first_pos : 0 < jsb.first
  first_le : jsb.first ≤ jsb.start
  start_lt : jsb.start < jsb.maxlen
  around : ring jsb log = committed ++ tail
  encodes : LogBlocks jsb.csumV3 jsb.b64 jsb.sequence txs committed
  uncommitted : ∀ tx blocks rest, tail = blocks ++ rest →
    ¬ TxBlocks jsb.csumV3 jsb.b64 (nextSeq jsb txs) tx blocks

end Petra.Ext4.Journal
