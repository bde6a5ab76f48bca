import Petra.Ext4.SuperBlock

/-! # Directory data

The entries of a directory block are a chain: each says where the next one starts. A search
goes through the blocks, or the whole data is parsed and the entries are searched.
-/

namespace Petra.Ext4

open Base

/-- How many bytes the head of a string takes, and whether they are a character. -/
def utf8Head (b : Bytes) : Nat × Bool :=
  let x := b.getD 0 0
  let y := b.getD 1 0
  let more (i : Nat) : Bool := 0x80 ≤ b.getD i 0 && b.getD i 0 ≤ 0xBF
  if x < 0x80 then (1, true)
  else if 0xC2 ≤ x ∧ x ≤ 0xDF then if more 1 then (2, true) else (1, false)
  else if 0xE0 ≤ x ∧ x ≤ 0xEF then
    if more 1 ∧ (x = 0xE0 → 0xA0 ≤ y) ∧ (x = 0xED → y ≤ 0x9F) then
      if more 2 then (3, true) else (2, false)
    else (1, false)
  else if 0xF0 ≤ x ∧ x ≤ 0xF4 then
    if more 1 ∧ (x = 0xF0 → 0x90 ≤ y) ∧ (x = 0xF4 → y ≤ 0x8F) then
      if more 2 then if more 3 then (4, true) else (3, false) else (2, false)
    else (1, false)
  else (1, false)

/-- What is not a character is replaced by U+FFFD. -/
def fromUtf8Lossy (b : Bytes) : Bytes := go b.length b
where
  go : Nat → Bytes → Bytes
    | 0, _ | _, [] => []
    | n + 1, b =>
      let (k, whole) := utf8Head b
      (if whole then b.take k else [0xEF, 0xBF, 0xBD]) ++ go n (b.drop k)

structure Dirent where
  ino : Nat
  name : Bytes
  recLen : Nat
  fileType : Nat
  offset : Nat
  prevOffset : Option Nat
  deriving DecidableEq, Repr

namespace Dir

def tailType : UInt8 := 0xDE

/-- Whether the fake entry with the checksum of a block is at `off`. -/
def isTail (data : Bytes) (off : Nat) : Bool :=
  off + 8 ≤ data.length && data.getD (off + 7) 0 = tailType && le32 data off = 0

def nameLen (data : Bytes) (off : Nat) : Nat := (data.getD (off + 6) 0).toNat

def fileType (data : Bytes) (off : Nat) : Nat := (data.getD (off + 7) 0).toNat

theorem lt_blockEnd {blockSize : Nat} (h : blockSize ≠ 0) (off : Nat) :
    off < (off / blockSize + 1) * blockSize := by
  rw [Nat.mul_comm]
  exact Nat.lt_mul_div_succ off (Nat.pos_of_ne_zero h)

/-- The entries from `off` on. The name of an entry is cut off at its end, and a slice that does
not lie in the data panics. -/
def parseFrom (data : Bytes) (blockSize off : Nat) (prev : Option Nat) :
    Except Panic (List Dirent) :=
  if hin : off + 8 ≤ data.length then
    if hsize : blockSize = 0 then .error .assertion
    else
      let prev := if off % blockSize = 0 then none else prev
      let blockEnd := (off / blockSize + 1) * blockSize
      let recLen := le16 data (off + 4)
      if isTail data off then parseFrom data blockSize blockEnd none
      else if hrec : recLen < 8 ∨ blockEnd < off + recLen then parseFrom data blockSize blockEnd none
      else
        let stop := min (off + 8 + nameLen data off) (off + recLen)
        if data.length < stop then .error .assertion
        else do
          let rest ← parseFrom data blockSize (off + recLen) (some off)
          pure (⟨le32 data off, fromUtf8Lossy (slice data (off + 8) (stop - (off + 8))), recLen,
            fileType data off, off, prev⟩ :: rest)
  else .ok []
termination_by data.length - off
decreasing_by
  · have := lt_blockEnd hsize off
    omega
  · have := lt_blockEnd hsize off
    omega
  · omega

def parseAll (data : Bytes) (blockSize : Nat) : Except Panic (List Dirent) :=
  parseFrom data blockSize 0 none

def find (entries : List Dirent) (name : Bytes) : Option (Nat × Nat) :=
  (entries.find? fun e => e.ino ≠ 0 ∧ e.name = name).map fun e => (e.ino, e.fileType)

/-- Search a block from `off` on. -/
def findFrom (block name : Bytes) (off : Nat) : Option (Nat × Nat) :=
  let recLen := le16 block (off + 4)
  if _h : off + 8 ≤ block.length ∧ ¬isTail block off ∧ 8 ≤ recLen ∧ off + recLen ≤ block.length then
    if le32 block off ≠ 0 ∧ nameLen block off = name.length ∧
        off + 8 + nameLen block off ≤ block.length ∧
        slice block (off + 8) (nameLen block off) = name then
      some (le32 block off, fileType block off)
    else findFrom block name (off + recLen)
  else none
termination_by block.length - off
decreasing_by omega

def findInBlock (block name : Bytes) : Option (Nat × Nat) := findFrom block name 0

/-- The block with number `i`. The last one may be shorter. -/
def blockOf (data : Bytes) (blockSize i : Nat) : Bytes := slice data (i * blockSize) blockSize

def findInData (data : Bytes) (blockSize : Nat) (name : Bytes) : Option (Nat × Nat) :=
  (List.range ((data.length + blockSize - 1) / blockSize)).findSome? fun i =>
    findInBlock (blockOf data blockSize i) name

end Dir

end Petra.Ext4
