import Petra.Ext4.AllocatorRuns

/-! # Finding descriptors and inodes

The superblock of an untrusted disk gives the sizes and counts that locate everything else. They
are divisors, strides and offsets, and few of them are checked.
-/

namespace Petra.Ext4

open Base Nat SuperBlock BgTable

namespace SuperBlock

/-- The groups can be counted, and each descriptor lies in one block of the table. -/
structure Laid (sb : SuperBlock) : Prop where
  first_le : sb.firstDataBlock ≤ sb.blocksCount
  descSize_le : sb.descSize ≤ sb.blockSize
  fits : ∀ groups, sb.blockGroupsCount = .ok groups → ∀ g < max groups 1,
    g * sb.descSize % sb.blockSize + sb.descSize ≤ sb.blockSize

variable {sb : SuperBlock}

theorem descSize_pos {buf : Bytes} (h : parse buf = .ok sb) : 0 < sb.descSize := by
  obtain ⟨rfl, _⟩ := parse_eq_ok h
  change 0 < parseDescSize buf
  unfold parseDescSize
  split_ifs <;> omega

end SuperBlock

namespace AllocIo

variable {sb : SuperBlock} {io : AllocIo} {blocks : Nat → Bytes} {α : Type} {dev ino : Nat}

/-- What the number of a block is multiplied by on a device with blocks of `dev` bytes. -/
def scale (io : AllocIo) (dev : Nat) : Nat :=
  if io.blockSize % dev = 0 then io.blockSize / dev else io.blockSize

/-- `read_fs_blocks` from a device that never fails. -/
def readFsBlock (dev blk : Nat) : AllocCall Bytes := do
  let io ← Call.get
  let _ ← Call.orAbort (mulUsize blk (io.scale dev))
  readBlock blk

/-- Up to the bytes of the inode, when no cache has its block. -/
def readInode (dev ino : Nat) : AllocCall Bytes := do
  let io ← Call.get
  let ipg := max io.sb.inodesPerGroup 1
  Call.check (ino ≠ 0 ∧ ino ≤ io.sb.inodesCount) .EINVAL
  Call.check ((ino - 1) / ipg < io.bgt.count) .EINVAL
  let d ← onTable (BgTable.desc ((ino - 1) / ipg))
  let rel := (ino - 1) % ipg * io.sb.inodeSize
  let phys ← Call.orAbort (addUsize d.inodeTable (rel / io.blockSize))
  let blk ← readFsBlock dev phys
  Call.assert (rel % io.blockSize + io.sb.inodeSize ≤ blk.length) .assertion
  Call.check (128 ≤ io.sb.inodeSize) .EINVAL
  pure (slice blk (rel % io.blockSize) io.sb.inodeSize)

/-- Where `free_inode` clears a bit. -/
def locateBit (dev ino : Nat) : AllocCall (Nat × BgDesc × Bytes × Nat) := do
  let io ← Call.get
  Call.assert (ino ≠ 0) .overflow
  Call.assert (io.sb.inodesPerGroup ≠ 0) .assertion
  let g := (ino - 1) / io.sb.inodesPerGroup
  let bit := (ino - 1) % io.sb.inodesPerGroup
  let d ← onTable (BgTable.desc g)
  let bm ← readFsBlock dev d.inodeBitmap
  Call.assert (bit / 8 < bm.length) .assertion
  pure (g, d, bm, bit)

/-- The inode lies in one block, the number of which can be computed. -/
def InodeFits (io : AllocIo) (dev ino : Nat) : Prop :=
  let ipg := max io.sb.inodesPerGroup 1
  let rel := (ino - 1) % ipg * io.sb.inodeSize
  let phys := (io.bgt.descAt ((ino - 1) / ipg)).inodeTable + rel / io.blockSize
  (ino - 1) / ipg < io.bgt.count → phys < usizeLimit ∧ phys * io.scale dev < usizeLimit ∧
    rel % io.blockSize + io.sb.inodeSize ≤ io.blockSize
deriving Decidable

/-- The bit of the inode lies in a bitmap, the place of which can be computed. -/
def BitFits (io : AllocIo) (dev ino : Nat) : Prop :=
  let ipg := io.sb.inodesPerGroup
  ipg ≠ 0 ∧ ((ino - 1) / ipg < io.bgt.count →
    (io.bgt.descAt ((ino - 1) / ipg)).inodeBitmap * io.scale dev < usizeLimit ∧
      (ino - 1) % ipg / 8 < io.blockSize)
deriving Decidable

theorem exists_addUsize {a b : Nat} {P : Nat → Prop} :
    (∃ c, addUsize a b = .ok c ∧ P c) ↔ a + b < usizeLimit ∧ P (a + b) := by
  unfold addUsize
  split_ifs with h <;> simp [h]

theorem exists_mulUsize {a b : Nat} {P : Prop} :
    (∃ c, mulUsize a b = .ok c ∧ P) ↔ a * b < usizeLimit ∧ P := by
  unfold mulUsize
  split_ifs with h <;> simp [h]

@[simp] theorem returns_readFsBlock {f : Bytes → AllocCall α} {blk : Nat} :
    (readFsBlock dev blk >>= f).Returns io ↔
      blk * io.scale dev < usizeLimit ∧ (f (io.blocks blk)).Returns io := by
  rw [readFsBlock, Call.bind_assoc, Call.returns_get_bind, Call.bind_assoc,
    Call.returns_orAbort_bind]
  exact exists_mulUsize

theorem mount_iff (hpos : 0 < sb.descSize) : (∃ io, mount sb blocks = .ok io) ↔
    sb.firstDataBlock ≤ sb.blocksCount ∧ sb.descSize ≤ sb.blockSize := by
  have hper : sb.blockSize / sb.descSize = 0 ↔ ¬ sb.descSize ≤ sb.blockSize := by
    rw [Nat.div_eq_zero_iff]
    omega
  constructor
  · rintro ⟨io, hmount⟩
    obtain ⟨groups, hgroups, hrest⟩ := ok_of_bind hmount
    obtain ⟨t, hload, -⟩ := ok_of_bind hrest
    constructor
    · by_contra hlt
      rw [blockGroupsCount, if_pos (not_le.mp hlt)] at hgroups
      cases hgroups
    · by_contra hlarge
      simp [load, hper.mpr hlarge] at hload
  · rintro ⟨hfirst, hle⟩
    obtain ⟨groups, hgroups⟩ : ∃ groups, sb.blockGroupsCount = .ok groups := by
      unfold blockGroupsCount
      rw [if_neg (not_lt.mpr hfirst)]
      split_ifs <;> exact ⟨_, rfl⟩
    unfold mount load
    rw [hgroups]
    simp only [if_neg (hper.not.mpr (not_not.mpr hle))]
    exact ⟨_, rfl⟩

section Mounted

variable (hmount : mount sb blocks = .ok io) (hsized : ∀ b, (blocks b).length = sb.blockSize)

include hmount

theorem of_mount : io.sb = sb ∧ io.blockSize = sb.blockSize ∧ io.blocks = blocks ∧
    ∃ groups, sb.blockGroupsCount = .ok groups ∧ io.bgt.count = max groups 1 := by
  obtain ⟨groups, hgroups, hrest⟩ := ok_of_bind hmount
  obtain ⟨t, hload, hio⟩ := ok_of_bind hrest
  cases hio
  exact ⟨rfl, rfl, rfl, groups, hgroups, (load_eq_ok hload).2⟩

include hsized

/-- A descriptor is found if it ends in its block. -/
theorem slot_of_mount (hpos : 0 < sb.descSize) {g : Nat} (hg : g < io.bgt.count) : io.bgt.slot g =
    if g * sb.descSize % sb.blockSize + sb.descSize ≤ sb.blockSize then
      .ok (io.bgt.blockOf g, io.bgt.offsetOf g) else .error .assertion := by
  obtain ⟨groups, _, hrest⟩ := ok_of_bind hmount
  obtain ⟨t, hload, hio⟩ := ok_of_bind hrest
  obtain ⟨hdesc, hcount⟩ := load_eq_ok hload
  obtain ⟨hper, huniform, hblocks⟩ := load_blocks hload hsized hpos
  cases hio
  have hslot := slot_eq_ite huniform (hblocks g (hcount ▸ hg))
  rw [hdesc, hper] at hslot
  have hoff : t.offsetOf g = g * sb.descSize % sb.blockSize := by rw [offsetOf, hper, hdesc]
  rw [← hoff]
  exact hslot

end Mounted

section Found

variable (hslot : ∀ g < io.bgt.count, io.bgt.slot g = .ok (io.bgt.blockOf g, io.bgt.offsetOf g))

include hslot

theorem returns_desc {f : BgDesc → AllocCall α} (g : Nat) : (onTable (desc g) >>= f).Returns io ↔
    (g < io.bgt.count → (f (io.bgt.descAt g)).Returns io) := by
  by_cases hg : g < io.bgt.count
  · have hrun : onTable (desc g) io = .ok (.ok (io.bgt.descAt g), io) := by
      rw [onTable, desc_of_slot hg (hslot g hg)]
    rw [Call.Returns, Call.run_bind hrun]
    exact ⟨fun h _ => h, fun h => h hg⟩
  · have hrun : onTable (desc g) io = .ok (.error .EINVAL, io) := by
      simp [onTable, desc, bind, Call.bind, Call.get, Call.check, Call.fail, hg]
    exact iff_of_true ⟨_, Call.run_bind_error hrun⟩ fun h => absurd h hg

theorem returns_readInode (hsized : ∀ b, (io.blocks b).length = io.blockSize)
    (hlow : 1 ≤ ino) (hhigh : ino ≤ io.sb.inodesCount) :
    (readInode dev ino).Returns io ↔ io.InodeFits dev ino := by
  have hino : ino ≠ 0 := by omega
  simp [readInode, InodeFits, returns_desc hslot, exists_addUsize, hsized, hino, hhigh]

theorem returns_locateBit (hsized : ∀ b, (io.blocks b).length = io.blockSize) (hlow : 1 ≤ ino) :
    (locateBit dev ino).Returns io ↔ io.BitFits dev ino := by
  have hino : ino ≠ 0 := by omega
  simp [locateBit, BitFits, returns_desc hslot, hsized, hino]

end Found

/-- Two groups of sixteen inodes of 128 bytes. -/
def twoTables : Bytes := putFields twoGroups [⟨0, 4, 32⟩]

end AllocIo

end Petra.Ext4
