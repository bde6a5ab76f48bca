import Petra.Base.Run
import Petra.Ext4.Alloc

/-! # Allocated blocks -/

namespace Petra.Ext4

open Base Function List Finset Call BgTable

/-! ### Scanning finds the first clear bit -/

section Scan

variable {bm : Bytes} {x : UInt8} {i b m span : Nat}

theorem bitAt_byte (hx : bm[i]? = some x) (hb : b < 8) : bitAt bm (8 * i + b) = x.toNat.testBit b := by
  rw [bitAt, show (8 * i + b) / 8 = i by omega, show (8 * i + b) % 8 = b by omega,
    getD_eq_getElem?_getD, hx, Option.getD_some]

/-- A byte's bits are searched from `b` on, and then the next byte. -/
theorem scanByte_eq (hx : bm[i]? = some x) (hm : b + m = 8) :
    (match scanByte x i span (List.range' b m) with
      | some found => found
      | none => firstClear bm (min span (8 * bm.length)) (8 * (i + 1))) =
      firstClear bm (min span (8 * bm.length)) (8 * i + b) := by
  have hi : i < bm.length := (List.getElem?_eq_some_iff.mp hx).1
  induction m generalizing b with
  | zero =>
    rw [show b = 8 by omega]
    rfl
  | succ m ih =>
    have hbit := bitAt_byte hx (b := b) (by omega)
    rw [range'_succ, scanByte]
    by_cases hspan : span ≤ i * 8 + b
    · rw [if_pos hspan]
      exact (firstClear_of_le (by omega)).symm
    rw [if_neg hspan]
    by_cases hclear : x &&& maskOf b = 0
    · rw [if_pos hclear]
      rw [and_maskOf_eq_zero x (by omega), ← hbit] at hclear
      rw [firstClear_of_clear (by omega) hclear, Nat.mul_comm]
    · rw [if_neg hclear]
      rw [and_maskOf_eq_zero x (by omega), ← hbit, Bool.not_eq_false] at hclear
      rw [firstClear_of_set hclear]
      exact ih (by omega)

theorem firstClear_full (hx : bm[i]? = some 0xFF) (hm : b + m = 8) {n : Nat} :
    firstClear bm n (8 * (i + 1)) = firstClear bm n (8 * i + b) := by
  induction m generalizing b with
  | zero =>
    rw [show b = 8 by omega]
    rfl
  | succ m ih =>
    have hall : ∀ b < 8, (0xFF : UInt8).toNat.testBit b = true := by decide
    have hbit : bitAt bm (8 * i + b) = true := by
      rw [bitAt_byte hx (b := b) (by omega), hall b (by omega)]
    rw [firstClear_of_set hbit]
    exact ih (b := b + 1) (by omega)

theorem scanBytes_eq (hm : i + m = span / 8 + 1) :
    scanBytes bm span (range' i m) = firstClear bm (min span (8 * bm.length)) (8 * i) := by
  induction m generalizing i with
  | zero =>
    rw [firstClear_of_le (by omega)]
    rfl
  | succ m ih =>
    rw [range'_succ, scanBytes]
    cases hx : bm[i]? with
    | none =>
      have hi : bm.length ≤ i := getElem?_eq_none_iff.mp hx
      rw [firstClear_of_le (by omega)]
    | some x =>
      dsimp only
      by_cases hfull : x = 0xFF
      · subst hfull
        rw [ih (by omega)]
        exact firstClear_full hx (b := 0) (m := 8) rfl
      · rw [if_neg hfull, ih (by omega)]
        exact scanByte_eq hx (b := 0) (m := 8) rfl

theorem scanFree_eq (bm : Bytes) (span : Nat) :
    scanFree bm span = firstClear bm (min span (8 * bm.length)) 0 := by
  rw [scanFree, range_eq_range']
  exact scanBytes_eq (by omega)

end Scan

namespace AllocIo

/-! ### Groups and their blocks -/

/-- The bitmap of group `g`. -/
def bitmap (io : AllocIo) (g : Nat) : Bytes := io.blocks (io.bgt.descAt g).blockBitmap

/-- The free blocks of group `g`, as its descriptor has them. -/
def freeIn (io : AllocIo) (g : Nat) : Nat := (io.bgt.descAt g).freeBlocksCount

/-- The number of bits of group `g` that stand for a block of the group: a group has no more
blocks than there are per group, the last one may be short, and a bitmap is one block. -/
def validSpan (io : AllocIo) (g : Nat) : Nat :=
  min (min io.sb.blocksPerGroup (io.totalBlocks - (io.sb.firstDataBlock + g * io.sb.blocksPerGroup)))
    (8 * io.blockSize)

/-- The block has a bit, and the bit is set. -/
def Allocated (io : AllocIo) (b : Nat) : Prop :=
  ∃ g < io.bgt.count, ∃ i < io.validSpan g,
    b = io.blockOfBit g i ∧ bitAt (io.bitmap g) i = true

/-- The table can be read and written, and every group has a bitmap of its own. -/
structure Shape (io : AllocIo) : Prop where
  table : io.bgt.Wf
  descSize : io.sb.descSize = io.bgt.descSize
  sized : ∀ b, (io.blocks b).length = io.blockSize
  apart : ∀ g < io.bgt.count, ∀ g' < io.bgt.count,
    (io.bgt.descAt g).blockBitmap = (io.bgt.descAt g').blockBitmap → g = g'

/-- The same groups, at the same blocks. -/
structure SameGroups (io io' : AllocIo) : Prop where
  count : io'.bgt.count = io.bgt.count
  descSize : io'.bgt.descSize = io.bgt.descSize
  firstDataBlock : io'.sb.firstDataBlock = io.sb.firstDataBlock
  blocksPerGroup : io'.sb.blocksPerGroup = io.sb.blocksPerGroup
  blockSize : io'.blockSize = io.blockSize
  totalBlocks : io'.totalBlocks = io.totalBlocks

variable {io io' io'' : AllocIo} {g g' : Nat}

theorem SameGroups.refl (io : AllocIo) : SameGroups io io := ⟨rfl, rfl, rfl, rfl, rfl, rfl⟩

theorem SameGroups.trans (h : SameGroups io io') (h' : SameGroups io' io'') : SameGroups io io'' :=
  ⟨h'.1.trans h.1, h'.2.trans h.2, h'.3.trans h.3, h'.4.trans h.4, h'.5.trans h.5, h'.6.trans h.6⟩

theorem SameGroups.validSpan (h : SameGroups io io') (g : Nat) :
    io'.validSpan g = io.validSpan g := by
  simp only [AllocIo.validSpan, h.firstDataBlock, h.blocksPerGroup, h.blockSize, h.totalBlocks]

theorem SameGroups.blockOfBit (h : SameGroups io io') (g i : Nat) :
    io'.blockOfBit g i = io.blockOfBit g i := by
  simp only [AllocIo.blockOfBit, h.firstDataBlock, h.blocksPerGroup]

theorem validSpan_le_groupBlockBits (io : AllocIo) (g : Nat) :
    io.validSpan g ≤ io.groupBlockBits g := by
  unfold validSpan groupBlockBits
  dsimp only
  split_ifs with hper hend
  · omega
  · omega
  · omega

/-- A group with as many blocks as a bitmap has bits is searched to its end and no further. -/
theorem groupBlockBits_eq (h : 8 * io.blockSize ≤ io.sb.blocksPerGroup) (g : Nat) :
    io.groupBlockBits g = io.validSpan g := by
  unfold validSpan groupBlockBits
  dsimp only
  split_ifs with hper hend
  · omega
  · omega
  · omega

/-! ### Storing one group -/

/-- The bitmap and the descriptor of one group were replaced. -/
structure Stored (g : Nat) (bm : Bytes) (free : Nat) (io io' : AllocIo) : Prop where
  shape : io'.Shape
  same : SameGroups io io'
  sb : io'.sb = io.sb
  bitmap : io'.bitmap g = bm
  freeIn : io'.freeIn g = free
  others : ∀ g' < io.bgt.count, g' ≠ g →
    io'.bitmap g' = io.bitmap g' ∧ io'.freeIn g' = io.freeIn g'

theorem onTable_run {α : Type} {call : TableCall α} {a : α} {t : BgTable}
    (h : call io.bgt = .ok (.ok a, t)) : onTable call io = .ok (.ok a, { io with bgt := t }) := by
  rw [onTable, h]

theorem storeBlockBitmap_run {d : BgDesc} (hs : io.Shape) (hg : g < io.bgt.count) (bm : Bytes) :
    ∃ t, storeBlockBitmap g d bm io = .ok (.ok (),
        { io with bgt := t, blocks := update io.blocks d.blockBitmap bm }) ∧
      BgTable.OnlySlot g io.bgt t := by
  rw [storeBlockBitmap, storeBitmap, run_bind (a := ()) rfl, run_bind rfl]
  split_ifs with hcsum
  · have hlarge : 64 ≤ io.bgt.descSize := hs.descSize ▸ hcsum.1
    obtain ⟨t, hrun, honly⟩ := patchBitmapCsum_run hs.table hg
      (show 24 + 2 ≤ io.bgt.descSize by omega) (show 56 + 2 ≤ io.bgt.descSize by omega)
      (Crypto.crc32c io.sb.csumSeed bm) io.sb.has64bit
    exact ⟨t, onTable_run hrun, honly⟩
  · exact ⟨io.bgt, rfl, hs.table, rfl, rfl, fun _ _ _ => rfl⟩

variable {bm : Bytes} {free : Nat}

theorem storeGroup_run (hs : io.Shape) (hg : g < io.bgt.count)
    (hfree : free < 2 ^ width io.bgt.descSize 16) (hbm : bm.length = io.blockSize) :
    ∃ io', storeGroup g ((io.bgt.descAt g).withFreeBlocks free) bm io = .ok (.ok (), io') ∧
      Stored g bm free io io' := by
  have hfits := (fits_descAt io.bgt g).withFreeBlocks hfree
  have hplace : ((io.bgt.descAt g).withFreeBlocks free).blockBitmap =
      (io.bgt.descAt g).blockBitmap := rfl
  have hcount : ((io.bgt.descAt g).withFreeBlocks free).freeBlocksCount = free := rfl
  generalize (io.bgt.descAt g).withFreeBlocks free = d at *
  obtain ⟨t, hrun, honly⟩ := storeBlockBitmap_run (d := d) hs hg bm
  obtain ⟨d', t', hrun', honly', hdesc, sum, hd'⟩ :=
    updateDesc_run honly.wf (honly.count ▸ hg) (honly.descSize ▸ hfits)
  have hslot := honly.trans honly'
  have hothers : ∀ g' < io.bgt.count, g' ≠ g → t'.descAt g' = io.bgt.descAt g' := by
    intro g' hg' hne
    rw [descAt, descAt, hslot.others g' hg' hne, hslot.descSize]
  have hself : (t'.descAt g).blockBitmap = (io.bgt.descAt g).blockBitmap := by
    rw [hdesc, hd', ← hplace]
  have hbitmaps : ∀ g' < io.bgt.count,
      (t'.descAt g').blockBitmap = (io.bgt.descAt g').blockBitmap := by
    intro g' hg'
    by_cases hne : g' = g
    · rw [hne, hself]
    · rw [hothers g' hg' hne]
  refine ⟨{ io with bgt := t', blocks := update io.blocks d.blockBitmap bm }, ?_, ?_⟩
  · rw [storeGroup, run_bind hrun, run_bind (onTable_run hrun')]
    rfl
  constructor
  · constructor
    · exact hslot.wf
    · exact hs.descSize.trans hslot.descSize.symm
    · intro b
      by_cases hb : b = d.blockBitmap
      · subst hb
        simpa using hbm
      · simpa [update_of_ne hb] using hs.sized b
    · intro g₁ hg₁ g₂ hg₂ hsame
      rw [hslot.count] at hg₁ hg₂
      rw [hbitmaps g₁ hg₁, hbitmaps g₂ hg₂] at hsame
      exact hs.apart g₁ hg₁ g₂ hg₂ hsame
  · exact ⟨hslot.count, hslot.descSize, rfl, rfl, rfl, rfl⟩
  · rfl
  · simp [bitmap, hself, hplace]
  · simp [freeIn, hdesc, hd', hcount]
  · intro g' hg' hne
    have hother : (io.bgt.descAt g').blockBitmap ≠ d.blockBitmap := by
      rw [hplace]
      exact fun hsame => hne (hs.apart g' hg' g hg hsame)
    simp only [bitmap, freeIn, hothers g' hg' hne, update_of_ne hother, and_self]

/-! ### Bitmaps, descriptors and superblock agree -/

/-- Every descriptor counts the clear bits of its group. -/
def Counted (io : AllocIo) : Prop :=
  ∀ g < io.bgt.count, io.freeIn g = clearBits (io.bitmap g) (io.validSpan g)

/-- The free blocks of all groups. -/
def freeInGroups (io : AllocIo) : Nat := ∑ g ∈ Finset.range io.bgt.count, io.freeIn g

/-- The bitmaps agree with the descriptors, and these with the superblock. -/
structure Consistent (io : AllocIo) : Prop where
  apart : ∀ g < io.bgt.count, ∀ g' < io.bgt.count,
    (io.bgt.descAt g).blockBitmap = (io.bgt.descAt g').blockBitmap → g = g'
  counted : io.Counted
  total : io.sb.freeBlocksCount = io.freeInGroups

theorem sum_validSpan_le (io : AllocIo) (n : Nat) : ∑ g ∈ Finset.range n, io.validSpan g ≤
      min (n * io.sb.blocksPerGroup) (io.totalBlocks - io.sb.firstDataBlock) := by
  induction n with
  | zero => simp
  | succ n ih =>
    rw [Finset.sum_range_succ, Nat.succ_mul]
    have hspan : io.validSpan n ≤ min io.sb.blocksPerGroup
        (io.totalBlocks - (io.sb.firstDataBlock + n * io.sb.blocksPerGroup)) := Nat.min_le_left _ _
    omega

theorem Counted.freeInGroups_le (h : io.Counted) : io.freeInGroups ≤ io.totalBlocks := by
  have hgroups : io.freeInGroups ≤ ∑ g ∈ Finset.range io.bgt.count, io.validSpan g := by
    apply Finset.sum_le_sum
    intro g hg
    rw [h g (Finset.mem_range.mp hg)]
    exact clearBits_le _ _
  have hspans := sum_validSpan_le io io.bgt.count
  omega

/-- One group's count changed. -/
theorem Stored.freeInGroups (h : Stored g bm free io io') (hg : g < io.bgt.count) :
    io'.freeInGroups + io.freeIn g = io.freeInGroups + free := by
  have hmem : g ∈ Finset.range io.bgt.count := Finset.mem_range.mpr hg
  have hrest : ∑ g' ∈ (Finset.range io.bgt.count).erase g, io'.freeIn g' =
      ∑ g' ∈ (Finset.range io.bgt.count).erase g, io.freeIn g' := by
    apply sum_congr rfl
    intro g' hg'
    obtain ⟨hne, hin⟩ := mem_erase.mp hg'
    exact (h.others g' (Finset.mem_range.mp hin) hne).2
  unfold AllocIo.freeInGroups
  rw [h.same.count, ← add_sum_erase _ _ hmem, ← add_sum_erase _ io.freeIn hmem, h.freeIn]
  omega

theorem Stored.counted (h : Stored g bm free io io') (hc : io.Counted)
    (hfree : free = clearBits bm (io.validSpan g)) : io'.Counted := by
  intro g' hg'
  rw [h.same.validSpan]
  by_cases hne : g' = g
  · rw [hne, h.freeIn, h.bitmap, hfree]
  · obtain ⟨hbitmap, hcount⟩ := h.others g' (h.same.count ▸ hg') hne
    rw [hbitmap, hcount]
    exact hc g' (h.same.count ▸ hg')

end AllocIo

end Petra.Ext4
