import Petra.Ext4.Allocation

/-! # Taking and freeing blocks

Every block that is taken was free, and a range that is freed loses its bits and no others.
The counts of free blocks follow. Freeing a range that crosses from one group into the next
goes wrong when a group has fewer blocks than a bitmap has bits, since the bitmap is then
searched past the end of the group.
-/

namespace Petra.Ext4

open Base Nat Call

namespace AllocIo

variable {io io' io'' : AllocIo} {g g' i j b : Nat} {free : Nat}

/-! ### Blocks and bits -/

theorem validSpan_le_blocksPerGroup (io : AllocIo) (g : Nat) :
    io.validSpan g ≤ io.sb.blocksPerGroup := by
  unfold validSpan
  omega

theorem validSpan_le (io : AllocIo) (g : Nat) : io.validSpan g ≤ 8 * io.blockSize :=
  min_le_right _ _

theorem group_blockOfBit (hi : i < io.validSpan g) :
    (io.blockOfBit g i - io.sb.firstDataBlock) / io.sb.blocksPerGroup = g := by
  have hper := validSpan_le_blocksPerGroup io g
  rw [blockOfBit, Nat.add_assoc, Nat.add_sub_cancel_left, Nat.mul_comm,
    mul_add_div (by omega), div_eq_of_lt (by omega), add_zero]

theorem bit_blockOfBit (hi : i < io.validSpan g) :
    (io.blockOfBit g i - io.sb.firstDataBlock) % io.sb.blocksPerGroup = i := by
  have hper := validSpan_le_blocksPerGroup io g
  rw [blockOfBit, Nat.add_assoc, Nat.add_sub_cancel_left, Nat.mul_comm, Nat.mul_add_mod,
    mod_eq_of_lt (by omega)]

/-- Different bits stand for different blocks. -/
theorem blockOfBit_inj (hi : i < io.validSpan g) (hj : j < io.validSpan g')
    (h : io.blockOfBit g i = io.blockOfBit g' j) : g = g' ∧ i = j := by
  constructor
  · rw [← group_blockOfBit hi, h, group_blockOfBit hj]
  · rw [← bit_blockOfBit hi, h, bit_blockOfBit hj]

theorem allocated_blockOfBit (hg : g < io.bgt.count) (hi : i < io.validSpan g) :
    io.Allocated (io.blockOfBit g i) ↔ bitAt (io.bitmap g) i = true := by
  constructor
  · rintro ⟨g', _, j, hj, hblock, hbit⟩
    obtain ⟨rfl, rfl⟩ := blockOfBit_inj hi hj hblock
    exact hbit
  · exact fun hbit => ⟨g, hg, i, hi, rfl, hbit⟩

/-! ### The invariant -/

/-- What holds in every state of a run. -/
structure Sound (io : AllocIo) : Prop where
  shape : io.Shape
  counted : io.Counted
  total : io.sb.freeBlocksCount = io.freeInGroups
  blockSize_le : io.blockSize ≤ 8192
  totalBlocks_lt : io.totalBlocks < 2 ^ 64

/-- The superblock's count is brought up to date. -/
theorem sound_onSuper {v : Nat} (hshape : io.Shape) (hcounted : io.Counted)
    (hsize : io.blockSize ≤ 8192) (htotal : io.totalBlocks < 2 ^ 64) (hv : v = io.freeInGroups) :
    Sound { io with sb := io.sb.patchFreeBlocks v } ∧
      SameGroups io { io with sb := io.sb.patchFreeBlocks v } := by
  have hlayout := io.sb.sameLayout_patchFreeBlocks v
  have hsame : SameGroups io { io with sb := io.sb.patchFreeBlocks v } :=
    ⟨rfl, rfl, hlayout.firstDataBlock, hlayout.blocksPerGroup, rfl, rfl⟩
  have hle := hcounted.freeInGroups_le
  refine ⟨⟨⟨hshape.table, ?_, hshape.sized, hshape.apart⟩, ?_, ?_, hsize, htotal⟩, hsame⟩
  · exact hlayout.descSize.trans hshape.descSize
  · intro g hg
    rw [hsame.validSpan]
    exact hcounted g hg
  · rw [SuperBlock.freeBlocksCount_patchFreeBlocks (by omega)]
    exact hv

/-! ### Taking a block -/

/-- Block `b` was free, and its bit is the only one that changed. -/
structure Took (b : Nat) (io io' : AllocIo) : Prop where
  free : ¬ io.Allocated b
  bits : ∃ g < io.bgt.count, ∃ i < io.validSpan g, b = io.blockOfBit g i ∧
    ∀ g' < io.bgt.count, ∀ j,
      bitAt (io'.bitmap g') j = (bitAt (io.bitmap g') j || decide (g' = g ∧ j = i))

theorem desc_run (hs : io.Shape) (hg : g < io.bgt.count) :
    onTable (BgTable.desc g) io = .ok (.ok (io.bgt.descAt g), io) :=
  onTable_run (BgTable.desc_run hs.table hg)

/-- The first clear bit of a group with free blocks lies in its valid span. -/
theorem scanFree_valid (hs : io.Sound) (hg : g < io.bgt.count) (hfree : io.freeIn g ≠ 0)
    (hscan : scanFree (io.bitmap g) (io.groupBlockBits g) = some i) :
    i < io.validSpan g ∧ bitAt (io.bitmap g) i = false := by
  rw [scanFree_eq] at hscan
  obtain ⟨_, hclear, hbelow⟩ := firstClear_eq_some hscan
  rw [hs.counted g hg] at hfree
  obtain ⟨j, hj, hjclear⟩ := exists_clear (pos_of_ne_zero hfree)
  refine ⟨?_, hclear⟩
  by_contra hge
  have hset := hbelow j (by omega)
  rw [hjclear] at hset
  cases hset

theorem readBitmap_run (io : AllocIo) (g : Nat) :
    readBlock (io.bgt.descAt g).blockBitmap io = .ok (.ok (io.bitmap g), io) := rfl

/-- Storing a group with one more bit set. -/
theorem took_of_stored (hs : io.Sound) (hg : g < io.bgt.count)
    (hi : i < io.validSpan g) (hclear : bitAt (io.bitmap g) i = false)
    (hst : Stored g (setBit (io.bitmap g) i) free io io') : Took (io.blockOfBit g i) io io' := by
  have hspan := validSpan_le io g
  have hbyte : i / 8 < (io.bitmap g).length := by
    rw [bitmap, hs.shape.sized]
    omega
  refine ⟨?_, g, hg, i, hi, rfl, ?_⟩
  · rw [allocated_blockOfBit hg hi, hclear]
    decide
  intro g' hg' j
  by_cases hne : g' = g
  · subst hne
    rw [hst.bitmap, bitAt_setBit hbyte]
    simp [eq_comm]
  · rw [(hst.others g' hg' hne).1]
    simp [hne]

theorem allocBlockIn_run (hs : io.Sound) (hg : g < io.bgt.count) :
    allocBlockIn g io = .ok (.ok none, io) ∨ ∃ b io', allocBlockIn g io = .ok (.ok (some b), io') ∧
        Took b io io' ∧ io'.Sound ∧ SameGroups io io' := by
  rw [allocBlockIn, run_bind (desc_run hs.shape hg)]
  split_ifs with hfree
  · exact .inl rfl
  rw [run_bind (readBitmap_run io g), run_bind rfl]
  cases hscan : scanFree (io.bitmap g) (io.groupBlockBits g) with
  | none => exact .inl rfl
  | some i =>
    right
    obtain ⟨hi, hclear⟩ := scanFree_valid hs hg hfree hscan
    have hspan := validSpan_le io g
    have hbyte : i / 8 < (io.bitmap g).length := by
      rw [bitmap, hs.shape.sized]
      omega
    have hcount := clearBits_setBit hi hbyte hclear
    have hdesc := hs.counted g hg
    have hfits := (BgTable.fits_descAt io.bgt g).freeBlocksCount
    have hlen : (setBit (io.bitmap g) i).length = io.blockSize := by
      rw [length_setBit, bitmap, hs.shape.sized]
    obtain ⟨mid, hrun, hst⟩ := storeGroup_run hs.shape hg
      ((sub_le (io.freeIn g) 1).trans_lt hfits) hlen
    have hsum := hst.freeInGroups hg
    obtain ⟨hsound, hsame⟩ := sound_onSuper hst.shape (hst.counted hs.counted (by omega))
      (hst.same.blockSize ▸ hs.blockSize_le) (hst.same.totalBlocks ▸ hs.totalBlocks_lt)
      (v := mid.sb.freeBlocksCount - 1) (by rw [hst.sb, hs.total]; omega)
    have htook := took_of_stored hs hg hi hclear hst
    refine ⟨io.blockOfBit g i, { mid with sb := mid.sb.patchFreeBlocks (mid.sb.freeBlocksCount - 1) },
      ?_, ⟨htook.free, htook.bits⟩, hsound, hst.same.trans hsame⟩
    exact (run_bind hrun).trans (run_bind rfl)

theorem firstOf_run {gs : List Nat} (hs : io.Sound) (hgs : ∀ g ∈ gs, g < io.bgt.count) :
    firstOf allocBlockIn gs io = .ok (.error .ENOSPC, io) ∨
      ∃ b io', firstOf allocBlockIn gs io = .ok (.ok b, io') ∧
        Took b io io' ∧ io'.Sound ∧ SameGroups io io' := by
  induction gs with
  | nil => exact .inl rfl
  | cons g gs ih =>
    rw [firstOf]
    rcases allocBlockIn_run hs (hgs g (.head _)) with hskip | ⟨b, io', htake, hpost⟩
    · rw [run_bind hskip]
      exact ih (fun g' hg' => hgs g' (.tail _ hg'))
    · rw [run_bind htake]
      exact .inr ⟨b, io', rfl, hpost⟩

/-- A block that is handed out was free, and its bit alone is set. Otherwise nothing changed. -/
theorem allocBlock_run (hs : io.Sound) (startGroup : Nat) :
    allocBlock startGroup io = .ok (.error .ENOSPC, io) ∨
      ∃ b io', allocBlock startGroup io = .ok (.ok b, io') ∧
        Took b io io' ∧ io'.Sound ∧ SameGroups io io' := by
  apply firstOf_run hs
  intro g hg
  obtain ⟨i, hi, rfl⟩ := List.mem_map.mp hg
  have hcount := List.mem_range.mp hi
  exact mod_lt _ (by omega)

theorem allocBlock_eq_ok {startGroup : Nat} (hs : io.Sound)
    (h : allocBlock startGroup io = .ok (.ok b, io')) :
    Took b io io' ∧ io'.Sound ∧ SameGroups io io' := by
  rcases allocBlock_run hs startGroup with hfull | ⟨b', mid, hrun, hpost⟩
  · rw [hfull] at h
    cases h
  · rw [hrun] at h
    cases h
    exact hpost

/-! ### Freeing a range -/

/-- Every block of the range is allocated. -/
def AllocatedRange (io : AllocIo) (b len : Nat) : Prop := ∀ k < len, io.Allocated (b + k)

/-- The bits of the range were cleared, and no others. -/
def Freed (b len : Nat) (io io' : AllocIo) : Prop :=
  ∀ g < io.bgt.count, ∀ i, bitAt (io'.bitmap g) i = (bitAt (io.bitmap g) i &&
    !decide (i < io.validSpan g ∧ b ≤ io.blockOfBit g i ∧ io.blockOfBit g i < b + len))

/-- The range lies in one group. -/
def OneGroup (io : AllocIo) (b len : Nat) : Prop :=
  ∀ k < len, (b + k - io.sb.firstDataBlock) / io.sb.blocksPerGroup =
    (b - io.sb.firstDataBlock) / io.sb.blocksPerGroup

/-- The free blocks of a group can still be counted in its descriptor when the range is free.
Only a group of 65536 blocks that are all free has too many, for a small descriptor. -/
def CountFits (io : AllocIo) (b len : Nat) : Prop :=
  b64DescSize ≤ io.bgt.descSize ∨ ∀ g < io.bgt.count, io.validSpan g < 2 ^ 16 ∨
    ∃ i < io.validSpan g, bitAt (io.bitmap g) i = true ∧
      ¬ (b ≤ io.blockOfBit g i ∧ io.blockOfBit g i < b + len)

/-- Freeing the range goes right: it lies in one group, unless groups have as many blocks as
bitmaps have bits, and the counts fit. -/
structure FreeSafe (io : AllocIo) (b len : Nat) : Prop where
  crossing : 8 * io.blockSize ≤ io.sb.blocksPerGroup ∨ io.OneGroup b len
  counts : io.CountFits b len

variable {take left len : Nat} {k : Nat}

/-- What one round frees is part of the group. -/
theorem take_valid (hi : i < io.validSpan g) (hrange : io.AllocatedRange (io.blockOfBit g i) left)
    (hcross : 8 * io.blockSize ≤ io.sb.blocksPerGroup ∨ io.OneGroup (io.blockOfBit g i) left)
    (hk : k < left) (hspan : i + k < io.groupBlockBits g) : i + k < io.validSpan g := by
  rcases hcross with hwide | hone
  · rwa [groupBlockBits_eq hwide] at hspan
  obtain ⟨g', _, j, hj, hblock, _⟩ := hrange k hk
  have hgroup := hone k hk
  rw [hblock, group_blockOfBit hj, group_blockOfBit hi] at hgroup
  subst hgroup
  unfold blockOfBit at hblock
  omega

theorem bit_of_allocatedRange (hg : g < io.bgt.count)
    (hrange : io.AllocatedRange (io.blockOfBit g i) left) (hk : k < left)
    (hvalid : i + k < io.validSpan g) : bitAt (io.bitmap g) (i + k) = true := by
  rw [← allocated_blockOfBit hg hvalid]
  have hblock : io.blockOfBit g (i + k) = io.blockOfBit g i + k := by
    unfold blockOfBit
    omega
  rw [hblock]
  exact hrange k hk

/-- Storing a group with a stretch of bits cleared. -/
theorem freed_of_stored (hs : io.Shape) (hvalid : i + take ≤ io.validSpan g)
    (hst : Stored g (clearBitRange (io.bitmap g) i take) free io io') :
    Freed (io.blockOfBit g i) take io io' := by
  have hlen : i + take ≤ 8 * (io.bitmap g).length := by
    rw [bitmap, hs.sized]
    exact hvalid.trans (validSpan_le io g)
  intro g' hg' j
  by_cases hne : g' = g
  · subst hne
    rw [hst.bitmap, bitAt_clearBitRange hlen]
    congr 3
    unfold blockOfBit
    exact propext ⟨fun h => by omega, fun h => by omega⟩
  have hout : ¬ (j < io.validSpan g' ∧ io.blockOfBit g i ≤ io.blockOfBit g' j ∧
      io.blockOfBit g' j < io.blockOfBit g i + take) := by
    rintro ⟨hj, hlow, hhigh⟩
    have hblock : io.blockOfBit g' j =
        io.blockOfBit g (i + (io.blockOfBit g' j - io.blockOfBit g i)) := by
      unfold blockOfBit at *
      omega
    exact hne (blockOfBit_inj hj (by omega) hblock).1
  rw [(hst.others g' hg' hne).1]
  simp [hout]

theorem count_fits (hs : io.Shape) (hsize : io.blockSize ≤ 8192) (hg : g < io.bgt.count)
    (hvalid : i + take ≤ io.validSpan g) (htake : take ≤ left)
    (hcounts : io.CountFits (io.blockOfBit g i) left) :
    clearBits (clearBitRange (io.bitmap g) i take) (io.validSpan g) <
      2 ^ BgTable.width io.bgt.descSize 16 := by
  have hspan := validSpan_le io g
  have hle := clearBits_le (clearBitRange (io.bitmap g) i take) (io.validSpan g)
  have hlen : i + take ≤ 8 * (io.bitmap g).length := by
    rw [bitmap, hs.sized]
    omega
  unfold BgTable.width
  split_ifs with hlarge
  · omega
  rcases hcounts with hlarge' | hgroups
  · exact absurd hlarge' hlarge
  rcases hgroups g hg with hshort | ⟨j, hj, hset, hout⟩
  · omega
  have hstays : bitAt (clearBitRange (io.bitmap g) i take) j = true := by
    rw [bitAt_clearBitRange hlen, hset]
    unfold blockOfBit at hout
    simp
    omega
  have hlt := clearBits_lt hj hstays
  omega

/-- What a round of freeing leaves: the bits of `take` blocks are cleared and counted, and
the superblock is as it was. -/
structure Round (b take : Nat) (io io' : AllocIo) : Prop where
  shape : io'.Shape
  counted : io'.Counted
  same : SameGroups io io'
  sb : io'.sb = io.sb
  freed : Freed b take io io'
  total : io'.freeInGroups = io.freeInGroups + take

theorem freeBlocksIn_run (hs : io.Shape) (hc : io.Counted) (hsize : io.blockSize ≤ 8192)
    (hrange : io.AllocatedRange b left) (hsafe : io.FreeSafe b left) (hleft : 0 < left) :
    ∃ take io', freeBlocksIn b left io = .ok (.ok take, io') ∧ 0 < take ∧ take ≤ left ∧
      Round b take io io' := by
  obtain ⟨g, hg, i, hi, rfl, -⟩ := hrange 0 hleft
  have hper := validSpan_le_blocksPerGroup io g
  have hbits := validSpan_le_groupBlockBits io g
  have hspan := validSpan_le io g
  obtain ⟨take, htake⟩ : ∃ take, take = min (io.groupBlockBits g - i) left := ⟨_, rfl⟩
  have hvalid : i + take ≤ io.validSpan g := by
    have hlast := take_valid hi hrange hsafe.crossing (k := take - 1) (by omega) (by omega)
    omega
  have hlen : i + take ≤ 8 * (io.bitmap g).length := by
    rw [bitmap, hs.sized]
    omega
  have hcount : clearBits (clearBitRange (io.bitmap g) i take) (io.validSpan g) =
      io.freeIn g + take := by
    rw [hc g hg]
    apply clearBits_clearBitRange hvalid hlen
    intro j hlow hhigh
    have hbit := bit_of_allocatedRange hg hrange (k := j - i) (by omega) (by omega)
    rwa [Nat.add_sub_cancel' hlow] at hbit
  have hfits := count_fits hs hsize hg hvalid (by omega) hsafe.counts
  rw [hcount] at hfits
  have hcleared : (clearBitRange (io.bitmap g) i take).length = io.blockSize := by
    rw [length_clearBitRange, bitmap, hs.sized]
  have hle := clearBits_le (clearBitRange (io.bitmap g) i take) (io.validSpan g)
  obtain ⟨io', hrun, hst⟩ := storeGroup_run hs hg hfits hcleared
  refine ⟨take, io', ?_, by omega, by omega, ?_⟩
  · rw [freeBlocksIn, run_bind rfl,
      run_assert (decide_eq_true (by unfold blockOfBit; omega)),
      run_assert (decide_eq_true (by omega))]
    dsimp only
    rw [group_blockOfBit hi, bit_blockOfBit hi, ← htake, run_bind (desc_run hs hg),
      run_bind (readBitmap_run io g), run_assert (decide_eq_true (by omega)),
      run_assert (decide_eq_true (by unfold freeIn at hcount; omega))]
    exact run_bind hrun
  · have hsum := hst.freeInGroups hg
    exact ⟨hst.shape, hst.counted hc hcount.symm, hst.same, hst.sb,
      freed_of_stored hs hvalid hst, by omega⟩

/-- What is left of the range after a round is still allocated. -/
theorem AllocatedRange.after_round (h : io.AllocatedRange b left)
    (hround : Round b take io io') : io'.AllocatedRange (b + take) (left - take) := by
  intro k hk
  obtain ⟨g, hg, i, hi, hblock, hbit⟩ := h (take + k) (by omega)
  refine ⟨g, hround.same.count ▸ hg, i, by rwa [hround.same.validSpan], ?_, ?_⟩
  · rw [hround.same.blockOfBit, ← hblock, add_assoc]
  · rw [hround.freed g hg i, hbit, ← hblock]
    simp

theorem FreeSafe.after_round (h : io.FreeSafe b left) (hround : Round b take io io')
    (htake : take ≤ left) : io'.FreeSafe (b + take) (left - take) := by
  constructor
  · rw [hround.same.blockSize, hround.same.blocksPerGroup]
    refine h.crossing.imp_right fun hone k hk => ?_
    have hfirst := hone take (by omega)
    have hlast := hone (take + k) (by omega)
    rw [hround.sb, hfirst, add_assoc, hlast]
  unfold CountFits
  rw [hround.same.count, hround.same.descSize]
  refine h.counts.imp_right fun hgroups g hg => ?_
  rw [hround.same.validSpan]
  refine (hgroups g hg).imp_right ?_
  rintro ⟨i, hi, hset, hout⟩
  refine ⟨i, hi, ?_, ?_⟩
  · rw [hround.freed g hg i, hset]
    simp
    omega
  · rw [hround.same.blockOfBit]
    omega

theorem Round.trans {take' : Nat} (h : Round b take io io') (h' : Round (b + take) take' io' io'') :
    Round b (take + take') io io'' where
  shape := h'.shape
  counted := h'.counted
  same := h.same.trans h'.same
  sb := h'.sb.trans h.sb
  freed := by
    intro g hg i
    rw [h'.freed g (h.same.count ▸ hg) i, h.freed g hg i, h.same.validSpan, h.same.blockOfBit,
      Bool.and_assoc, ← Bool.not_or, ← Bool.decide_or]
    congr 3
    exact propext ⟨fun h => by omega, fun h => by omega⟩
  total := by rw [h'.total, h.total, add_assoc]

theorem freeBlocksLoop_run {rounds : Nat} (hs : io.Shape) (hc : io.Counted)
    (hsize : io.blockSize ≤ 8192) (hrange : io.AllocatedRange b left)
    (hsafe : io.FreeSafe b left) (hrounds : left ≤ rounds) :
    ∃ io', freeBlocksLoop rounds b left io = .ok (.ok (), io') ∧ Round b left io io' := by
  induction rounds generalizing b left io with
  | zero =>
    rw [le_zero.mp hrounds]
    refine ⟨io, rfl, hs, hc, .refl io, rfl, ?_, rfl⟩
    intro g hg i
    simp
    omega
  | succ rounds ih =>
    cases left with
    | zero =>
      refine ⟨io, rfl, hs, hc, .refl io, rfl, ?_, rfl⟩
      intro g hg i
      simp
      omega
    | succ left =>
      obtain ⟨take, mid, hrun, hpos, hle, hround⟩ :=
        freeBlocksIn_run hs hc hsize hrange hsafe (succ_pos left)
      obtain ⟨io', hrest, hround'⟩ := ih hround.shape hround.counted
        (hround.same.blockSize ▸ hsize) (hrange.after_round hround)
        (hsafe.after_round hround hle) (by omega)
      refine ⟨io', ?_, ?_⟩
      · rw [freeBlocksLoop, run_bind hrun, run_assert (decide_eq_true (by omega)), hrest]
      · have hboth := hround.trans hround'
        rwa [Nat.add_sub_cancel' hle] at hboth

/-- Freeing an allocated range returns, clears the bits of the range and no others, and keeps
the counts right. -/
theorem freeBlocks_run (hs : io.Sound) (hrange : io.AllocatedRange b len)
    (hsafe : io.FreeSafe b len) :
    ∃ io', freeBlocks b len io = .ok (.ok (), io') ∧ Freed b len io io' ∧ io'.Sound ∧
      SameGroups io io' := by
  obtain ⟨mid, hrun, hround⟩ :=
    freeBlocksLoop_run hs.shape hs.counted hs.blockSize_le hrange hsafe (le_refl len)
  have htotal : mid.totalBlocks < 2 ^ 64 := hround.same.totalBlocks ▸ hs.totalBlocks_lt
  have hle := hround.counted.freeInGroups_le
  have hsum : mid.sb.freeBlocksCount + len = mid.freeInGroups := by
    rw [hround.sb, hs.total, hround.total]
  obtain ⟨hsound, hsame⟩ := sound_onSuper hround.shape hround.counted
    (hround.same.blockSize ▸ hs.blockSize_le) htotal hsum
  refine ⟨{ mid with sb := mid.sb.patchFreeBlocks (mid.sb.freeBlocksCount + len) }, ?_,
    hround.freed, hsound, hround.same.trans hsame⟩
  rw [freeBlocks, run_bind hrun, run_bind rfl,
    run_assert (decide_eq_true (by omega))]
  rfl

end AllocIo

end Petra.Ext4
