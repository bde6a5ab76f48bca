import Petra.Ext4.FreeMap

/-! # Runs of the block allocator

Starting from a mounted filesystem whose bitmaps agree with its descriptors, blocks are taken
and freed in any order.
-/

namespace Petra.Ext4.AllocIo

open Base SuperBlock BgTable

variable {io io' io₀ : AllocIo} {sb : SuperBlock} {blocks : Nat → Bytes} {buf : Bytes}

/-! ### Mounting -/

/-- Descriptors are long enough for their fields, and none lies in two blocks. -/
structure DescriptorsFit (io : AllocIo) : Prop where
  descSize : 32 ≤ io.bgt.descSize
  inside : ∀ g < io.bgt.count,
    g * io.bgt.descSize % io.blockSize + io.bgt.descSize ≤ io.blockSize

theorem blocksCount_lt (h : parse buf = .ok sb) : sb.blocksCount < 2 ^ 64 := by
  obtain ⟨rfl, _⟩ := parse_eq_ok h
  have hlo : (decode buf).blocksCountLo < 256 ^ 4 := leAt_lt buf 4 4
  have hhi : (decode buf).blocksCountHi < 256 ^ 4 := leAt_lt buf 336 4
  unfold blocksCount joinHalves
  omega

theorem mount_eq_ok (h : mount sb blocks = .ok io) (hsized : ∀ b, (blocks b).length = sb.blockSize)
    (hfit : io.DescriptorsFit) :
    io.bgt.Wf ∧ io.sb.descSize = io.bgt.descSize ∧ io.blockSize = sb.blockSize ∧
      io.totalBlocks = sb.blocksCount ∧ ∀ b, (io.blocks b).length = io.blockSize := by
  obtain ⟨groups, _, hrest⟩ := ok_of_bind h
  obtain ⟨t, hload, hio⟩ := ok_of_bind hrest
  cases hio
  have hloaded := load_eq_ok hload
  have hlarge : 32 ≤ sb.descSize := hloaded.1 ▸ hfit.descSize
  have hinside : ∀ g < max groups 1, g * sb.descSize % sb.blockSize + sb.descSize ≤ sb.blockSize := by
    rw [← hloaded.1, ← hloaded.2]
    exact hfit.inside
  have hwf := load_wf hload hsized hlarge hinside
  exact ⟨⟨hwf.1, hwf.2, hwf.3, hwf.4⟩, hloaded.1.symm, rfl, rfl, hsized⟩

theorem sound_of_mount (hparse : parse buf = .ok sb)
    (hmount : mount sb blocks = .ok io) (hsized : ∀ b, (blocks b).length = sb.blockSize)
    (hfit : io.DescriptorsFit) (hstart : io.Consistent) : io.Sound := by
  obtain ⟨hwf, hdesc, hsize, htotal, hblocks⟩ := mount_eq_ok hmount hsized hfit
  refine ⟨⟨hwf, hdesc, hblocks, hstart.apart⟩, hstart.counted, hstart.total, ?_, ?_⟩
  · rw [hsize]
    exact (parse_eq_ok hparse).2
  · rw [htotal]
    exact blocksCount_lt hparse

/-! ### Steps -/

inductive Op
  | alloc (startGroup : Nat)
  | free (phys len : Nat)

def exec : Op → AllocCall Unit
  | .alloc startGroup => do
    let _ ← allocBlock startGroup
    pure ()
  | .free phys len => freeBlocks phys len

def step (io : AllocIo) (op : Op) : Except Panic AllocIo := (exec op io).map Prod.snd

/-- Only allocated ranges are freed. -/
def Permitted (io : AllocIo) : Op → Prop
  | .alloc _ => True
  | .free phys len => io.AllocatedRange phys len

/-- Only allocated ranges are freed, and freeing them goes right. -/
def Safe (io : AllocIo) : Op → Prop
  | .alloc _ => True
  | .free phys len => io.AllocatedRange phys len ∧ io.FreeSafe phys len

theorem step_sound {op : Op} (hs : io.Sound) (hsafe : io.Safe op) (hstep : step io op = .ok io') :
    io'.Sound := by
  cases op with
  | alloc startGroup =>
    rw [step, exec] at hstep
    rcases allocBlock_run hs startGroup with hfull | ⟨b, mid, hrun, _, hsound, _⟩
    · have hfail : (do let _ ← allocBlock startGroup; pure ()) io = .ok (.error .ENOSPC, io) :=
        Call.run_bind_error hfull
      rw [hfail] at hstep
      cases hstep
      exact hs
    · rw [Call.run_bind hrun] at hstep
      cases hstep
      exact hsound
  | free phys len =>
    obtain ⟨mid, hrun, _, hsound, _⟩ := freeBlocks_run hs hsafe.1 hsafe.2
    rw [step, exec, hrun] at hstep
    cases hstep
    exact hsound

/-! ### Taking a block and giving it back -/

variable {b : Nat}

theorem Took.allocated (h : Took b io io') (hsame : SameGroups io io') :
    io'.AllocatedRange b 1 := by
  intro k hk
  obtain ⟨g, hg, i, hi, hb, hbits⟩ := h.bits
  refine ⟨g, hsame.count ▸ hg, i, by rwa [hsame.validSpan], ?_, ?_⟩
  · rw [hsame.blockOfBit, hb]
    omega
  · rw [hbits g hg i]
    simp

/-- A block that was just taken can be given back: it is one block, and the count it returns
to was stored before. -/
theorem Took.freeSafe (h : Took b io io') (hs : io.Sound) (hsame : SameGroups io io') :
    io'.FreeSafe b 1 := by
  obtain ⟨g, hg, i, hi, hb, hbits⟩ := h.bits
  constructor
  · right
    intro k hk
    rw [Nat.lt_one_iff.mp hk, Nat.add_zero]
  unfold CountFits
  rw [hsame.descSize, hsame.count]
  by_cases hlarge : b64DescSize ≤ io.bgt.descSize
  · exact .inl hlarge
  refine .inr fun g' hg' => ?_
  rw [hsame.validSpan]
  by_cases hshort : io.validSpan g' < 2 ^ 16
  · exact .inl hshort
  have hcount : io.freeIn g' < 2 ^ width io.bgt.descSize 16 :=
    (fits_descAt io.bgt g').freeBlocksCount
  rw [width, if_neg hlarge, hs.counted g' hg'] at hcount
  have hsome : clearBits (io.bitmap g') (io.validSpan g') < io.validSpan g' := by omega
  obtain ⟨j, hj, hset⟩ := exists_set hsome
  refine .inr ⟨j, hj, ?_, ?_⟩
  · rw [hbits g' hg' j, hset]
    rfl
  rw [hsame.blockOfBit]
  intro hin
  apply h.free
  have hblock : b = io.blockOfBit g' j := by omega
  rw [hblock, allocated_blockOfBit hg' hj]
  exact hset

/-- The bitmaps, the descriptors and the superblock count the same free blocks. -/
structure SameFree (io io' : AllocIo) : Prop where
  bitmaps : ∀ g < io.bgt.count, io'.bitmap g = io.bitmap g
  counts : ∀ g < io.bgt.count, io'.freeIn g = io.freeIn g
  total : io'.sb.freeBlocksCount = io.sb.freeBlocksCount

theorem sameFree_of_freed {io'' : AllocIo} (hs : io.Sound) (htook : Took b io io')
    (hsame : SameGroups io io') (hfreed : Freed b 1 io' io'') (hs'' : io''.Sound)
    (hsame' : SameGroups io' io'') : SameFree io io'' := by
  obtain ⟨g, hg, i, hi, hb, hbits⟩ := htook.bits
  have hgroups := hsame.trans hsame'
  have hbitmaps : ∀ g < io.bgt.count, io''.bitmap g = io.bitmap g := by
    intro g' hg'
    apply bitmap_ext
    · rw [bitmap, bitmap, hs''.shape.sized, hs.shape.sized, hgroups.blockSize]
    intro j
    rw [hfreed g' (hsame.count ▸ hg') j, hbits g' hg' j, hsame.validSpan, hsame.blockOfBit]
    by_cases hbit : j < io.validSpan g' ∧ b = io.blockOfBit g' j
    · obtain ⟨hj, hblock⟩ := hbit
      have hclear : bitAt (io.bitmap g') j = false := by
        rw [← Bool.not_eq_true, ← allocated_blockOfBit hg' hj, ← hblock]
        exact htook.free
      rw [hclear]
      simp [hj, ← hblock]
    · have hother : ¬ (g' = g ∧ j = i) := by
        rintro ⟨rfl, rfl⟩
        exact hbit ⟨hi, hb⟩
      have hout : ¬ (j < io.validSpan g' ∧ b ≤ io.blockOfBit g' j ∧
          io.blockOfBit g' j < b + 1) := by
        rintro ⟨hj, hlow, hhigh⟩
        exact hbit ⟨hj, by omega⟩
      rw [decide_eq_false hother, decide_eq_false hout, Bool.or_false, Bool.not_false, Bool.and_true]
  have hcounts : ∀ g < io.bgt.count, io''.freeIn g = io.freeIn g := by
    intro g' hg'
    rw [hs''.counted g' (hgroups.count ▸ hg'), hs.counted g' hg', hgroups.validSpan, hbitmaps g' hg']
  refine ⟨hbitmaps, hcounts, ?_⟩
  rw [hs''.total, hs.total, freeInGroups, freeInGroups, hgroups.count]
  exact Finset.sum_congr rfl fun g' hg' => hcounts g' (Finset.mem_range.mp hg')

/-! ### Runs -/

/-- In every state of a run, the descriptors count the clear bits of their groups and the
superblock counts them all. A block that is handed out was free. Freeing an allocated range
clears its bits and no others, and freeing a block that was just taken undoes the taking. -/
theorem freeMap_of_visits {buf : Bytes} (hparse : SuperBlock.parse buf = .ok sb)
    (hsized : ∀ b, (blocks b).length = sb.blockSize) (hmount : mount sb blocks = .ok io₀)
    (hfit : io₀.DescriptorsFit) (hstart : io₀.Consistent) (hrun : Visits step Safe io₀ io) :
    (∀ g < io.bgt.count, io.freeIn g = clearBits (io.bitmap g) (io.validSpan g)) ∧
      io.sb.freeBlocksCount = ∑ g ∈ Finset.range io.bgt.count, io.freeIn g ∧
      (∀ startGroup b io', allocBlock startGroup io = .ok (.ok b, io') → Took b io io') ∧
      (∀ phys len, io.AllocatedRange phys len → io.FreeSafe phys len →
        ∃ io', freeBlocks phys len io = .ok (.ok (), io') ∧ Freed phys len io io') ∧
      (∀ startGroup b io', allocBlock startGroup io = .ok (.ok b, io') →
        ∃ io'', freeBlocks b 1 io' = .ok (.ok (), io'') ∧ SameFree io io'') := by
  have hs : io.Sound := hrun.invariant (sound_of_mount hparse hmount hsized hfit hstart)
    fun _ _ _ hs hsafe hstep => step_sound hs hsafe hstep
  refine ⟨hs.counted, hs.total, ?_, ?_, ?_⟩
  · intro startGroup b io' halloc
    obtain ⟨htook, _⟩ := allocBlock_eq_ok hs halloc
    exact htook
  · intro phys len hrange hsafe
    obtain ⟨io', hfree, hfreed, _⟩ := freeBlocks_run hs hrange hsafe
    exact ⟨io', hfree, hfreed⟩
  · intro startGroup b io' halloc
    obtain ⟨htook, hs', hsame⟩ := allocBlock_eq_ok hs halloc
    obtain ⟨io'', hfree, hfreed, hs'', hsame'⟩ :=
      freeBlocks_run hs' (htook.allocated hsame) (htook.freeSafe hs hsame)
    exact ⟨io'', hfree, sameFree_of_freed hs htook hsame hfreed hs'' hsame'⟩

/-! ### A filesystem of two groups with sixteen blocks each -/

/-- Blocks 1 to 32, sixteen in each group, none of them free. -/
def twoGroups : Bytes :=
  putFields (List.replicate 1024 0)
    [⟨4, 4, 33⟩, ⟨20, 4, 1⟩, ⟨32, 4, 16⟩, ⟨40, 4, 16⟩, ⟨56, 2, superMagic⟩]

/-- The table is in block 2, and the full bitmaps are in blocks 3 and 4. -/
def twoGroupsBlocks (b : Nat) : Bytes :=
  if b = 2 then putFields (List.replicate 1024 0) [⟨0, 4, 3⟩, ⟨32, 4, 4⟩]
  else List.replicate 1024 0xFF

instance (io : AllocIo) : Decidable io.Counted :=
  inferInstanceAs (Decidable (∀ g < _, _ = _))

instance (io : AllocIo) (b : Nat) : Decidable (io.Allocated b) :=
  inferInstanceAs (Decidable (∃ g < _, ∃ i < _, _ ∧ _))

instance (io : AllocIo) (b len : Nat) : Decidable (io.AllocatedRange b len) :=
  inferInstanceAs (Decidable (∀ k < _, io.Allocated (b + k)))

instance (io : AllocIo) (b len : Nat) : Decidable (io.OneGroup b len) :=
  inferInstanceAs (Decidable (∀ k < _, _ = _))

theorem twoGroups_parse : parse twoGroups = .ok (decode twoGroups) :=
  parse_of_valid _ (by decide +kernel) (by decide) (by decide)

theorem twoGroupsBlocks_sized (b : Nat) :
    (twoGroupsBlocks b).length = (decode twoGroups).blockSize := by
  have hsize : (decode twoGroups).blockSize = 1024 := by decide
  rw [hsize, twoGroupsBlocks]
  split
  · rw [length_putFields, List.length_replicate]
  · rw [List.length_replicate]

/-- The filesystem mounts, and its bitmaps agree with its descriptors. -/
theorem twoGroups_mount :
    ∃ io, mount (decode twoGroups) twoGroupsBlocks = .ok io ∧ io.DescriptorsFit ∧
      io.Consistent := by
  obtain ⟨io, hmount, hfit, hapart, hcounted, htotal⟩ :=
    exists_ok (mount (decode twoGroups) twoGroupsBlocks) (fun io =>
      (32 ≤ io.bgt.descSize ∧ ∀ g < io.bgt.count,
        g * io.bgt.descSize % io.blockSize + io.bgt.descSize ≤ io.blockSize) ∧
      (∀ g < io.bgt.count, ∀ g' < io.bgt.count,
        (io.bgt.descAt g).blockBitmap = (io.bgt.descAt g').blockBitmap → g = g') ∧
      io.Counted ∧ io.sb.freeBlocksCount = io.freeInGroups) (by decide +kernel)
  exact ⟨io, hmount, ⟨hfit.1, hfit.2⟩, ⟨hapart, hcounted, htotal⟩⟩

/-- What the mounted filesystem was observed to satisfy. -/
theorem of_twoGroups_mount (P : AllocIo → Prop) [∀ io, Decidable (P io)]
    (hmount : mount (decode twoGroups) twoGroupsBlocks = .ok io)
    (h : (mount (decode twoGroups) twoGroupsBlocks).toOption.any (fun io => decide (P io)) = true) :
    P io := by
  rw [hmount] at h
  exact of_decide_eq_true h

/-- Two blocks of the first group are freed and one is taken again. -/
theorem freeMap_after_freeAndAlloc :
    ∃ io₀ io, mount (SuperBlock.decode twoGroups) twoGroupsBlocks = .ok io₀ ∧
      Visits step Safe io₀ io ∧ io.freeIn 0 = 1 ∧ io.freeIn 0 = clearBits (io.bitmap 0) 16 := by
  obtain ⟨io₀, hmount, hfit, hstart⟩ := twoGroups_mount
  obtain ⟨hrange, hone, hshort⟩ := of_twoGroups_mount (fun io => io.AllocatedRange 5 2 ∧
    io.OneGroup 5 2 ∧ ∀ g < io.bgt.count, io.validSpan g < 2 ^ 16) hmount (by decide +kernel)
  have hchecked := of_twoGroups_mount
    (fun io => ((do step (← step io (.free 5 2)) (.alloc 0)).toOption.any fun io : AllocIo =>
      decide (io.freeIn 0 = 1 ∧ io.bgt.count = 2 ∧ io.validSpan 0 = 16)) = true)
    hmount (by decide +kernel)
  obtain ⟨io, hrun, hone', hcount, hspan⟩ := exists_ok _ _ hchecked
  obtain ⟨io₁, hfree, halloc⟩ := ok_of_bind hrun
  have hsafeFree : io₀.Safe (.free 5 2) := ⟨hrange, .inr hone, .inr fun g hg => .inl (hshort g hg)⟩
  have hsafeAlloc : io₁.Safe (.alloc 0) := trivial
  have hvisits : Visits step Safe io₀ io := .next (.next .start hsafeFree hfree) hsafeAlloc halloc
  have hclear := (freeMap_of_visits twoGroups_parse twoGroupsBlocks_sized hmount hfit hstart
    hvisits).1 0 (by omega)
  rw [hspan] at hclear
  exact ⟨io₀, io, hmount, hvisits, hone', hclear⟩

/-- Freeing the last block of the first group and the first of the second clears two bits of
the first bitmap, one of them past the end of the group. -/
theorem not_counted_after_crossing :
    ¬ ∀ (buf : Bytes) (sb : SuperBlock) (blocks : Nat → Bytes) (io₀ io : AllocIo),
      SuperBlock.parse buf = .ok sb → (∀ b, (blocks b).length = sb.blockSize) →
      mount sb blocks = .ok io₀ → io₀.DescriptorsFit → io₀.Consistent →
      Visits step Permitted io₀ io →
      ∀ g < io.bgt.count, io.freeIn g = clearBits (io.bitmap g) (io.validSpan g) := by
  intro hall
  obtain ⟨io₀, hmount, hfit, hstart⟩ := twoGroups_mount
  have hallocated := of_twoGroups_mount (fun io => io.AllocatedRange 16 2) hmount
    (by decide +kernel)
  have hchecked := of_twoGroups_mount (fun io => ((step io (.free 16 2)).toOption.any fun io => decide
    (io.freeIn 0 = 2 ∧ io.bgt.count = 2 ∧ clearBits (io.bitmap 0) (io.validSpan 0) = 1)) = true)
    hmount (by decide +kernel)
  obtain ⟨io, hstep, hfree, hcount, hclear⟩ := exists_ok _ _ hchecked
  have hpermitted : io₀.Permitted (.free 16 2) := hallocated
  have hsame := hall _ _ _ _ _ twoGroups_parse twoGroupsBlocks_sized hmount hfit hstart
    (.next .start hpermitted hstep) 0 (by omega)
  omega

end Petra.Ext4.AllocIo
