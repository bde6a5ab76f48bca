import Petra.Ext4.SuperBlock

/-! # The group descriptor table

The table is kept as the raw blocks it was read from. A descriptor is decoded from its slot
every time it is looked at, and encoded into the slot as a whole when it changes.
-/

namespace Petra.Ext4

open Base Crypto List

def b64DescSize : Nat := 64

structure BgDesc where
  blockBitmap : Nat
  inodeBitmap : Nat
  inodeTable : Nat
  freeBlocksCount : Nat
  freeInodesCount : Nat
  usedDirsCount : Nat
  checksum : Nat
  deriving DecidableEq, Repr

def BgDesc.withFreeBlocks (d : BgDesc) (n : Nat) : BgDesc := { d with freeBlocksCount := n }

def BgDesc.withFreeInodes (d : BgDesc) (n : Nat) : BgDesc := { d with freeInodesCount := n }

/-- The checksum of a group descriptor. -/
inductive DescSum
  | none
  | crc16
  | crc32c
  deriving DecidableEq, Repr

structure BgTable where
  descSize : Nat
  count : Nat
  rawJump : List Bytes
  csum : DescSum
  uuid : Bytes
  csumSeed : UInt32
  dirty : Bool

namespace BgTable

/-! ### Decoding and encoding -/

/-- A field that a descriptor too short for it does not have. -/
def fieldOr0 (b : Bytes) (off k : Nat) : Nat := if off + k ≤ b.length then leAt b off k else 0

/-- A field of `k` bytes whose high half exists in large descriptors only. -/
def halves (b : Bytes) (descSize k lo hi : Nat) : Nat :=
  joinHalves (8 * k) (fieldOr0 b lo k) (if b64DescSize ≤ descSize then fieldOr0 b hi k else 0)

def parseDesc (b : Bytes) (descSize : Nat) : BgDesc where
  blockBitmap := halves b descSize 4 0 32
  inodeBitmap := halves b descSize 4 4 36
  inodeTable := halves b descSize 4 8 40
  freeBlocksCount := halves b descSize 2 12 44
  freeInodesCount := halves b descSize 2 14 46
  usedDirsCount := halves b descSize 2 16 48
  checksum := if b64DescSize ≤ descSize then fieldOr0 b 60 4 else fieldOr0 b 30 2

def lowFields (d : BgDesc) : List Field :=
  [⟨0, 4, d.blockBitmap⟩, ⟨4, 4, d.inodeBitmap⟩, ⟨8, 4, d.inodeTable⟩,
    ⟨12, 2, d.freeBlocksCount⟩, ⟨14, 2, d.freeInodesCount⟩, ⟨16, 2, d.usedDirsCount⟩]

def highFields (d : BgDesc) : List Field :=
  [⟨32, 4, d.blockBitmap / 2 ^ 32⟩, ⟨36, 4, d.inodeBitmap / 2 ^ 32⟩,
    ⟨40, 4, d.inodeTable / 2 ^ 32⟩, ⟨44, 2, d.freeBlocksCount / 2 ^ 16⟩,
    ⟨46, 2, d.freeInodesCount / 2 ^ 16⟩, ⟨48, 2, d.usedDirsCount / 2 ^ 16⟩,
    ⟨60, 4, d.checksum⟩]

def fields (descSize : Nat) (d : BgDesc) : List Field :=
  lowFields d ++ if b64DescSize ≤ descSize then highFields d else [⟨30, 2, d.checksum⟩]

/-- The bytes of a descriptor that is long enough for its fields. -/
def encode (descSize : Nat) (d : BgDesc) : Bytes :=
  putFields (List.replicate descSize 0) (fields descSize d)

variable (t : BgTable)

/-- The last field of a small descriptor ends at byte 32, and writing past the end panics. -/
def serializeDesc (d : BgDesc) : Except Panic Bytes :=
  if 32 ≤ t.descSize then .ok (encode t.descSize d) else .error .assertion

def checksumOf (group : Nat) (bytes : Bytes) : Nat :=
  match t.csum with
  | .none => 0
  | .crc16 =>
    let st := Crypto.crc16 0xFFFF t.uuid
    let st := Crypto.crc16 st (leBytes 2 group)
    (Crypto.crc16 st bytes).toNat
  | .crc32c =>
    if b64DescSize ≤ t.descSize then
      (Crypto.crc32c (Crypto.crc32c t.csumSeed (leBytes 4 group)) bytes).toNat
    else (Crypto.crc32c t.csumSeed bytes).toNat % 2 ^ 16

def computeChecksum (d : BgDesc) (group : Nat) : Except Panic BgDesc := do
  let bytes ← t.serializeDesc { d with checksum := 0 }
  .ok { d with checksum := t.checksumOf group bytes }

/-! ### Slots -/

/-- Where descriptor `g` lies: a table block and an offset in it. -/
def slot (g : Nat) : Except Panic (Nat × Nat) :=
  let perBlock := (t.rawJump.headD []).length
  let start := g * t.descSize
  match t.rawJump[start / perBlock]? with
  | none => .error .assertion
  | some blk =>
    if start % perBlock + t.descSize ≤ blk.length then .ok (start / perBlock, start % perBlock)
    else .error .assertion

/-- Overwrite bytes of a table block. -/
def patchSlot (i off : Nat) (v : Bytes) : BgTable :=
  { t with rawJump := t.rawJump.modify i (patch · off v), dirty := true }

end BgTable

/-- A call on the table. -/
abbrev TableCall := Call Panic Errno BgTable

namespace BgTable

def desc (g : Nat) : TableCall BgDesc := do
  let t ← Call.get
  Call.check (g < t.count) .EINVAL
  let (i, off) ← Call.orAbort (t.slot g)
  pure (parseDesc (slice (t.rawJump.getD i []) off t.descSize) t.descSize)

def updateDesc (g : Nat) (d : BgDesc) : TableCall BgDesc := do
  let t ← Call.get
  Call.check (g < t.count) .EINVAL
  let d ← Call.orAbort (t.computeChecksum d g)
  let bytes ← Call.orAbort (t.serializeDesc d)
  let (i, off) ← Call.orAbort (t.slot g)
  Call.set (t.patchSlot i off bytes)
  pure d

/-- Store the checksum of a bitmap in two halves, the high one for 64-bit filesystems only. -/
def patchBitmapCsum (lo hi g : Nat) (sum : UInt32) (has64bit : Bool) : TableCall Unit := do
  let t ← Call.get
  Call.check (g < t.count) .EINVAL
  let (i, off) ← Call.orAbort (t.slot g)
  Call.assert (lo + 2 ≤ t.descSize) .assertion
  let t := t.patchSlot i (off + lo) (leBytes 2 sum.toNat)
  if has64bit then do
    Call.assert (hi + 2 ≤ t.descSize) .assertion
    Call.set (t.patchSlot i (off + hi) (leBytes 2 (sum.toNat / 2 ^ 16)))
  else Call.set t

def patchBlockBitmapCsum (g : Nat) (sum : UInt32) (has64bit : Bool) : TableCall Unit :=
  patchBitmapCsum 24 56 g sum has64bit

def patchInodeBitmapCsum (g : Nat) (sum : UInt32) (has64bit : Bool) : TableCall Unit :=
  patchBitmapCsum 26 58 g sum has64bit

def load (firstDescBlock descSize count blockSize : Nat) (readBlock : Nat → Bytes)
    (csum : DescSum) : Except Panic BgTable :=
  let perBlock := blockSize / descSize
  if perBlock = 0 then .error .assertion
  else
    let totalBlocks := max ((count + perBlock - 1) / perBlock) 1
    .ok
      { descSize := descSize
        count := count
        rawJump := (List.range totalBlocks).map fun i => readBlock (firstDescBlock + i)
        csum := csum
        uuid := List.replicate 16 0
        csumSeed := 0
        dirty := false }

/-! ### Descriptors that fit their fields -/

/-- The bits of a field that has `w` bits in a small descriptor. -/
def width (descSize w : Nat) : Nat := if b64DescSize ≤ descSize then 2 * w else w

/-- The fields of a descriptor are in the range of what is stored. -/
structure Fits (descSize : Nat) (d : BgDesc) : Prop where
  blockBitmap : d.blockBitmap < 2 ^ width descSize 32
  inodeBitmap : d.inodeBitmap < 2 ^ width descSize 32
  inodeTable : d.inodeTable < 2 ^ width descSize 32
  freeBlocksCount : d.freeBlocksCount < 2 ^ width descSize 16
  freeInodesCount : d.freeInodesCount < 2 ^ width descSize 16
  usedDirsCount : d.usedDirsCount < 2 ^ width descSize 16
  checksum : d.checksum < 2 ^ width descSize 16

variable {t t' : BgTable} {d : BgDesc} {g g' descSize : Nat} {f : Field}

theorem fieldOr0_lt (b : Bytes) (off k : Nat) : fieldOr0 b off k < 2 ^ (8 * k) := by
  have hpow : 256 ^ k = 2 ^ (8 * k) := by rw [Nat.pow_mul]
  unfold fieldOr0
  split
  · exact hpow ▸ leAt_lt b off k
  · exact Nat.two_pow_pos _

theorem halves_lt (b : Bytes) (descSize k lo hi : Nat) :
    halves b descSize k lo hi < 2 ^ width descSize (8 * k) := by
  have hlo := fieldOr0_lt b lo k
  have hhi := fieldOr0_lt b hi k
  unfold halves joinHalves width
  split
  · rw [Nat.two_mul, Nat.pow_add]
    have hle : 2 ^ (8 * k) * fieldOr0 b hi k ≤ 2 ^ (8 * k) * (2 ^ (8 * k) - 1) :=
      Nat.mul_le_mul_left _ (by omega)
    rw [Nat.mul_sub] at hle
    have hpos : 2 ^ (8 * k) ≤ 2 ^ (8 * k) * 2 ^ (8 * k) := Nat.le_mul_of_pos_left _ (by omega)
    omega
  · simpa using hlo

theorem Fits.withFreeBlocks {n : Nat} (h : Fits descSize d) (hn : n < 2 ^ width descSize 16) :
    Fits descSize (d.withFreeBlocks n) :=
  ⟨h.1, h.2, h.3, hn, h.5, h.6, h.7⟩

theorem fits_parseDesc (b : Bytes) (descSize : Nat) : Fits descSize (parseDesc b descSize) where
  blockBitmap := halves_lt b descSize 4 0 32
  inodeBitmap := halves_lt b descSize 4 4 36
  inodeTable := halves_lt b descSize 4 8 40
  freeBlocksCount := halves_lt b descSize 2 12 44
  freeInodesCount := halves_lt b descSize 2 14 46
  usedDirsCount := halves_lt b descSize 2 16 48
  checksum := by
    unfold parseDesc width
    split
    · exact fieldOr0_lt b 60 4
    · exact fieldOr0_lt b 30 2

@[simp] theorem length_encode (descSize : Nat) (d : BgDesc) :
    (encode descSize d).length = descSize := by
  rw [encode, length_putFields, length_replicate]

theorem mem_fields_low (h : f ∈ lowFields d) : f ∈ fields descSize d :=
  mem_append_left _ h

theorem mem_fields_high (hlarge : b64DescSize ≤ descSize) (h : f ∈ highFields d) :
    f ∈ fields descSize d := by
  rw [fields, if_pos hlarge]
  exact mem_append_right _ h

theorem fields_apart (descSize : Nat) (d : BgDesc) : (fields descSize d).Pairwise Field.Apart := by
  unfold fields lowFields highFields
  split
  · simp [Field.Apart]
  · simp [Field.Apart]

section

variable (hsize : 32 ≤ descSize)

include hsize

theorem fields_inside : ∀ f ∈ fields descSize d, f.off + f.size ≤ descSize := by
  unfold fields lowFields highFields b64DescSize
  split
  · simp
    omega
  · simp
    omega

theorem fieldOr0_encode {f : Field} (hf : f ∈ fields descSize d) :
    fieldOr0 (encode descSize d) f.off f.size = f.value % 256 ^ f.size := by
  have hinside := fields_inside hsize f hf
  rw [fieldOr0, length_encode, if_pos hinside]
  exact leAt_putFields hf (fields_apart descSize d) (by rwa [length_replicate])

/-- A number is found again when both its halves are stored. -/
theorem halves_encode {k lo hi v : Nat} (hv : v < 2 ^ width descSize (8 * k))
    (hlow : ⟨lo, k, v⟩ ∈ fields descSize d)
    (hhigh : b64DescSize ≤ descSize → ⟨hi, k, v / 2 ^ (8 * k)⟩ ∈ fields descSize d) :
    halves (encode descSize d) descSize k lo hi = v := by
  have hpow : 256 ^ k = 2 ^ (8 * k) := by rw [Nat.pow_mul]
  have hreadLow := fieldOr0_encode hsize hlow
  rw [hpow] at hreadLow
  rw [halves, hreadLow]
  unfold width at hv
  split_ifs at hv ⊢ with hlarge
  · have hreadHigh := fieldOr0_encode hsize (hhigh hlarge)
    rw [Nat.two_mul, Nat.pow_add] at hv
    rw [hpow, Nat.mod_eq_of_lt (Nat.div_lt_of_lt_mul hv)] at hreadHigh
    rw [hreadHigh, joinHalves_split]
  · simp [joinHalves, Nat.mod_eq_of_lt hv]

theorem checksum_encode (hd : Fits descSize d) :
    (parseDesc (encode descSize d) descSize).checksum = d.checksum := by
  have hsum := hd.checksum
  unfold width at hsum
  unfold parseDesc
  split_ifs at hsum ⊢ with hlarge
  · have hmem : ⟨60, 4, d.checksum⟩ ∈ fields descSize d := by simp [fields, highFields, hlarge]
    rw [fieldOr0_encode hsize hmem]
    exact Nat.mod_eq_of_lt hsum
  · have hmem : ⟨30, 2, d.checksum⟩ ∈ fields descSize d := by simp [fields, hlarge]
    rw [fieldOr0_encode hsize hmem]
    exact Nat.mod_eq_of_lt hsum

/-- A descriptor that fits is decoded as it was encoded. -/
theorem parseDesc_encode (hd : Fits descSize d) : parseDesc (encode descSize d) descSize = d := by
  have hlow : ∀ f ∈ lowFields d, f ∈ fields descSize d := fun _ => mem_fields_low
  have hhigh : ∀ f ∈ highFields d, b64DescSize ≤ descSize → f ∈ fields descSize d :=
    fun _ hf hlarge => mem_fields_high hlarge hf
  have hsum := checksum_encode hsize hd
  have hblock := halves_encode (k := 4) hsize hd.blockBitmap (hlow ⟨0, _, _⟩ (by simp [lowFields]))
    (hhigh ⟨32, _, _⟩ (by simp [highFields]))
  have hinode := halves_encode (k := 4) hsize hd.inodeBitmap (hlow ⟨4, _, _⟩ (by simp [lowFields]))
    (hhigh ⟨36, _, _⟩ (by simp [highFields]))
  have htable := halves_encode (k := 4) hsize hd.inodeTable (hlow ⟨8, _, _⟩ (by simp [lowFields]))
    (hhigh ⟨40, _, _⟩ (by simp [highFields]))
  have hblocks := halves_encode (k := 2) hsize hd.freeBlocksCount
    (hlow ⟨12, _, _⟩ (by simp [lowFields])) (hhigh ⟨44, _, _⟩ (by simp [highFields]))
  have hinodes := halves_encode (k := 2) hsize hd.freeInodesCount
    (hlow ⟨14, _, _⟩ (by simp [lowFields])) (hhigh ⟨46, _, _⟩ (by simp [highFields]))
  have hdirs := halves_encode (k := 2) hsize hd.usedDirsCount
    (hlow ⟨16, _, _⟩ (by simp [lowFields])) (hhigh ⟨48, _, _⟩ (by simp [highFields]))
  cases d
  unfold parseDesc at hsum ⊢
  simp only [BgDesc.mk.injEq]
  exact ⟨hblock, hinode, htable, hblocks, hinodes, hdirs, hsum⟩

end

/-! ### Tables whose slots lie inside their blocks -/

variable (t) in
/-- The size of a table block. -/
def perBlock : Nat := (t.rawJump.headD []).length

variable (t) in
def blockOf (g : Nat) : Nat := g * t.descSize / t.perBlock

variable (t) in
def offsetOf (g : Nat) : Nat := g * t.descSize % t.perBlock

variable (t) in
/-- The bytes of descriptor `g`. -/
def slotBytes (g : Nat) : Bytes :=
  slice (t.rawJump.getD (t.blockOf g) []) (t.offsetOf g) t.descSize

variable (t) in
def descAt (g : Nat) : BgDesc := parseDesc (t.slotBytes g) t.descSize

theorem fits_descAt (t : BgTable) (g : Nat) : Fits t.descSize (t.descAt g) := fits_parseDesc _ _

/-- Descriptors are long enough for their fields, and each lies in one block of the table. -/
structure Wf (t : BgTable) : Prop where
  descSize : 32 ≤ t.descSize
  uniform : ∀ blk ∈ t.rawJump, blk.length = t.perBlock
  inside : ∀ g < t.count, t.blockOf g < t.rawJump.length
  fits : ∀ g < t.count, t.offsetOf g + t.descSize ≤ t.perBlock

theorem Wf.length_block (hwf : t.Wf) {i : Nat} (hi : i < t.rawJump.length) :
    (t.rawJump.getD i []).length = t.perBlock := by
  rw [getD_eq_getElem _ _ hi]
  exact hwf.uniform _ (getElem_mem hi)

/-- In a table of equal blocks a slot is found if it ends in its block. -/
theorem slot_eq_ite (huniform : ∀ blk ∈ t.rawJump, blk.length = t.perBlock)
    (hi : t.blockOf g < t.rawJump.length) : t.slot g =
      if t.offsetOf g + t.descSize ≤ t.perBlock then .ok (t.blockOf g, t.offsetOf g)
      else .error .assertion := by
  have hlen := huniform _ (getElem_mem hi)
  unfold blockOf offsetOf perBlock at *
  simp only [slot, getElem?_eq_getElem hi, hlen]

theorem slot_eq (hwf : t.Wf) (hg : g < t.count) : t.slot g = .ok (t.blockOf g, t.offsetOf g) :=
  (slot_eq_ite hwf.uniform (hwf.inside g hg)).trans (if_pos (hwf.fits g hg))

theorem desc_of_slot (hg : g < t.count) (hslot : t.slot g = .ok (t.blockOf g, t.offsetOf g)) :
    desc g t = .ok (.ok (t.descAt g), t) := by
  rw [desc, Call.run_bind rfl, Call.run_check (by simpa using hg), Call.run_orAbort hslot]
  rfl

theorem desc_run (hwf : t.Wf) (hg : g < t.count) : desc g t = .ok (.ok (t.descAt g), t) :=
  desc_of_slot hg (slot_eq hwf hg)

theorem load_eq_ok {first count blockSize : Nat} {readBlock : Nat → Bytes} {csum : DescSum}
    (h : load first descSize count blockSize readBlock csum = .ok t) :
    t.descSize = descSize ∧ t.count = count := by
  unfold load at h
  dsimp only at h
  split_ifs at h
  cases h
  exact ⟨rfl, rfl⟩

section Load

variable {first count blockSize : Nat} {readBlock : Nat → Bytes} {csum : DescSum}
  (h : load first descSize count blockSize readBlock csum = .ok t)
  (hsized : ∀ b, (readBlock b).length = blockSize)

include h hsized

/-- The blocks that are loaded are as many as the descriptors need. -/
theorem load_blocks (hpos : 0 < descSize) : t.perBlock = blockSize ∧
    (∀ blk ∈ t.rawJump, blk.length = t.perBlock) ∧ ∀ g < count, t.blockOf g < t.rawJump.length := by
  unfold load at h
  dsimp only at h
  split_ifs at h with hnone
  cases h
  have hper : (map (fun i => readBlock (first + i))
      (range (max ((count + blockSize / descSize - 1) / (blockSize / descSize)) 1))).headD [] =
      readBlock first := by
    rw [headD_eq_head?_getD, head?_eq_getElem?, getElem?_map,
      getElem?_range (by omega)]
    rfl
  have hperBlock := hsized first
  rw [← hper] at hperBlock
  refine ⟨hperBlock, ?_, ?_⟩
  · intro blk hblk
    obtain ⟨i, _, rfl⟩ := mem_map.mp hblk
    exact (hsized _).trans hperBlock.symm
  · intro g hg
    simp only [blockOf, perBlock, hperBlock, length_map, length_range]
    have hpos : 0 < blockSize / descSize := Nat.pos_of_ne_zero hnone
    have hfull : blockSize / descSize * descSize ≤ blockSize := Nat.div_mul_le_self _ _
    have hblock : g * descSize / blockSize ≤ g / (blockSize / descSize) := by
      calc g * descSize / blockSize
          ≤ g * descSize / (blockSize / descSize * descSize) :=
            Nat.div_le_div_left hfull (Nat.mul_pos hpos (by omega))
        _ = g / (blockSize / descSize) := Nat.mul_div_mul_right _ _ (by omega)
    have hround : (count + blockSize / descSize - 1) / (blockSize / descSize) =
        (count - 1) / (blockSize / descSize) + 1 := by
      rw [← Nat.add_div_right _ hpos]
      congr 1
      omega
    have hlast : g / (blockSize / descSize) ≤ (count - 1) / (blockSize / descSize) :=
      Nat.div_le_div_right (by omega)
    omega

/-- A table of which each descriptor lies in one block was loaded far enough. -/
theorem load_wf (hlarge : 32 ≤ descSize)
    (hinside : ∀ g < count, g * descSize % blockSize + descSize ≤ blockSize) : t.Wf := by
  obtain ⟨hper, huniform, hblocks⟩ := load_blocks h hsized (by omega)
  obtain ⟨rfl, rfl⟩ := load_eq_ok h
  refine ⟨hlarge, huniform, hblocks, fun g hg => ?_⟩
  rw [offsetOf, hper]
  exact hinside g hg

end Load

/-! ### Changing one slot -/

/-- The tables differ in slot `g` alone. -/
structure OnlySlot (g : Nat) (t t' : BgTable) : Prop where
  wf : t'.Wf
  count : t'.count = t.count
  descSize : t'.descSize = t.descSize
  others : ∀ g' < t.count, g' ≠ g → t'.slotBytes g' = t.slotBytes g'

theorem OnlySlot.trans {t'' : BgTable} (h : OnlySlot g t t') (h' : OnlySlot g t' t'') :
    OnlySlot g t t'' where
  wf := h'.wf
  count := h'.count.trans h.count
  descSize := h'.descSize.trans h.descSize
  others := fun g' hg' hne => (h'.others g' (h.count ▸ hg') hne).trans (h.others g' hg' hne)

section PatchSlot

variable {i off o : Nat} {v : Bytes}

@[simp] theorem descSize_patchSlot : (t.patchSlot i off v).descSize = t.descSize := rfl

@[simp] theorem count_patchSlot : (t.patchSlot i off v).count = t.count := rfl

@[simp] theorem perBlock_patchSlot : (t.patchSlot i off v).perBlock = t.perBlock := by
  unfold perBlock patchSlot
  cases t.rawJump with
  | nil => simp
  | cons blk blks =>
    cases i with
    | zero => simp
    | succ i => simp

@[simp] theorem blockOf_patchSlot : (t.patchSlot i off v).blockOf g = t.blockOf g := by
  simp only [blockOf, descSize_patchSlot, perBlock_patchSlot]

@[simp] theorem offsetOf_patchSlot : (t.patchSlot i off v).offsetOf g = t.offsetOf g := by
  simp only [offsetOf, descSize_patchSlot, perBlock_patchSlot]

theorem slotBytes_patchSlot : (t.patchSlot i off v).slotBytes g =
      slice ((t.rawJump.modify i (patch · off v)).getD (t.blockOf g) []) (t.offsetOf g)
        t.descSize := by
  rw [slotBytes, blockOf_patchSlot, offsetOf_patchSlot]
  rfl

/-- Slots of one block do not overlap. -/
theorem offsetOf_apart (hblock : t.blockOf g = t.blockOf g') (hlt : g < g') :
    t.offsetOf g + t.descSize ≤ t.offsetOf g' := by
  have hg : t.perBlock * t.blockOf g + t.offsetOf g = g * t.descSize := Nat.div_add_mod _ _
  have hg' : t.perBlock * t.blockOf g' + t.offsetOf g' = g' * t.descSize := Nat.div_add_mod _ _
  have hstep : (g + 1) * t.descSize ≤ g' * t.descSize := Nat.mul_le_mul_right _ hlt
  rw [Nat.succ_mul] at hstep
  rw [hblock] at hg
  omega

theorem Wf.patchSlot (hwf : t.Wf) : (t.patchSlot i off v).Wf where
  descSize := hwf.descSize
  uniform := by
    intro blk hblk
    rw [perBlock_patchSlot]
    obtain ⟨j, hj, rfl⟩ := getElem_of_mem hblk
    have hj' : j < t.rawJump.length := by simpa [BgTable.patchSlot] using hj
    have hlen := hwf.uniform _ (getElem_mem hj')
    simp only [BgTable.patchSlot, getElem_modify]
    split
    · rwa [length_patch]
    · exact hlen
  inside := by
    intro g hg
    rw [blockOf_patchSlot]
    simpa [BgTable.patchSlot] using hwf.inside g hg
  fits := by
    intro g hg
    rw [offsetOf_patchSlot, perBlock_patchSlot]
    exact hwf.fits g hg

theorem slotBytes_patchSlot_other (hne : g' ≠ g) (hv : o + v.length ≤ t.descSize) :
    (t.patchSlot (t.blockOf g) (t.offsetOf g + o) v).slotBytes g' = t.slotBytes g' := by
  rw [slotBytes_patchSlot]
  by_cases hblock : t.blockOf g = t.blockOf g'
  · have hapart : t.offsetOf g' + t.descSize ≤ t.offsetOf g + o ∨
        t.offsetOf g + o + v.length ≤ t.offsetOf g' := by
      rcases Nat.lt_or_gt_of_ne hne with hlt | hlt
      · have hbefore := offsetOf_apart hblock.symm hlt
        omega
      · have hafter := offsetOf_apart hblock hlt
        omega
    by_cases hin : t.blockOf g' < t.rawJump.length
    · rw [← hblock, getD_modify_self (hblock ▸ hin), slice_patch_of_disjoint hapart, slotBytes,
        hblock]
    · rw [getD_eq_default _ _ (by simpa using hin), slotBytes,
        getD_eq_default _ _ (by simpa using hin)]
  · rw [getD_modify_other hblock, slotBytes]

theorem OnlySlot.patchSlot (hwf : t.Wf) (hv : o + v.length ≤ t.descSize) :
    OnlySlot g t (t.patchSlot (t.blockOf g) (t.offsetOf g + o) v) where
  wf := hwf.patchSlot
  count := rfl
  descSize := rfl
  others := fun _ _ hne => slotBytes_patchSlot_other hne hv

theorem slotBytes_patchSlot_self (hi : t.blockOf g < t.rawJump.length)
    (hfits : t.offsetOf g + t.descSize ≤ (t.rawJump.getD (t.blockOf g) []).length)
    (hv : v.length = t.descSize) :
    (t.patchSlot (t.blockOf g) (t.offsetOf g) v).slotBytes g = v := by
  rw [slotBytes_patchSlot, getD_modify_self hi, ← hv]
  exact slice_patch_self (hv ▸ hfits)

end PatchSlot

/-- Both halves of a bitmap checksum lie in the slot of the group. -/
theorem patchBitmapCsum_run {lo hi : Nat} (hwf : t.Wf) (hg : g < t.count)
    (hlo : lo + 2 ≤ t.descSize) (hhi : hi + 2 ≤ t.descSize) (sum : UInt32) (has64bit : Bool) :
    ∃ t', patchBitmapCsum lo hi g sum has64bit t = .ok (.ok (), t') ∧ OnlySlot g t t' := by
  have hlow : OnlySlot g t (t.patchSlot (t.blockOf g) (t.offsetOf g + lo) (leBytes 2 sum.toNat)) :=
    .patchSlot hwf (by simpa using hlo)
  rw [patchBitmapCsum, Call.run_bind rfl, Call.run_check (by simpa using hg),
    Call.run_orAbort (slot_eq hwf hg)]
  dsimp only
  rw [Call.run_assert (by simpa using hlo)]
  cases has64bit with
  | false => exact ⟨_, rfl, hlow⟩
  | true =>
    refine ⟨_, Call.run_assert (decide_eq_true hhi), hlow.trans ?_⟩
    have hhigh := OnlySlot.patchSlot (g := g) (o := hi)
      (v := leBytes 2 (sum.toNat / 2 ^ 16)) hlow.wf (by simpa using hhi)
    rwa [blockOf_patchSlot, offsetOf_patchSlot] at hhigh

theorem checksumOf_lt (t : BgTable) (g : Nat) (bytes : Bytes) :
    t.checksumOf g bytes < 2 ^ width t.descSize 16 := by
  have hwidth : 2 ^ 16 ≤ 2 ^ width t.descSize 16 := by
    apply Nat.pow_le_pow_right (by omega)
    unfold width
    split <;> omega
  unfold checksumOf
  cases t.csum with
  | none => exact Nat.two_pow_pos _
  | crc16 => exact (UInt16.toNat_lt _).trans_le hwidth
  | crc32c =>
    split_ifs with hlarge
    · rw [width, if_pos hlarge]
      exact UInt32.toNat_lt _
    · exact (Nat.mod_lt _ (by omega)).trans_le hwidth

/-- The descriptor of the group is the new one, but for its checksum. -/
theorem updateDesc_run (hwf : t.Wf) (hg : g < t.count) (hd : Fits t.descSize d) :
    ∃ d' t', updateDesc g d t = .ok (.ok d', t') ∧ OnlySlot g t t' ∧ t'.descAt g = d' ∧
      ∃ sum, d' = { d with checksum := sum } := by
  have hencode : ∀ d, t.serializeDesc d = .ok (encode t.descSize d) := fun d => if_pos hwf.descSize
  have hsum : t.computeChecksum d g = .ok
      { d with checksum := t.checksumOf g (encode t.descSize { d with checksum := 0 }) } := by
    rw [computeChecksum, hencode]
    rfl
  have hfits : Fits t.descSize
      { d with checksum := t.checksumOf g (encode t.descSize { d with checksum := 0 }) } :=
    ⟨hd.1, hd.2, hd.3, hd.4, hd.5, hd.6, checksumOf_lt _ _ _⟩
  generalize hd' :
    { d with checksum := t.checksumOf g (encode t.descSize { d with checksum := 0 }) } = d' at *
  refine ⟨d', t.patchSlot (t.blockOf g) (t.offsetOf g) (encode t.descSize d'), ?_, ?_, ?_, _,
    hd'.symm⟩
  · rw [updateDesc, Call.run_bind rfl, Call.run_check (by simpa using hg), Call.run_orAbort hsum,
      Call.run_orAbort (hencode d'), Call.run_orAbort (slot_eq hwf hg)]
    rfl
  · exact OnlySlot.patchSlot (o := 0) hwf (by simp)
  · have hi := hwf.inside g hg
    rw [descAt, slotBytes_patchSlot_self hi (hwf.length_block hi ▸ hwf.fits g hg) (length_encode _ _)]
    exact parseDesc_encode hwf.descSize hfits

end BgTable

end Petra.Ext4
