import Petra.Base.Bytes
import Petra.Kernel

/-! # Filesystem blocks on a block device

The device has blocks of its own, whose size need not divide that of a filesystem block.
Whatever the two sizes are, reading and writing one filesystem block is reading and
writing its bytes.
-/

namespace Petra.Ext4

open Base List Storage

/-- The block sizes of a filesystem and of the device below it. -/
structure Geometry where
  blockSize : Nat
  devBlockSize : Nat
  blockSize_pos : 0 < blockSize
  devBlockSize_pos : 0 < devBlockSize

namespace Geometry

variable (g : Geometry)

/-- The bytes of a filesystem block. -/
def blockAt (disk : Storage) (blk : Nat) : Bytes := disk.read (blk * g.blockSize) g.blockSize

/-- `BlockDevice::read_blocks` of a device that never fails. -/
def readBlocks (disk : Storage) (id len : Nat) : Bytes := disk.read (id * g.devBlockSize) len

/-- `BlockDevice::write_blocks` of a device that never fails. -/
def writeBlocks (disk : Storage) (id : Nat) (buf : Bytes) : Storage :=
  disk.write (id * g.devBlockSize) buf

/-- Read whole device blocks until `len` bytes are there. Each round takes a byte at least,
so `len` rounds are enough. -/
def readSectors (disk : Storage) : (rounds sector len : Nat) → Bytes
  | 0, _, _ => []
  | rounds + 1, sector, len =>
    if len = 0 then []
    else
      let take := min len g.devBlockSize
      (g.readBlocks disk sector g.devBlockSize).take take ++
        readSectors disk rounds (sector + 1) (len - take)

/-- Read bytes at any address. -/
def devReadBytes (disk : Storage) (off len : Nat) : Bytes :=
  let sector := off / g.devBlockSize
  let inSector := off % g.devBlockSize
  if inSector > 0 then
    let take := min len (g.devBlockSize - inSector)
    ((g.readBlocks disk sector g.devBlockSize).drop inSector).take take ++
      g.readSectors disk len (sector + 1) (len - take)
  else g.readSectors disk len sector len

/-- Read a filesystem block. -/
def readFsBlocks (disk : Storage) (blk : Nat) : Except Panic Bytes :=
  if g.blockSize % g.devBlockSize = 0 then do
    let id ← mulUsize blk (g.blockSize / g.devBlockSize)
    .ok (g.readBlocks disk id g.blockSize)
  else do
    let off ← mulUsize blk g.blockSize
    .ok (g.devReadBytes disk off g.blockSize)

/-- Bring the bytes of one device block up to date with those of a filesystem block. -/
def patchSector (start stop : Nat) (buf : Bytes) (disk : Storage) (s : Nat) :
    Except Panic Storage :=
  let low := s * g.devBlockSize
  let srcLo := max start low - low
  let srcHi := min stop (low + g.devBlockSize) - low
  let dst := max start low - start
  let tmp := g.readBlocks disk s g.devBlockSize
  if dst + (srcHi - srcLo) ≤ buf.length then
    .ok (g.writeBlocks disk s
      (tmp.take srcLo ++ (buf.drop dst).take (srcHi - srcLo) ++ tmp.drop srcHi))
  else .error .assertion

/-- Write a filesystem block. -/
def writeFsBlocks (disk : Storage) (blk : Nat) (buf : Bytes) : Except Panic Storage :=
  if g.blockSize % g.devBlockSize = 0 then do
    let id ← mulUsize blk (g.blockSize / g.devBlockSize)
    .ok (g.writeBlocks disk id buf)
  else do
    let start ← mulUsize blk g.blockSize
    let stop ← addUsize start g.blockSize
    let first := start / g.devBlockSize
    let last := (stop - 1) / g.devBlockSize
    (List.range' first (last + 1 - first)).foldlM (g.patchSector start stop buf) disk

variable {g} {blk : Nat}

theorem readSectors_eq (disk : Storage) {rounds sector len : Nat} (h : len ≤ rounds) :
    g.readSectors disk rounds sector len = disk.read (sector * g.devBlockSize) len := by
  induction rounds generalizing sector len with
  | zero =>
    obtain rfl : len = 0 := by omega
    rfl
  | succ rounds ih =>
    unfold readSectors
    by_cases hlen : len = 0
    · rw [hlen]
      rfl
    rw [if_neg hlen]
    have hpos := g.devBlockSize_pos
    dsimp only
    rw [readBlocks, Storage.take_read (Nat.min_le_right _ _), ih (by omega)]
    by_cases hlast : len ≤ g.devBlockSize
    · rw [Nat.min_eq_left hlast]
      simp [Storage.read]
    · rw [Nat.min_eq_right (by omega), Nat.succ_mul, Storage.read_split (by omega)]

theorem devReadBytes_eq (disk : Storage) (off len : Nat) :
    g.devReadBytes disk off len = disk.read off len := by
  have hdiv := Nat.div_add_mod' off g.devBlockSize
  have hmod := Nat.mod_lt off g.devBlockSize_pos
  unfold devReadBytes
  by_cases hin : off % g.devBlockSize > 0
  · simp only [hin, if_true]
    rw [readBlocks, Storage.drop_read (by omega), hdiv, readSectors_eq disk (by omega)]
    by_cases hlen : len ≤ g.devBlockSize - off % g.devBlockSize
    · rw [Nat.min_eq_left hlen, Storage.take_read hlen]
      simp [Storage.read]
    have hnext : (off / g.devBlockSize + 1) * g.devBlockSize =
        off + (g.devBlockSize - off % g.devBlockSize) := by
      rw [Nat.succ_mul]
      omega
    rw [Nat.min_eq_right (by omega), take_of_length_le (by simp), hnext,
      Storage.read_split (by omega)]
  · simp only [hin, if_false]
    rw [readSectors_eq disk le_rfl]
    congr 1
    omega

/-- Reading a filesystem block reads its bytes. -/
theorem readFsBlocks_eq_ok {disk : Storage} {out : Bytes}
    (h : g.readFsBlocks disk blk = .ok out) : out = g.blockAt disk blk := by
  unfold readFsBlocks at h
  by_cases hdvd : g.blockSize % g.devBlockSize = 0
  · rw [if_pos hdvd] at h
    obtain ⟨id, hid, h⟩ := ok_of_bind h
    cases h
    rw [mulUsize_eq_ok hid]
    unfold readBlocks blockAt
    rw [Nat.mul_assoc, Nat.div_mul_cancel (Nat.dvd_of_mod_eq_zero hdvd)]
  · rw [if_neg hdvd] at h
    obtain ⟨off, hoff, h⟩ := ok_of_bind h
    cases h
    rw [mulUsize_eq_ok hoff, devReadBytes_eq]
    rfl

variable {buf : Bytes} {disk disk' : Storage}

/-- One device block of a filesystem block: the bytes in both are written. -/
theorem patchSector_eq_ok {start stop s : Nat}
    (hlow : s * g.devBlockSize < stop) (hhigh : start < s * g.devBlockSize + g.devBlockSize)
    (hstart : start < stop) (h : g.patchSector start stop buf disk s = .ok disk') :
    disk' = disk.write (max start (s * g.devBlockSize))
      ((buf.drop (max start (s * g.devBlockSize) - start)).take
        (min stop (s * g.devBlockSize + g.devBlockSize) - max start (s * g.devBlockSize))) := by
  unfold patchSector at h
  dsimp only at h
  generalize hlo : s * g.devBlockSize = low at hlow hhigh h ⊢
  generalize hfrom : max start low = lo at h ⊢
  generalize hto : min stop (low + g.devBlockSize) = hi at h ⊢
  rw [show hi - low - (lo - low) = hi - lo by omega] at h
  split_ifs at h with hfits
  cases h
  have hmid : ((buf.drop (lo - start)).take (hi - lo)).length = hi - lo := by
    rw [length_take, length_drop]
    omega
  have hframe := write_between disk low (lo - low) (g.devBlockSize - (hi - low))
    ((buf.drop (lo - start)).take (hi - lo))
  rw [show low + (lo - low) = lo by omega] at hframe
  rw [← hframe, readBlocks, writeBlocks, hlo, take_read (by omega),
    drop_read (by omega)]
  congr 3
  omega

/-- The device blocks from `s` on, once the bytes below them have been written. -/
theorem patchSectors_eq_ok {start stop s n : Nat}
    (hlow : (s + n) * g.devBlockSize < stop + g.devBlockSize)
    (hhigh : start < (s + 1) * g.devBlockSize) (hstart : start < stop)
    (h : (range' s n).foldlM (g.patchSector start stop buf)
      (disk.write start (buf.take (min stop (s * g.devBlockSize) - start))) = .ok disk')
    (hlen : buf.length = stop - start) :
    disk' = disk.write start (buf.take (min stop ((s + n) * g.devBlockSize) - start)) := by
  induction n generalizing s with
  | zero =>
    cases h
    rfl
  | succ n ih =>
    obtain ⟨mid, hmid, h⟩ := ok_of_bind h
    have hs : (s + (n + 1)) * g.devBlockSize = s * g.devBlockSize + n * g.devBlockSize +
        g.devBlockSize := by
      rw [Nat.add_mul, Nat.succ_mul]
      omega
    have hsucc : (s + 1) * g.devBlockSize = s * g.devBlockSize + g.devBlockSize := Nat.succ_mul _ _
    have hbelow : s * g.devBlockSize < stop := by
      omega
    -- the bytes written so far end where this device block begins
    have hdone : (buf.take (min stop (s * g.devBlockSize) - start)).length =
        max start (s * g.devBlockSize) - start := by
      rw [length_take]
      omega
    have hnext : mid = disk.write start
        (buf.take (min stop ((s + 1) * g.devBlockSize) - start)) := by
      have happend := write_append disk start
        (buf.take (min stop (s * g.devBlockSize) - start))
        ((buf.drop (max start (s * g.devBlockSize) - start)).take
          (min stop (s * g.devBlockSize + g.devBlockSize) - max start (s * g.devBlockSize)))
      have htake : min stop (s * g.devBlockSize) - start =
          max start (s * g.devBlockSize) - start := by omega
      have hend : min stop ((s + 1) * g.devBlockSize) - start =
          max start (s * g.devBlockSize) - start +
            (min stop (s * g.devBlockSize + g.devBlockSize) - max start (s * g.devBlockSize)) := by
        omega
      rw [hdone, show start + (max start (s * g.devBlockSize) - start) =
        max start (s * g.devBlockSize) by omega] at happend
      rw [patchSector_eq_ok hbelow (by omega) hstart hmid, happend, htake, hend, take_add]
    rw [hnext] at h
    have hrest := ih (s := s + 1) (by rw [show s + 1 + n = s + (n + 1) by omega]; exact hlow)
      (hhigh.trans_le (Nat.mul_le_mul_right _ (by omega))) h
    rw [hrest, show s + 1 + n = s + (n + 1) by omega]

/-- Writing a filesystem block writes its bytes. -/
theorem writeFsBlocks_eq_ok (hlen : buf.length = g.blockSize)
    (h : g.writeFsBlocks disk blk buf = .ok disk') :
    disk' = disk.write (blk * g.blockSize) buf := by
  unfold writeFsBlocks at h
  by_cases hdvd : g.blockSize % g.devBlockSize = 0
  · rw [if_pos hdvd] at h
    obtain ⟨id, hid, h⟩ := ok_of_bind h
    cases h
    rw [mulUsize_eq_ok hid]
    unfold writeBlocks
    rw [Nat.mul_assoc, Nat.div_mul_cancel (Nat.dvd_of_mod_eq_zero hdvd)]
  rw [if_neg hdvd] at h
  obtain ⟨start, hstart, h⟩ := ok_of_bind h
  obtain ⟨stop, hstop, h⟩ := ok_of_bind h
  obtain ⟨rfl, _⟩ := addUsize_eq_ok hstop
  rw [← mulUsize_eq_ok hstart]
  have hpos := g.blockSize_pos
  have hdev := g.devBlockSize_pos
  have hfirst := Nat.div_add_mod start g.devBlockSize
  have hfirstMod := Nat.mod_lt start hdev
  have hlast := Nat.div_add_mod (start + g.blockSize - 1) g.devBlockSize
  have hlastMod := Nat.mod_lt (start + g.blockSize - 1) hdev
  have hle : start / g.devBlockSize ≤ (start + g.blockSize - 1) / g.devBlockSize :=
    Nat.div_le_div_right (by omega)
  generalize start / g.devBlockSize = first at h hfirst hle
  generalize (start + g.blockSize - 1) / g.devBlockSize = last at h hlast hle
  rw [Nat.mul_comm] at hfirst hlast
  have hsum : first + (last + 1 - first) = last + 1 := by omega
  have hlastSucc : (last + 1) * g.devBlockSize = last * g.devBlockSize + g.devBlockSize :=
    Nat.succ_mul _ _
  have hfirstSucc : (first + 1) * g.devBlockSize = first * g.devBlockSize + g.devBlockSize :=
    Nat.succ_mul _ _
  have hbegin : disk = disk.write start
      (buf.take (min (start + g.blockSize) (first * g.devBlockSize) - start)) := by
    rw [show min (start + g.blockSize) (first * g.devBlockSize) - start = 0 by omega]
    simp
  rw [hbegin] at h
  rw [patchSectors_eq_ok (by rw [hsum]; omega) (by omega) (by omega) h (by omega), hsum,
    take_of_length_le (by omega)]

end Geometry

end Petra.Ext4
