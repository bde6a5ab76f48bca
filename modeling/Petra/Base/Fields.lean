import Petra.Base.Bytes

/-! # Fields of byte strings

Records on disk keep their fields at fixed offsets, numbers least significant byte first.
A field that was written reads back, and fields that do not overlap do not affect each other.
-/

namespace Base

open List Nat

/-- The bytes from `off` on, at most `len` of them. -/
def slice (b : Bytes) (off len : Nat) : Bytes := (b.drop off).take len

/-- Overwrite the bytes from `off` on. Nothing is written past the end. -/
def patch : (b : Bytes) → (off : Nat) → (v : Bytes) → Bytes
  | [], _, _ => []
  | b, 0, [] => b
  | _ :: b, 0, y :: v => y :: patch b 0 v
  | x :: b, off + 1, v => x :: patch b off v

/-- The number of `k` bytes at `off`, least significant byte first. -/
def leAt (b : Bytes) (off : Nat) : (k : Nat) → Nat
  | 0 => 0
  | k + 1 => (b.getD off 0).toNat + 256 * leAt b (off + 1) k

/-- The number of `k` bytes at `off`, most significant byte first. -/
def beAt (b : Bytes) (off : Nat) : (k : Nat) → Nat
  | 0 => 0
  | k + 1 => (b.getD off 0).toNat * 256 ^ k + beAt b (off + 1) k

/-- The last `k` bytes of a number, least significant byte first. -/
def leBytes : (k n : Nat) → Bytes
  | 0, _ => []
  | k + 1, n => UInt8.ofNat n :: leBytes k (n / 256)

/-- Store the last `k` bytes of a number at `off`. -/
def putLe (b : Bytes) (off k n : Nat) : Bytes := patch b off (leBytes k n)

variable {b c v : Bytes} {off off' len k k' n i : Nat} {α : Type} {l : List α} {f : α → α} {a : α}

@[simp] theorem length_patch : (patch b off v).length = b.length := by
  induction b generalizing off v with
  | nil => rfl
  | cons x b ih =>
    cases off with
    | zero =>
      cases v with
      | nil => rfl
      | cons y v => rw [patch, length_cons, length_cons, ih]
    | succ off => rw [patch, length_cons, length_cons, ih]

@[simp] theorem length_leBytes (k n : Nat) : (leBytes k n).length = k := by
  induction k generalizing n with
  | zero => rfl
  | succ k ih => simp [leBytes, ih]

@[simp] theorem length_putLe : (putLe b off k n).length = b.length := length_patch

theorem length_slice (h : off + len ≤ b.length) : (slice b off len).length = len := by
  simp only [slice, length_take, length_drop]
  omega

theorem getD_patch_inside (hlow : off ≤ i) (hhigh : i < off + v.length) (hi : i < b.length) :
    (patch b off v).getD i 0 = v.getD (i - off) 0 := by
  induction b generalizing off v i with
  | nil => simp at hi
  | cons x b ih =>
    rw [length_cons] at hi
    cases off with
    | zero =>
      cases v with
      | nil => simp at hhigh
      | cons y v =>
        rw [length_cons] at hhigh
        cases i with
        | zero => rfl
        | succ i =>
          have hrest : (patch b 0 v).getD i 0 = v.getD (i - 0) 0 :=
            ih (by omega) (by omega) (by omega)
          simpa [patch] using hrest
    | succ off =>
      cases i with
      | zero => omega
      | succ i =>
        have hrest : (patch b off v).getD i 0 = v.getD (i - off) 0 :=
          ih (by omega) (by omega) (by omega)
        simpa [patch] using hrest

theorem getD_patch_outside (h : i < off ∨ off + v.length ≤ i) :
    (patch b off v).getD i 0 = b.getD i 0 := by
  induction b generalizing off v i with
  | nil => rfl
  | cons x b ih =>
    cases off with
    | zero =>
      cases v with
      | nil => rfl
      | cons y v =>
        rw [length_cons] at h
        cases i with
        | zero => omega
        | succ i =>
          have hrest : (patch b 0 v).getD i 0 = b.getD i 0 := ih (by omega)
          simpa [patch] using hrest
    | succ off =>
      cases i with
      | zero => rfl
      | succ i =>
        have hrest : (patch b off v).getD i 0 = b.getD i 0 := ih (by omega)
        simpa [patch] using hrest

theorem getD_slice (h : i < len) : (slice b off len).getD i 0 = b.getD (off + i) 0 := by
  simp [slice, h]

theorem getD_modify_self (h : i < l.length) : (l.modify i f).getD i a = f (l.getD i a) := by
  simp [h]

theorem getD_modify_other {j : Nat} (h : i ≠ j) : (l.modify i f).getD j a = l.getD j a := by
  simp [h]

/-- Byte strings of one length agree when they agree byte for byte. -/
theorem bytes_ext (hlen : b.length = c.length) (h : ∀ i < b.length, b.getD i 0 = c.getD i 0) :
    b = c := by
  apply ext_getElem hlen
  intro i hi hi'
  have hbyte := h i hi
  rwa [getD_eq_getElem _ _ hi, getD_eq_getElem _ _ hi'] at hbyte

/-! ### Slices of patched strings -/

theorem slice_patch_self (h : off + v.length ≤ b.length) :
    slice (patch b off v) off v.length = v := by
  have hlen : (slice (patch b off v) off v.length).length = v.length := by
    rw [length_slice (by rw [length_patch]; exact h)]
  apply bytes_ext hlen
  intro i hi
  rw [hlen] at hi
  rw [getD_slice hi, getD_patch_inside (by omega) (by omega) (by omega)]
  congr 1
  omega

theorem slice_patch_of_disjoint (h : off + len ≤ off' ∨ off' + v.length ≤ off) :
    slice (patch b off' v) off len = slice b off len := by
  have hlen : (slice (patch b off' v) off len).length = (slice b off len).length := by
    simp [slice]
  apply bytes_ext hlen
  intro i hi
  have hi' : i < len := by
    simp only [slice, length_take] at hi
    omega
  rw [getD_slice hi', getD_slice hi', getD_patch_outside (by omega)]

theorem slice_slice (h : off' + k ≤ len) : slice (slice b off len) off' k = slice b (off + off') k := by
  simp only [slice, drop_take, take_take, drop_drop]
  rw [Nat.min_eq_left (by omega)]

/-! ### Numbers -/

theorem leAt_congr (h : ∀ i, off ≤ i → i < off + k → b.getD i 0 = c.getD i 0) :
    leAt b off k = leAt c off k := by
  induction k generalizing off with
  | zero => rfl
  | succ k ih =>
    rw [leAt, leAt, h off (by omega) (by omega)]
    rw [ih (fun i hlow hhigh => h i (by omega) (by omega))]

theorem leAt_lt (b : Bytes) (off k : Nat) : leAt b off k < 256 ^ k := by
  induction k generalizing off with
  | zero => exact Nat.one_pos
  | succ k ih =>
    have hbyte := (b.getD off 0).toNat_lt
    have hrest := ih (off + 1)
    rw [leAt]
    omega

theorem beAt_lt (b : Bytes) (off k : Nat) : beAt b off k < 256 ^ k := by
  induction k generalizing off with
  | zero => exact Nat.one_pos
  | succ k ih =>
    have hbyte := (b.getD off 0).toNat_lt
    have hrest := ih (off + 1)
    have hhigh : (b.getD off 0).toNat * 256 ^ k ≤ 255 * 256 ^ k := mul_le_mul_right _ (by omega)
    rw [beAt]
    omega

theorem getD_of_leAt (h : leAt b off k = leAt c off k) (hlow : off ≤ i) (hhigh : i < off + k) :
    b.getD i 0 = c.getD i 0 := by
  induction k generalizing off with
  | zero => omega
  | succ k ih =>
    have hb := (b.getD off 0).toNat_lt
    have hc := (c.getD off 0).toNat_lt
    rw [leAt, leAt] at h
    rcases Nat.eq_or_lt_of_le hlow with rfl | hlater
    · exact UInt8.toNat_inj.mp (by omega)
    · exact @ih (off + 1) (by omega) hlater (by omega)

theorem leAt_slice (h : off' + k ≤ len) : leAt (slice b off len) off' k = leAt b (off + off') k := by
  induction k generalizing off' with
  | zero => rfl
  | succ k ih =>
    rw [leAt, leAt, getD_slice (by omega), ih (by omega), Nat.add_assoc]

theorem leAt_putLe_of_disjoint (h : off + k ≤ off' ∨ off' + k' ≤ off) :
    leAt (putLe b off' k' n) off k = leAt b off k := by
  apply leAt_congr
  intro i hlow hhigh
  apply getD_patch_outside
  rw [length_leBytes]
  omega

theorem leAt_leBytes (k n : Nat) : leAt (leBytes k n) 0 k = n % 256 ^ k := by
  induction k generalizing n with
  | zero => simp [leAt, mod_one]
  | succ k ih =>
    have htail : leAt (leBytes (k + 1) n) 1 k = leAt (leBytes k (n / 256)) 0 k := by
      have hread : leAt (slice (leBytes (k + 1) n) 1 k) 0 k = leAt (leBytes (k + 1) n) 1 k :=
        leAt_slice (by omega)
      rw [← hread]
      congr 1
      simp [slice, leBytes, take_of_length_le]
    rw [leAt, htail, ih, pow_succ', mod_mul]
    simp [leBytes]

theorem leAt_putLe_self (h : off + k ≤ b.length) : leAt (putLe b off k n) off k = n % 256 ^ k := by
  have hslice : slice (putLe b off k n) off k = leBytes k n := by
    have hself : slice (putLe b off k n) off (leBytes k n).length = leBytes k n :=
      slice_patch_self (by simpa using h)
    rwa [length_leBytes] at hself
  have hread : leAt (slice (putLe b off k n) off k) 0 k = leAt (putLe b off k n) off k :=
    leAt_slice (by omega)
  rw [← hread, hslice, leAt_leBytes]

/-! ### Records of several fields -/

/-- A number to be stored in a record. -/
structure Field where
  off : Nat
  size : Nat
  value : Nat

/-- Two fields do not overlap. -/
def Field.Apart (f f' : Field) : Prop := f.off + f.size ≤ f'.off ∨ f'.off + f'.size ≤ f.off

/-- Store the fields one after the other. -/
def putFields (b : Bytes) : List Field → Bytes
  | [] => b
  | f :: fs => putFields (putLe b f.off f.size f.value) fs

variable {f : Field} {fs : List Field}

@[simp] theorem length_putFields : (putFields b fs).length = b.length := by
  induction fs generalizing b with
  | nil => rfl
  | cons f fs ih => rw [putFields, ih, length_putLe]

theorem getD_putFields_outside (h : ∀ f ∈ fs, i < f.off ∨ f.off + f.size ≤ i) :
    (putFields b fs).getD i 0 = b.getD i 0 := by
  induction fs generalizing b with
  | nil => rfl
  | cons f fs ih =>
    rw [putFields, ih fun f' hf' => h f' (.tail _ hf')]
    apply getD_patch_outside
    simpa using h f (.head _)

theorem leAt_putFields_of_apart (h : ∀ f' ∈ fs, f.Apart f') :
    leAt (putFields b fs) f.off f.size = leAt b f.off f.size := by
  induction fs generalizing b with
  | nil => rfl
  | cons f' fs ih =>
    rw [putFields, ih (fun f'' hf'' => h f'' (.tail _ hf''))]
    exact leAt_putLe_of_disjoint (h f' (.head _))

/-- Fields that do not overlap can all be read back. -/
theorem leAt_putFields (hf : f ∈ fs) (hapart : fs.Pairwise Field.Apart)
    (hfits : f.off + f.size ≤ b.length) :
    leAt (putFields b fs) f.off f.size = f.value % 256 ^ f.size := by
  induction fs generalizing b with
  | nil => cases hf
  | cons f' fs ih =>
    obtain ⟨hhead, htail⟩ := pairwise_cons.mp hapart
    rw [putFields]
    cases hf with
    | head => rw [leAt_putFields_of_apart hhead, leAt_putLe_self hfits]
    | tail _ hmem => exact ih hmem htail (by rwa [length_putLe])

end Base
