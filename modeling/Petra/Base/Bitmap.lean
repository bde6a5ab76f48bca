import Petra.Base.Fields

/-! # Bitmaps

A byte string as a sequence of bits, the lowest bit of each byte first: single bits, the
first clear bit, and the number of clear bits.
-/

namespace Base

open List Nat

def bitAt (bm : Bytes) (i : Nat) : Bool := (bm.getD (i / 8) 0).toNat.testBit (i % 8)

/-- The byte in which only bit `k` is set. -/
def maskOf (k : Nat) : UInt8 := 1 <<< UInt8.ofNat k

def setBit (bm : Bytes) (i : Nat) : Bytes := bm.modify (i / 8) (· ||| maskOf (i % 8))

def clearBit (bm : Bytes) (i : Nat) : Bytes := bm.modify (i / 8) (· &&& ~~~maskOf (i % 8))

variable {bm bm' : Bytes} {i j k n : Nat}

theorem toNat_maskOf (hk : k < 8) : (maskOf k).toNat = 2 ^ k := by
  have hall : ∀ k < 8, (maskOf k).toNat = 2 ^ k := by decide
  exact hall k hk

theorem and_maskOf_eq_zero (x : UInt8) (hk : k < 8) :
    x &&& maskOf k = 0 ↔ x.toNat.testBit k = false := by
  rw [← UInt8.toNat_inj, UInt8.toNat_and, toNat_maskOf hk, and_two_pow]
  cases x.toNat.testBit k with
  | false => simp
  | true => simp

theorem testBit_or_maskOf (x : UInt8) (hk : k < 8) :
    (x ||| maskOf k).toNat.testBit j = (x.toNat.testBit j || decide (k = j)) := by
  rw [UInt8.toNat_or, testBit_or, toNat_maskOf hk, testBit_two_pow]

theorem testBit_and_not_maskOf (x : UInt8) (hk : k < 8) (hj : j < 8) :
    (x &&& ~~~maskOf k).toNat.testBit j = (x.toNat.testBit j && !decide (k = j)) := by
  have hall : ∀ k < 8, ∀ j < 8, (~~~maskOf k).toNat.testBit j = !decide (k = j) := by decide
  rw [UInt8.toNat_and, testBit_and, hall k hk j hj]

/-! ### Single bits -/

@[simp] theorem length_setBit : (setBit bm i).length = bm.length := by simp [setBit]

@[simp] theorem length_clearBit : (clearBit bm i).length = bm.length := by simp [clearBit]

theorem bitAt_setBit (h : i / 8 < bm.length) :
    bitAt (setBit bm i) j = (bitAt bm j || decide (i = j)) := by
  unfold bitAt setBit
  by_cases hbyte : i / 8 = j / 8
  · rw [← hbyte, getD_modify_self h, testBit_or_maskOf _ (mod_lt _ (by omega))]
    congr 2
    exact propext ⟨fun h => by omega, fun h => by omega⟩
  · have hne : i ≠ j := fun h => hbyte (h ▸ rfl)
    rw [getD_modify_other hbyte]
    simp [hne]

theorem bitAt_clearBit (h : i / 8 < bm.length) :
    bitAt (clearBit bm i) j = (bitAt bm j && !decide (i = j)) := by
  unfold bitAt clearBit
  by_cases hbyte : i / 8 = j / 8
  · rw [← hbyte, getD_modify_self h,
      testBit_and_not_maskOf _ (mod_lt _ (by omega)) (mod_lt _ (by omega))]
    congr 3
    exact propext ⟨fun h => by omega, fun h => by omega⟩
  · have hne : i ≠ j := fun h => hbyte (h ▸ rfl)
    rw [getD_modify_other hbyte]
    simp [hne]

/-- Bitmaps of one length with the same bits are the same. -/
theorem bitmap_ext (hlen : bm.length = bm'.length) (h : ∀ i, bitAt bm i = bitAt bm' i) :
    bm = bm' := by
  apply bytes_ext hlen
  intro i _
  rw [← UInt8.toNat_inj]
  apply eq_of_testBit_eq
  intro k
  by_cases hk : k < 8
  · have hbit := h (8 * i + k)
    unfold bitAt at hbit
    rwa [show (8 * i + k) / 8 = i by omega, show (8 * i + k) % 8 = k by omega] at hbit
  · have hpow : 2 ^ 8 ≤ 2 ^ k := Nat.pow_le_pow_right (by omega) (by omega)
    rw [testBit_lt_two_pow ((UInt8.toNat_lt _).trans_le hpow),
      testBit_lt_two_pow ((UInt8.toNat_lt _).trans_le hpow)]

/-! ### The first clear bit -/

/-- The first clear bit from `i` on and before `n`. -/
def firstClear (bm : Bytes) (n i : Nat) : Option Nat :=
  (List.range' i (n - i)).find? fun p => !bitAt bm p

theorem firstClear_of_le (h : n ≤ i) : firstClear bm n i = none := by
  simp [firstClear, Nat.sub_eq_zero_of_le h]

theorem firstClear_of_clear (h : i < n) (hbit : bitAt bm i = false) :
    firstClear bm n i = some i := by
  rw [firstClear, show n - i = (n - i - 1) + 1 by omega, range'_succ]
  simp [hbit]

theorem firstClear_of_set (hbit : bitAt bm i = true) :
    firstClear bm n i = firstClear bm n (i + 1) := by
  by_cases h : i < n
  · rw [firstClear, show n - i = (n - (i + 1)) + 1 by omega, range'_succ]
    simp [hbit, firstClear]
  · rw [firstClear_of_le (by omega), firstClear_of_le (by omega)]

theorem firstClear_eq_some (h : firstClear bm n 0 = some i) :
    i < n ∧ bitAt bm i = false ∧ ∀ j < i, bitAt bm j = true := by
  rw [firstClear, ← range_eq_range', find?_range_eq_some] at h
  obtain ⟨hbit, hmem, hbelow⟩ := h
  exact ⟨mem_range.mp hmem, by simpa using hbit, fun j hj => by simpa using hbelow j hj⟩

/-! ### Counting clear bits -/

/-- The number of clear bits before `n`. -/
def clearBits (bm : Bytes) (n : Nat) : Nat := Nat.count (fun i => bitAt bm i = false) n

theorem clearBits_le (bm : Bytes) (n : Nat) : clearBits bm n ≤ n := count_le _

theorem clearBits_succ (bm : Bytes) (n : Nat) :
    clearBits bm (n + 1) = clearBits bm n + if bitAt bm n = false then 1 else 0 :=
  count_succ _ _

theorem clearBits_congr (h : ∀ i < n, bitAt bm i = bitAt bm' i) :
    clearBits bm n = clearBits bm' n := by
  induction n with
  | zero => simp [clearBits]
  | succ n ih =>
    rw [clearBits_succ, clearBits_succ, ih (fun i hi => h i (by omega)), h n (by omega)]

/-- A bitmap with one bit more clear. -/
theorem clearBits_of_differ (hi : i < n) (hbit : bitAt bm i = true) (hbit' : bitAt bm' i = false)
    (hrest : ∀ j ≠ i, bitAt bm' j = bitAt bm j) : clearBits bm' n = clearBits bm n + 1 := by
  induction n with
  | zero => omega
  | succ n ih =>
    rw [clearBits_succ, clearBits_succ]
    by_cases hn : i = n
    · subst hn
      rw [clearBits_congr (fun j hj => hrest j (by omega)), hbit, hbit']
      simp
    · rw [hrest n (by omega)]
      omega

theorem clearBits_setBit (hi : i < n) (hlen : i / 8 < bm.length) (hbit : bitAt bm i = false) :
    clearBits bm n = clearBits (setBit bm i) n + 1 := by
  apply clearBits_of_differ hi _ hbit
  · intro j hj
    simp [bitAt_setBit hlen, hj.symm]
  · simp [bitAt_setBit hlen]

theorem clearBits_lt (hi : i < n) (hbit : bitAt bm i = true) : clearBits bm n < n := by
  induction n with
  | zero => omega
  | succ n ih =>
    rw [clearBits_succ]
    by_cases hn : i = n
    · subst hn
      have hle := clearBits_le bm i
      simp [hbit]
      omega
    · split <;> omega

theorem exists_clear (h : 0 < clearBits bm n) : ∃ i < n, bitAt bm i = false := by
  by_contra hnone
  push Not at hnone
  have hzero : clearBits bm n = 0 := count_iff_forall_not.mpr fun i hi => hnone i hi
  omega

theorem exists_set (h : clearBits bm n < n) : ∃ i < n, bitAt bm i = true := by
  by_contra hnone
  push Not at hnone
  have hall : clearBits bm n = n :=
    count_iff_forall.mpr fun i hi => Bool.eq_false_iff.mpr (hnone i hi)
  omega

/-! ### Clearing a stretch -/

def clearBitRange (bm : Bytes) (first : Nat) : (len : Nat) → Bytes
  | 0 => bm
  | len + 1 => clearBit (clearBitRange bm first len) (first + len)

variable {first len : Nat}

@[simp] theorem length_clearBitRange : (clearBitRange bm first len).length = bm.length := by
  induction len with
  | zero => rfl
  | succ len ih => rw [clearBitRange, length_clearBit, ih]

theorem bitAt_clearBitRange (h : first + len ≤ 8 * bm.length) :
    bitAt (clearBitRange bm first len) j = (bitAt bm j && !decide (first ≤ j ∧ j < first + len)) := by
  induction len with
  | zero => simp [clearBitRange]; omega
  | succ len ih =>
    rw [clearBitRange, bitAt_clearBit (by rw [length_clearBitRange]; omega), ih (by omega)]
    rw [Bool.and_assoc, ← Bool.not_or, ← Bool.decide_or]
    congr 3
    exact propext ⟨fun h => by omega, fun h => by omega⟩

theorem clearBits_clearBitRange (h : first + len ≤ n) (hlen : first + len ≤ 8 * bm.length)
    (hset : ∀ i, first ≤ i → i < first + len → bitAt bm i = true) :
    clearBits (clearBitRange bm first len) n = clearBits bm n + len := by
  induction len with
  | zero => rfl
  | succ len ih =>
    have hlast : bitAt (clearBitRange bm first len) (first + len) = true := by
      rw [bitAt_clearBitRange (by omega), hset _ (by omega) (by omega)]
      simp
    have hbyte : (first + len) / 8 < (clearBitRange bm first len).length := by
      rw [length_clearBitRange]
      omega
    have hmore : clearBits (clearBitRange bm first (len + 1)) n =
        clearBits (clearBitRange bm first len) n + 1 := by
      apply clearBits_of_differ (i := first + len) (by omega) hlast
      · simp [clearBitRange, bitAt_clearBit hbyte]
      · intro j hj
        simp [clearBitRange, bitAt_clearBit hbyte, hj.symm]
    rw [hmore, ih (by omega) (by omega) (fun i hlow hhigh => hset i hlow (by omega))]
    omega

end Base
