import Mathlib

/-! # Byte strings and byte-addressed storage

A byte string is a list. Storage maps addresses to bytes, and is read and written in
stretches. Writing one stretch and then the next is writing both at once.
-/

namespace Base

open List

abbrev Bytes := List UInt8

/-- Storage addressed by bytes. -/
abbrev Storage := Nat → UInt8

namespace Storage

/-- The bytes of a stretch. -/
def read (s : Storage) (off len : Nat) : Bytes := (List.range len).map (fun i => s (off + i))

/-- Overwrite a stretch. -/
def write (s : Storage) (off : Nat) (b : Bytes) : Storage := fun a =>
  if off ≤ a ∧ a < off + b.length then b.getD (a - off) 0 else s a

variable {s : Storage} {off len : Nat} {b c : Bytes} {a : Nat}

@[simp] theorem length_read : (s.read off len).length = len := by simp [read]

theorem read_getD {i : Nat} (h : i < len) : (s.read off len).getD i 0 = s (off + i) := by
  simp [read, h]

theorem read_congr {t : Storage} (h : ∀ i < len, s (off + i) = t (off + i)) :
    s.read off len = t.read off len := by
  apply map_congr_left
  intro i hi
  exact h i (mem_range.mp hi)

theorem read_add (s : Storage) (off m n : Nat) :
    s.read off (m + n) = s.read off m ++ s.read (off + m) n := by
  unfold read
  rw [range_add, map_append, map_map]
  congr 1
  apply map_congr_left
  intro i _
  simp [Nat.add_assoc]

/-- A stretch and the rest of it. -/
theorem read_split {m n : Nat} (h : m ≤ n) :
    s.read off m ++ s.read (off + m) (n - m) = s.read off n := by
  rw [← read_add, Nat.add_sub_cancel' h]

theorem take_read {m n : Nat} (h : m ≤ n) : (s.read off n).take m = s.read off m := by
  rw [← read_split h, take_left' length_read]

theorem drop_read {m n : Nat} (h : m ≤ n) :
    (s.read off n).drop m = s.read (off + m) (n - m) := by
  rw [← read_split h, drop_left' length_read]

theorem write_inside (h : off ≤ a) (h' : a < off + b.length) :
    s.write off b a = b.getD (a - off) 0 := if_pos ⟨h, h'⟩

theorem write_outside (h : a < off ∨ off + b.length ≤ a) : s.write off b a = s a := by
  apply if_neg
  omega

@[simp] theorem write_nil (s : Storage) (off : Nat) : s.write off [] = s := by
  funext a
  apply write_outside
  rw [length_nil]
  omega

theorem read_write_self (s : Storage) (off : Nat) (b : Bytes) :
    (s.write off b).read off b.length = b := by
  apply ext_getElem
  · simp
  · intro i hi hi'
    simp only [read, getElem_map, getElem_range]
    rw [write_inside (by omega) (by omega)]
    simp [hi']

/-- Stretches that do not meet do not affect each other. -/
theorem read_write_of_disjoint {off' : Nat} (h : off + len ≤ off' ∨ off' + b.length ≤ off) :
    (s.write off' b).read off len = s.read off len := by
  apply read_congr
  intro i hi
  apply write_outside
  omega

theorem write_append (s : Storage) (off : Nat) (b c : Bytes) :
    (s.write off b).write (off + b.length) c = s.write off (b ++ c) := by
  funext a
  by_cases hlow : a < off
  · rw [write_outside (.inl (by omega)), write_outside (.inl hlow), write_outside (.inl hlow)]
  by_cases hmid : a < off + b.length
  · rw [write_outside (.inl hmid), write_inside (by omega) hmid,
      write_inside (by omega) (by rw [length_append]; omega)]
    rw [getD_append _ _ _ _ (by omega)]
  by_cases hhigh : a < off + b.length + c.length
  · rw [write_inside (by omega) hhigh, write_inside (by omega) (by rw [length_append]; omega),
      getD_append_right _ _ _ _ (by omega)]
    congr 1
    omega
  · rw [write_outside (.inr (by omega)), write_outside (.inr (by omega)),
      write_outside (.inr (by rw [length_append]; omega))]

/-- Writing back what was read changes nothing. -/
theorem write_read (s : Storage) (off len : Nat) : s.write off (s.read off len) = s := by
  funext a
  by_cases hin : off ≤ a ∧ a < off + len
  · rw [write_inside hin.1 (by rw [length_read]; exact hin.2), read_getD (by omega)]
    congr 1
    omega
  · apply write_outside
    rw [length_read]
    omega

/-- Bytes that are read, changed in the middle and written back. -/
theorem write_between (s : Storage) (off m n : Nat) (b : Bytes) :
    s.write off (s.read off m ++ b ++ s.read (off + m + b.length) n) = s.write (off + m) b := by
  rw [← write_append, ← write_append, write_read, length_append, length_read]
  have hrest : s.read (off + m + b.length) n =
      (s.write (off + m) b).read (off + m + b.length) n := by
    rw [read_write_of_disjoint (.inr (Nat.le_refl _))]
  rw [hrest, ← Nat.add_assoc, write_read]

end Storage

end Base
