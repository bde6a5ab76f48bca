import Mathlib

/-! # Maps to sets

A key has a set of values, and no set is kept when it is empty.
-/

namespace Base

open Function Option Finset

variable {κ α β : Type} [DecidableEq κ] [DecidableEq α]

structure Multimap (κ α : Type) where
  sets : κ → Option (Finset α)

namespace Multimap

def Has (m : Multimap κ α) (key : κ) (a : α) : Prop := a ∈ (m.sets key).getD ∅

instance (m : Multimap κ α) (key : κ) (a : α) : Decidable (m.Has key a) :=
  inferInstanceAs (Decidable (a ∈ (m.sets key).getD ∅))

def empty : Multimap κ α := ⟨fun _ => none⟩

def add (m : Multimap κ α) (key : κ) (a : α) : Multimap κ α :=
  ⟨update m.sets key (some (insert a ((m.sets key).getD ∅)))⟩

def remove (m : Multimap κ α) (key : κ) (a : α) : Multimap κ α :=
  match m.sets key with
  | none => m
  | some set =>
    ⟨update m.sets key (if set.erase a = ∅ then none else some (set.erase a))⟩

/-- Take a value from one key to another. -/
def move (m : Multimap κ α) (a : α) (old new : κ) : Multimap κ α :=
  if old = new then m else (m.remove old a).add new a

variable {m : Multimap κ α} {key key' old new : κ} {a b : α}

omit [DecidableEq κ] [DecidableEq α] in
theorem not_has_empty : ¬(empty : Multimap κ α).Has key a := notMem_empty a

theorem has_add : (m.add key a).Has key' b ↔ (key' = key ∧ b = a) ∨ m.Has key' b := by
  dsimp only [Has, add]
  by_cases hkey : key' = key
  · subst hkey
    simp
  · simp [hkey]

theorem has_remove : (m.remove key a).Has key' b ↔ m.Has key' b ∧ ¬(key' = key ∧ b = a) := by
  unfold Has remove
  split
  next hnone =>
    by_cases hkey : key' = key
    · subst hkey
      simp [hnone]
    · simp [hkey]
  next set hset =>
    by_cases hkey : key' = key
    · subst hkey
      dsimp only
      rw [update_self]
      split
      next hempty =>
        have herase : b ∉ set.erase a := by
          rw [hempty]
          exact notMem_empty b
        rw [mem_erase] at herase
        simp only [hset, getD_none, getD_some, true_and]
        tauto
      next =>
        simp only [hset, getD_some, mem_erase]
        tauto
    · dsimp only
      simp [hkey]

/-- A value that was under its old key alone is under its new key alone, and the others are
where they were. -/
theorem has_move (hold : ∀ k, m.Has k a ↔ k = old) :
    (m.move a old new).Has key b ↔ if b = a then key = new else m.Has key b := by
  unfold move
  by_cases heq : old = new
  · rw [if_pos heq]
    by_cases hb : b = a
    · rw [if_pos hb, hb, hold, heq]
    · rw [if_neg hb]
  rw [if_neg heq, has_add, has_remove]
  by_cases hb : b = a
  · rw [if_pos hb, hb, hold]
    tauto
  · rw [if_neg hb]
    tauto

/-- The map has what a table has, each under its own key. -/
def Indexes (m : Multimap κ α) (table : α → Option β) (of : β → κ) : Prop :=
  ∀ key a, m.Has key a ↔ ∃ b, table a = some b ∧ key = of b

omit [DecidableEq κ] in
/-- One entry of the table changes, and its place in the map. -/
theorem Indexes.change {m' : Multimap κ α} {table table' : α → Option β} {of of' : β → κ}
    (h : m.Indexes table of) (hat : ∀ k, m'.Has k a ↔ ∃ b, table' a = some b ∧ k = of' b)
    (hne : ∀ c ≠ a, table' c = table c ∧ (∀ k, m'.Has k c ↔ m.Has k c) ∧
      ∀ b, table c = some b → of' b = of b) : m'.Indexes table' of' := by
  intro key c
  by_cases hc : c = a
  · rw [hc]
    exact hat key
  · obtain ⟨htable, hhas, hof⟩ := hne c hc
    rw [htable, hhas, h]
    constructor
    all_goals
      rintro ⟨b, hb, rfl⟩
      exact ⟨b, hb, by rw [hof b hb]⟩

end Multimap

end Base
