import Mathlib

/-! # Things filed under keys

Every key has a list, and a thing is in one list at most, and there once.
-/

namespace Base

open Function (update_self update_of_ne)

variable {κ α : Type} [DecidableEq κ]

structure Filed (q : κ → List α) : Prop where
  once : ∀ key, (q key).Nodup
  apart : ∀ key key' a, a ∈ q key → a ∈ q key' → key = key'

variable {key : κ} {l : List α} {q : κ → List α}

/-- One list is replaced by things that are in no other list. -/
theorem Filed.update (h : Filed q) (hl : l.Nodup)
    (hother : ∀ a ∈ l, ∀ key', a ∈ q key' → key' = key) : Filed (Function.update q key l) where
  once key' := by
    by_cases hkey : key' = key
    · subst hkey
      rw [update_self]
      exact hl
    · rw [update_of_ne hkey]
      exact h.once key'
  apart key₁ key₂ a h₁ h₂ := by
    by_cases hkey₁ : key₁ = key
    · by_cases hkey₂ : key₂ = key
      · rw [hkey₁, hkey₂]
      · subst hkey₁
        rw [update_self] at h₁
        rw [update_of_ne hkey₂] at h₂
        exact (hother a h₁ key₂ h₂).symm
    · rw [update_of_ne hkey₁] at h₁
      by_cases hkey₂ : key₂ = key
      · subst hkey₂
        rw [update_self] at h₂
        exact hother a h₂ key₁ h₁
      · rw [update_of_ne hkey₂] at h₂
        exact h.apart key₁ key₂ a h₁ h₂

/-- A list loses things. -/
theorem Filed.shrink (h : Filed q) (hsub : l.Sublist (q key)) : Filed (Function.update q key l) :=
  h.update (hsub.nodup (h.once key)) fun a ha key' hmem => h.apart key' key a hmem (hsub.subset ha)

theorem mem_update_iff {a : α} :
    (∃ key', a ∈ Function.update q key l key') ↔ a ∈ l ∨ ∃ key', key' ≠ key ∧ a ∈ q key' := by
  constructor
  · intro h
    obtain ⟨key', hmem⟩ := h
    by_cases hkey : key' = key
    · subst hkey
      rw [update_self] at hmem
      exact .inl hmem
    · rw [update_of_ne hkey] at hmem
      exact .inr ⟨key', hkey, hmem⟩
  · intro h
    rcases h with hmem | ⟨key', hkey, hmem⟩
    · exact ⟨key, by rwa [update_self]⟩
    · exact ⟨key', by rwa [update_of_ne hkey]⟩

variable {q : κ → List α} {old new key : κ} {a : α}

section Split

variable {moved kept : List α} (hne : old ≠ new) (hsplit : q old = moved ++ kept)

include hne hsplit

/-- Some of what is under one key goes to another. -/
theorem Filed.split (h : Filed q) :
    Filed (Function.update (Function.update q old kept) new (q new ++ moved)) := by
  have hmoved : ∀ a ∈ moved, a ∈ q old := fun a ha => hsplit ▸ List.mem_append_left _ ha
  have hkept : kept.Sublist (q old) := hsplit ▸ List.sublist_append_right ..
  have hnodup := h.once old
  rw [hsplit, List.nodup_append'] at hnodup
  refine (h.shrink hkept).update ?_ ?_
  · refine List.Nodup.append (h.once new) hnodup.1 ?_
    intro a hanew haold
    exact hne (h.apart old new a (hmoved a haold) hanew)
  intro a ha key' hkey'
  by_cases hold : key' = old
  · subst hold
    rw [update_self] at hkey'
    rcases List.mem_append.mp ha with ha | ha
    · exact h.apart key' new a (hkept.subset hkey') ha
    · exact absurd hkey' (hnodup.2.2 ha)
  · rw [update_of_ne hold] at hkey'
    rcases List.mem_append.mp ha with ha | ha
    · exact h.apart key' new a hkey' ha
    · exact absurd (h.apart key' old a hkey' (hmoved a ha)) hold

theorem mem_split :
    (∃ key, a ∈ Function.update (Function.update q old kept) new (q new ++ moved) key) ↔
      ∃ key, a ∈ q key := by
  constructor
  · rintro ⟨key, hkey⟩
    by_cases hnew : key = new
    · rw [hnew, update_self] at hkey
      rcases List.mem_append.mp hkey with hkey | hkey
      · exact ⟨new, hkey⟩
      · exact ⟨old, hsplit ▸ List.mem_append_left _ hkey⟩
    rw [update_of_ne hnew] at hkey
    by_cases hold : key = old
    · rw [hold, update_self] at hkey
      exact ⟨old, hsplit ▸ List.mem_append_right _ hkey⟩
    · rw [update_of_ne hold] at hkey
      exact ⟨key, hkey⟩
  · rintro ⟨key, hkey⟩
    by_cases hnew : key = new
    · refine ⟨new, ?_⟩
      rw [update_self, ← hnew]
      exact List.mem_append_left _ hkey
    by_cases hold : key = old
    · rw [hold, hsplit] at hkey
      rcases List.mem_append.mp hkey with hkey | hkey
      · refine ⟨new, ?_⟩
        rw [update_self]
        exact List.mem_append_right _ hkey
      · refine ⟨old, ?_⟩
        rw [update_of_ne hne, update_self]
        exact hkey
    · refine ⟨key, ?_⟩
      rw [update_of_ne hnew, update_of_ne hold]
      exact hkey

end Split

/-- All that is under one key goes to another. -/
def give (q : κ → List α) (old new : κ) : κ → List α :=
  Function.update (Function.update q old []) new (q new ++ q old)

theorem give_old (hne : old ≠ new) : give q old new old = [] := by
  rw [give, update_of_ne hne, update_self]

theorem give_new : give q old new new = q new ++ q old := update_self ..

theorem give_of_ne (hold : key ≠ old) (hnew : key ≠ new) : give q old new key = q key := by
  rw [give, update_of_ne hnew, update_of_ne hold]

theorem mem_of_mem_give (ha : a ∈ give q old new key) (hne : old ≠ new) :
    a ∈ q key ∨ key = new ∧ a ∈ q old := by
  by_cases hnew : key = new
  · rw [hnew, give_new] at ha
    rw [hnew]
    exact (List.mem_append.mp ha).imp_right fun ha => ⟨rfl, ha⟩
  by_cases hold : key = old
  · rw [hold, give_old hne] at ha
    cases ha
  · rw [give_of_ne hold hnew] at ha
    exact .inl ha

theorem Filed.give (h : Filed q) (hne : old ≠ new) : Filed (give q old new) :=
  h.split hne (List.append_nil _).symm

theorem mem_give (hne : old ≠ new) : (∃ key, a ∈ give q old new key) ↔ ∃ key, a ∈ q key :=
  mem_split hne (List.append_nil _).symm

end Base
