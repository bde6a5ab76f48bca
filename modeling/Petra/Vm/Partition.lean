import Petra.Vm.Mappings

/-! # The partition invariant of the record set

The records of an address space are kept under their own start, are non-empty and
page-aligned, lie between the address bounds, and do not overlap. What a valid set
means is the map from addresses to the properties in force there.
-/

namespace Petra.Vm

open Base SortedMap Option VmMapping Bool

/-- The properties in force at one address. -/
structure Attr where
  perms : VmPerms
  shared : Bool
  growsDown : Bool
  locked : Bool
  dontFork : Bool
  wipeOnFork : Bool
  /-- The object behind the address and the offset in it. -/
  backing : Option (Nat × Nat)
  deriving DecidableEq, Repr

namespace VmMapping

/-- The properties a record gives to an address it covers. -/
def attrAt (m : VmMapping) (p : Nat) : Attr where
  perms := m.perms
  shared := m.shared
  growsDown := m.growsDown
  locked := m.locked
  dontFork := m.dontFork
  wipeOnFork := m.wipeOnFork
  backing := m.backing.map (fun b => (b.ptr, m.backingOffset + (p - m.start)))

def Covers (m : VmMapping) (p : Nat) : Prop := m.start ≤ p ∧ p < m.stop
deriving Decidable

/-- A record that may stand in the set: page-aligned and inside the address bounds. -/
structure Placed (m : VmMapping) : Prop where
  start_aligned : pageSize ∣ m.start
  len_aligned : pageSize ∣ m.len
  lowest_le : vmarLowestAddr ≤ m.start
  stop_le : m.stop ≤ vmarCapAddr

instance (m : VmMapping) : Decidable m.Placed :=
  decidable_of_iff (pageSize ∣ m.start ∧ pageSize ∣ m.len ∧ vmarLowestAddr ≤ m.start ∧
    m.stop ≤ vmarCapAddr)
    ⟨fun ⟨hstart, hlen, hlow, hstop⟩ => ⟨hstart, hlen, hlow, hstop⟩,
      fun h => ⟨h.start_aligned, h.len_aligned, h.lowest_le, h.stop_le⟩⟩

/-- Two records that do not overlap. -/
def Apart (a b : VmMapping) : Prop := a.stop ≤ b.start ∨ b.stop ≤ a.start
deriving Decidable

theorem start_lt_stop (m : VmMapping) : m.start < m.stop :=
  Nat.lt_add_of_pos_right m.len_pos

theorem covers_start (m : VmMapping) : m.Covers m.start := ⟨le_rfl, m.start_lt_stop⟩

variable {p : Nat} {m a b : VmMapping}

theorem Apart.symm (h : a.Apart b) : b.Apart a := Or.symm h

theorem Placed.stop_aligned (h : m.Placed) : pageSize ∣ m.stop :=
  Nat.dvd_add h.start_aligned h.len_aligned

/-- Records without a common address do not overlap. -/
theorem apart_of_not_covers (h : ∀ p, a.Covers p → ¬ b.Covers p) : a.Apart b := by
  have ha := a.start_lt_stop
  have hb := b.start_lt_stop
  by_contra hnot
  unfold Apart at hnot
  have hcommon := h (max a.start b.start) ⟨by omega, by omega⟩
  exact hcommon ⟨by omega, by omega⟩

theorem Apart.not_covers (h : a.Apart b) (ha : a.Covers p) :
    ¬ b.Covers p := by
  unfold Apart at h
  unfold Covers at ha ⊢
  omega

/-! ### Merging -/

variable {l r : VmMapping} (h : l.canMerge r = true)

include h

theorem attrAt_eq_of_canMerge {p : Nat} (hp : r.start ≤ p) : l.attrAt p = r.attrAt p := by
  simp only [canMerge, and_eq_true, beq_iff_eq] at h
  obtain ⟨⟨⟨⟨⟨⟨⟨hstop, hshared⟩, hgrows⟩, hlocked⟩, hfork⟩, hwipe⟩, hperms⟩, hbacking⟩ := h
  have hoffset : l.backing.map (fun b => (b.ptr, l.backingOffset + (p - l.start))) =
      r.backing.map (fun b => (b.ptr, r.backingOffset + (p - r.start))) := by
    unfold stop at hstop
    cases hlb : l.backing with
    | none => cases hrb : r.backing <;> simp_all
    | some lb =>
      cases hrb : r.backing with
      | none => simp [hlb, hrb] at hbacking
      | some rb =>
        simp only [hlb, hrb, and_eq_true, beq_iff_eq] at hbacking
        simp only [map_some, some.injEq, Prod.mk.injEq]
        exact ⟨hbacking.1, by omega⟩
  simp [attrAt, hshared, hgrows, hlocked, hfork, hwipe, hperms, hoffset]

theorem stop_eq_of_canMerge : l.stop = r.start := by
  simp only [canMerge, and_eq_true, beq_iff_eq] at h
  exact h.1.1.1.1.1.1.1

omit h in
theorem merged_start : (merged l r).start = l.start := rfl

theorem merged_stop : (merged l r).stop = r.stop := by
  have hstop := stop_eq_of_canMerge h
  unfold stop merged at *
  dsimp only
  omega

theorem merged_covers : (merged l r).Covers p ↔ l.Covers p ∨ r.Covers p := by
  have hstop := stop_eq_of_canMerge h
  have hl := l.start_lt_stop
  have hr := r.start_lt_stop
  unfold Covers
  rw [merged_stop h]
  change l.start ≤ p ∧ p < r.stop ↔ _
  omega

theorem Placed.merged (hl : l.Placed) (hr : r.Placed) : (merged l r).Placed where
  start_aligned := hl.start_aligned
  len_aligned := Nat.dvd_add hl.len_aligned hr.len_aligned
  lowest_le := hl.lowest_le
  stop_le := merged_stop h ▸ hr.stop_le

end VmMapping

namespace Mappings

/-- The record set is a partition of the addresses it covers. -/
structure Partition (ms : Mappings) : Prop where
  keyed : ∀ e ∈ ms.map.entries, e.1 = e.2.start
  placed : ∀ e ∈ ms.map.entries, e.2.Placed
  apart : ∀ a ∈ ms.map.entries, ∀ b ∈ ms.map.entries, a.1 ≠ b.1 → a.2.Apart b.2

instance (ms : Mappings) : Decidable ms.Partition :=
  decidable_of_iff ((∀ e ∈ ms.map.entries, e.1 = e.2.start) ∧
    (∀ e ∈ ms.map.entries, e.2.Placed) ∧
    ∀ a ∈ ms.map.entries, ∀ b ∈ ms.map.entries, a.1 ≠ b.1 → a.2.Apart b.2)
    ⟨fun ⟨hkeyed, hplaced, hapart⟩ => ⟨hkeyed, hplaced, hapart⟩,
      fun h => ⟨h.keyed, h.placed, h.apart⟩⟩

/-- The properties in force at an address, if it is mapped. -/
def view (ms : Mappings) (p : Nat) : Option Attr := (ms.get p).map (fun m => m.attrAt p)

/-- The sum of the lengths of the records. -/
def totalLen (ms : Mappings) : Nat := (ms.map.entries.map (fun e => e.2.len)).sum

/-- No address of a range is mapped. -/
def Free (ms : Mappings) (range : Range) : Prop :=
  ∀ p, range.start ≤ p → p < range.stop → ms.view p = none

variable {ms : Mappings}

section

variable (h : ms.Partition)

include h

theorem Partition.eq_of_covers {a b : Nat × VmMapping} (ha : a ∈ ms.map.entries)
    (hb : b ∈ ms.map.entries) (hap : a.2.Covers p) (hbp : b.2.Covers p) : a = b := by
  by_contra hne
  have hkey : a.1 ≠ b.1 := fun heq => hne (eq_of_mem_of_key ha hb heq)
  exact (h.apart a ha b hb hkey).not_covers hap hbp

theorem Partition.get_eq_some :
    ms.get p = some m ↔ (m.start, m) ∈ ms.map.entries ∧ m.Covers p := by
  unfold get
  constructor
  · intro hget
    obtain ⟨hlast, hstop⟩ := filter_eq_some_iff.mp hget
    obtain ⟨e, he, rfl⟩ := map_eq_some_iff.mp hlast
    obtain ⟨hmem, hle⟩ := atMost?_eq_some he
    have hkey := h.keyed e hmem
    exact ⟨hkey ▸ hmem, hkey ▸ hle, by simpa using hstop⟩
  rintro ⟨hmem, hcov⟩
  cases hlast : ms.map.atMost? p with
  | none => exact absurd (atMost?_eq_none hlast hmem) (not_lt.mpr hcov.1)
  | some e =>
    -- the last record starting at or below `p` starts inside `m`, so it is `m`
    have he := atMost?_eq_some hlast
    have hle := le_atMost? hlast hmem hcov.1
    have hkey := h.keyed e he.1
    have heq : e = (m.start, m) := by
      apply h.eq_of_covers he.1 hmem e.2.covers_start
      exact ⟨hkey ▸ hle, lt_of_le_of_lt (hkey ▸ he.2) hcov.2⟩
    subst heq
    simp [hcov.2]

theorem Partition.view_eq_some {a : Attr} :
    ms.view p = some a ↔ ∃ e ∈ ms.map.entries, e.2.Covers p ∧ e.2.attrAt p = a := by
  unfold view
  rw [map_eq_some_iff]
  constructor
  · rintro ⟨m, hget, hattr⟩
    obtain ⟨hmem, hcov⟩ := h.get_eq_some.mp hget
    exact ⟨_, hmem, hcov, hattr⟩
  · rintro ⟨e, hmem, hcov, hattr⟩
    exact ⟨e.2, h.get_eq_some.mpr ⟨h.keyed e hmem ▸ hmem, hcov⟩, hattr⟩

theorem Partition.view_eq_none :
    ms.view p = none ↔ ∀ e ∈ ms.map.entries, ¬ e.2.Covers p := by
  rw [eq_none_iff_forall_ne_some]
  constructor
  · intro hnone e hmem hcov
    exact hnone _ (h.view_eq_some.mpr ⟨e, hmem, hcov, rfl⟩)
  · intro hnone a ha
    obtain ⟨e, hmem, hcov, _⟩ := h.view_eq_some.mp ha
    exact hnone e hmem hcov

theorem Partition.apart_of_free (hfree : ms.Free m.range) {e : Nat × VmMapping}
    (he : e ∈ ms.map.entries) : e.2.Apart m := by
  apply VmMapping.Apart.symm
  apply apart_of_not_covers
  intro p hcov
  exact h.view_eq_none.mp (hfree p hcov.1 hcov.2) e he

/-! ### Taking one record out and putting one in -/

theorem Partition.filter (keep : Nat → VmMapping → Bool) :
    (⟨ms.map.filter keep⟩ : Mappings).Partition where
  keyed e he := h.keyed e (mem_filter.mp he).1
  placed e he := h.placed e (mem_filter.mp he).1
  apart a ha b hb := h.apart a (mem_filter.mp ha).1 b (mem_filter.mp hb).1

theorem Partition.view_erase (hm : (m.start, m) ∈ ms.map.entries) (p : Nat) :
    (⟨ms.map.erase m.start⟩ : Mappings).view p = if m.Covers p then none else ms.view p := by
  have hrest := h.filter (fun k _ => k ≠ m.start)
  change (⟨ms.map.filter _⟩ : Mappings).view p = _
  split_ifs with hcov
  · rw [hrest.view_eq_none]
    intro e he hcov'
    obtain ⟨hmem, hkey⟩ := mem_filter.mp he
    exact absurd (congrArg Prod.fst (h.eq_of_covers hmem hm hcov' hcov)) (by simpa using hkey)
  ext a
  rw [hrest.view_eq_some, h.view_eq_some]
  constructor
  · rintro ⟨e, he, hattr⟩
    exact ⟨e, (mem_filter.mp he).1, hattr⟩
  rintro ⟨e, he, hcov', hattr⟩
  refine ⟨e, mem_filter.mpr ⟨he, ?_⟩, hcov', hattr⟩
  simp only [decide_not, not_eq_true', decide_eq_false_iff_not]
  intro hkey
  rw [eq_of_mem_of_key he hm hkey] at hcov'
  exact hcov hcov'

end

/-- A record that can be put in without touching another one. -/
structure Fits (ms : Mappings) (m : VmMapping) : Prop where
  partition : ms.Partition
  placed : m.Placed
  free : ms.Free m.range

/-- What is in force once a record has been put in. -/
def viewWith (ms : Mappings) (m : VmMapping) (p : Nat) : Option Attr :=
  if m.Covers p then some (m.attrAt p) else ms.view p

variable {m : VmMapping} (h : ms.Fits m)

include h

theorem Fits.get?_start : ms.map.get? m.start = none := by
  rw [get?_eq_none]
  intro e he hkey
  have hstart := h.partition.keyed e he
  apply (h.partition.apart_of_free h.free he).not_covers e.2.covers_start
  rw [← hstart, hkey]
  exact m.covers_start

theorem Fits.partition_insert : (⟨ms.map.insert m.start m⟩ : Mappings).Partition := by
  have hcases : ∀ e ∈ (ms.map.insert m.start m).entries, e = (m.start, m) ∨ e ∈ ms.map.entries := by
    intro e he
    exact (mem_insert.mp he).imp_right And.right
  refine ⟨?_, ?_, ?_⟩
  · intro e he
    rcases hcases e he with rfl | he
    · rfl
    · exact h.partition.keyed e he
  · intro e he
    rcases hcases e he with rfl | he
    · exact h.placed
    · exact h.partition.placed e he
  intro a ha b hb hkey
  rcases hcases a ha with rfl | ha <;> rcases hcases b hb with rfl | hb
  · exact absurd rfl hkey
  · exact (h.partition.apart_of_free h.free hb).symm
  · exact h.partition.apart_of_free h.free ha
  · exact h.partition.apart a ha b hb hkey

theorem Fits.view_insert (p : Nat) :
    (⟨ms.map.insert m.start m⟩ : Mappings).view p = ms.viewWith m p := by
  have hself : (m.start, m) ∈ (ms.map.insert m.start m).entries :=
    mem_insert.mpr (.inl rfl)
  have hkeep : ∀ e ∈ ms.map.entries, e ∈ (ms.map.insert m.start m).entries := by
    intro e he
    refine mem_insert.mpr (.inr ⟨?_, he⟩)
    exact get?_eq_none.mp h.get?_start e he
  unfold viewWith
  ext a
  rw [h.partition_insert.view_eq_some]
  split_ifs with hcov
  · constructor
    · rintro ⟨e, he, hcov', rfl⟩
      rw [h.partition_insert.eq_of_covers he hself hcov' hcov]
    · intro ha
      exact ⟨_, hself, hcov, some.inj ha⟩
  · rw [h.partition.view_eq_some]
    constructor
    · rintro ⟨e, he, hcov', hattr⟩
      rcases mem_insert.mp he with rfl | ⟨_, he⟩
      · exact absurd hcov' hcov
      · exact ⟨e, he, hcov', hattr⟩
    · rintro ⟨e, he, hcov', hattr⟩
      exact ⟨e, hkeep e he, hcov', hattr⟩

/-- Taking out a record that merges with a new one leaves room for the merged one. -/
theorem Fits.of_erase {joined other : VmMapping} (hother : (other.start, other) ∈ ms.map.entries)
    (hjoined : joined.Placed) (hcov : ∀ p, joined.Covers p ↔ other.Covers p ∨ m.Covers p)
    (hattr : ∀ p, m.Covers p → joined.attrAt p = m.attrAt p)
    (hattr' : ∀ p, other.Covers p → joined.attrAt p = other.attrAt p) :
    (⟨ms.map.erase other.start⟩ : Mappings).Fits joined ∧
      (⟨ms.map.erase other.start⟩ : Mappings).viewWith joined = ms.viewWith m := by
  have hview := h.partition.view_erase hother
  refine ⟨⟨h.partition.filter _, hjoined, ?_⟩, ?_⟩
  · intro p hstart hstop
    rw [hview]
    rcases (hcov p).mp ⟨hstart, hstop⟩ with hp | hp
    · exact if_pos hp
    · split_ifs
      · rfl
      · exact h.free p hp.1 hp.2
  · funext p
    unfold viewWith
    rw [hview]
    by_cases hm : m.Covers p
    · rw [if_pos ((hcov p).mpr (.inr hm)), if_pos hm, hattr p hm]
    · by_cases ho : other.Covers p
      · rw [if_pos ((hcov p).mpr (.inl ho)), if_neg hm, hattr' p ho, eq_comm]
        exact h.partition.view_eq_some.mpr ⟨_, hother, ho, rfl⟩
      · rw [if_neg (by rw [hcov p]; exact fun hp => hp.elim ho hm), if_neg ho, if_neg hm]

/-- Joining a record that fits to its neighbour leaves one that fits. -/
theorem Fits.joins {out : VmMapping × Mappings} (hjoins : ms.Joins m out) :
    out.2.Fits out.1 ∧ out.2.viewWith out.1 = ms.viewWith m := by
  cases hjoins with
  | alone => exact ⟨h, rfl⟩
  | below he hmerge =>
    apply h.of_erase (h.partition.keyed _ he ▸ he) ((h.partition.placed _ he).merged hmerge h.placed)
    · exact fun p => merged_covers hmerge
    · exact fun p hp => attrAt_eq_of_canMerge hmerge hp.1
    · exact fun p _ => rfl
  | above he hmerge =>
    apply h.of_erase (h.partition.keyed _ he ▸ he) (h.placed.merged hmerge (h.partition.placed _ he))
    · exact fun p => (merged_covers hmerge).trans or_comm
    · exact fun p _ => rfl
    · exact fun p hp => attrAt_eq_of_canMerge hmerge hp.1

/-- Putting in a record that fits never fails and changes only the addresses it covers. -/
theorem Fits.insert : ∃ ms', ms.insert m = .ok ms' ∧ ms'.Partition ∧ ms'.view = ms.viewWith m := by
  obtain ⟨hprev, hprevView⟩ := h.joins (joins_mergePrev ms m)
  obtain ⟨hnext, hnextView⟩ := hprev.joins (joins_mergeNext ..)
  refine ⟨⟨_⟩, ?_, hnext.partition_insert, ?_⟩
  · unfold Mappings.insert
    simp only [hnext.get?_start, isSome_none, false_eq_true, if_false]
  · funext p
    rw [hnext.view_insert, hnextView, hprevView]

end Mappings

end Petra.Vm
