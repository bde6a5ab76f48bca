import Petra.Vm.Carve

/-! # Counting mapped addresses

On a valid set the sum of the record lengths is the number of mapped addresses, so what
an operation does to the total follows from what it does to each address.
-/

namespace Petra.Vm

open Base Nat Range

/-- The addresses of a range as a finite set. -/
def Range.addrs (r : Range) : Finset Nat := Finset.Ico r.start r.stop

theorem Range.mem_addrs {r : Range} {p : Nat} : p ∈ r.addrs ↔ r.Mem p := Finset.mem_Ico

namespace Mappings

variable {ms : Mappings} {τ : Type} {l : List VmMapping}

/-- The number of mapped addresses in a range. -/
def overlap (ms : Mappings) (range : Range) : Nat :=
  (range.addrs.filter (fun p => (ms.view p).isSome)).card

/-- Every address a record may cover. -/
def wholeSpace : Range := ⟨0, vmarCapAddr⟩

theorem card_filter_covers (range : Range) (m : VmMapping) :
    (range.addrs.filter m.Covers).card = (intersect range m.range).len := by
  have hset : range.addrs.filter m.Covers = (intersect range m.range).addrs := by
    ext p
    rw [Finset.mem_filter, mem_addrs, mem_addrs, mem_intersect]
    rfl
  rw [hset]
  exact card_Ico _ _

/-- Records that do not overlap are counted one by one. -/
theorem sum_card_filter (s : Finset Nat)
    (hapart : l.Pairwise VmMapping.Apart) (test : VmMapping → Nat → Bool) :
    (l.map (fun m => (s.filter (fun p => m.Covers p ∧ test m p = true)).card)).sum =
      (s.filter (fun p => ∃ m ∈ l, m.Covers p ∧ test m p = true)).card := by
  induction l with
  | nil => simp
  | cons m rest ih =>
    obtain ⟨hhead, hrest⟩ := List.pairwise_cons.mp hapart
    have hdisj : Disjoint (s.filter (fun p => m.Covers p ∧ test m p = true))
        (s.filter (fun p => ∃ k ∈ rest, k.Covers p ∧ test k p = true)) := by
      rw [Finset.disjoint_filter]
      rintro p - ⟨hp, -⟩ ⟨k, hk, hp', -⟩
      exact (hhead k hk).not_covers hp hp'
    rw [List.map_cons, List.sum_cons, ih hrest, ← Finset.card_union_of_disjoint hdisj,
      ← Finset.filter_or]
    congr 1
    apply Finset.filter_congr
    intro p _
    simp only [List.exists_mem_cons_iff]

variable {p : Nat}

section

variable (h : ms.Partition)

include h

theorem Partition.isSome_view : (ms.view p).isSome ↔ ∃ m ∈ ms.iter, m.Covers p := by
  rw [Option.isSome_iff_exists]
  constructor
  · rintro ⟨a, ha⟩
    obtain ⟨e, he, hcov, _⟩ := h.view_eq_some.mp ha
    exact ⟨e.2, h.mem_iter.mpr (h.keyed e he ▸ he), hcov⟩
  · rintro ⟨m, hm, hcov⟩
    exact ⟨_, h.view_eq_some.mpr ⟨_, h.mem_iter.mp hm, hcov, rfl⟩⟩

variable {range : Range}

theorem Partition.isSome_view_inside (hp : range.Mem p) :
    (ms.view p).isSome ↔ ∃ m ∈ ms.inside range, m.Covers p := by
  rw [h.isSome_view]
  constructor
  · rintro ⟨m, hm, hcov⟩
    refine ⟨m, h.mem_inside.mpr ⟨h.mem_iter.mp hm, ?_, ?_⟩, hcov⟩
    · exact lt_of_le_of_lt hp.1 hcov.2
    · exact lt_of_le_of_lt hcov.1 hp.2
  · rintro ⟨m, hm, hcov⟩
    exact ⟨m, (List.mem_filter.mp hm).1, hcov⟩

theorem Partition.sum_intersect (range : Range) :
    ((ms.inside range).map (fun m => (intersect range m.range).len)).sum = ms.overlap range := by
  have hsum := sum_card_filter range.addrs (h.inside_apart range) (fun _ _ => true)
  simp only [and_true, card_filter_covers] at hsum
  rw [hsum]
  congr 1
  apply Finset.filter_congr
  intro p hp
  rw [h.isSome_view_inside (mem_addrs.mp hp)]

theorem Partition.countOverlap (hrange : range.start ≤ range.stop) :
    ms.countOverlap range = .ok (ms.overlap range) := by
  unfold Mappings.countOverlap
  rw [h.iterRange hrange, ← h.sum_intersect]
  rfl

/-- The sum of the lengths counts every mapped address once. -/
theorem Partition.totalLen_eq : ms.totalLen = ms.overlap wholeSpace := by
  have hinside : ms.inside wholeSpace = ms.iter := by
    apply List.filter_eq_self.mpr
    intro m hm
    have hplaced := h.placed _ (h.mem_iter.mp hm)
    have hstop := hplaced.stop_le
    have hlt := m.start_lt_stop
    dsimp only at hstop
    unfold meets wholeSpace
    simp only [Bool.and_eq_true, decide_eq_true_eq]
    omega
  rw [← h.sum_intersect, hinside]
  unfold totalLen iter SortedMap.values
  rw [List.map_map]
  congr 1
  apply List.map_congr_left
  intro e he
  have hstop := (h.placed e he).stop_le
  unfold VmMapping.stop at hstop
  simp only [Function.comp, intersect, wholeSpace, len, VmMapping.range, VmMapping.stop]
  omega

theorem Partition.mem_wholeSpace {a : Attr} (ha : ms.view p = some a) : p ∈ wholeSpace.addrs := by
  obtain ⟨e, he, hcov, _⟩ := h.view_eq_some.mp ha
  rw [mem_addrs]
  exact ⟨zero_le p, hcov.2.trans_le (h.placed e he).stop_le⟩

end

theorem overlap_eq_len : ms.overlap range = range.len ↔ ∀ p, range.Mem p → (ms.view p).isSome := by
  have hcard : range.addrs.card = range.len := card_Ico _ _
  rw [← hcard, overlap, Finset.card_filter_eq_iff]
  simp only [mem_addrs]

theorem overlap_eq_zero : ms.overlap range = 0 ↔ ms.Free range := by
  rw [overlap, Finset.card_eq_zero, Finset.filter_eq_empty_iff]
  simp only [mem_addrs, Option.not_isSome_iff_eq_none]
  exact ⟨fun h p hstart hstop => h ⟨hstart, hstop⟩, fun h p hp => h p hp.1 hp.2⟩

theorem Partition.isFullyMapped (h : ms.Partition) (hrange : range.start ≤ range.stop) :
    ms.isFullyMapped range = .ok (ms.overlap range == range.len) := by
  unfold Mappings.isFullyMapped
  rw [h.countOverlap hrange]
  rfl

/-! ### What a carve counts -/

variable {ms' : Mappings} {op : CarveOp τ} {env env' : τ} {outcome : CarveOutcome}
  {results : List (List VmMapping × Option VmMapping)}
  {m : VmMapping}

theorem Partition.carve_mapped (hms : ms.Partition)
    (h : ms.carve range op env = .ok (ms', outcome, env')) : outcome.mapped = ms.overlap range := by
  obtain ⟨_, _, hlt, survivors, hpieces, _⟩ := carve_eq_ok hms h
  obtain ⟨results, _, _, hmapped, _⟩ := carvePieces_eq_ok (hms.pieces hlt) hpieces
  rw [hmapped, hms.sum_intersect]

/-- The mapped addresses of a range that another set does not map. -/
def lost (ms ms' : Mappings) (range : Range) : Finset Nat :=
  range.addrs.filter (fun p => (ms.view p).isSome ∧ (ms'.view p).isNone)

theorem sum_dropped
    (h : List.Forall₂ (fun m r => ∀ p, range.Mem p → m.Covers p → ms'.view p = newAttr r.2 p)
      l results) : droppedLen range l results =
    (l.map (fun m => (range.addrs.filter
      (fun p => m.Covers p ∧ (ms'.view p).isNone = true)).card)).sum := by
  induction h with
  | nil => rfl
  | @cons m r l results hview _ ih =>
    simp only [droppedLen, List.zip_cons_cons, List.map_cons, List.sum_cons]
    congr 1
    have hfilter : range.addrs.filter (fun p => m.Covers p ∧ (ms'.view p).isNone = true) =
        range.addrs.filter (fun p => m.Covers p ∧ r.2.isNone = true) := by
      apply Finset.filter_congr
      intro p hp
      apply and_congr_right
      intro hcov
      rw [hview p (mem_addrs.mp hp) hcov, newAttr, Option.isNone_map]
    rw [hfilter]
    cases r.2 with
    | none =>
      simp only [Option.isSome_none, Option.isNone_none, and_true, Bool.false_eq_true,
        if_false, card_filter_covers]
    | some k => simp

/-- What a carve in place counts as dropped is what the addresses of its range lose. -/
theorem Partition.card_lost (hms : ms.Partition) (h : Rewritten range ms ms' results) :
    droppedLen range (ms.inside range) results = (ms.lost ms' range).card := by
  rw [sum_dropped h.inside, sum_card_filter range.addrs (hms.inside_apart range)
    (fun _ p => (ms'.view p).isNone)]
  congr 1
  apply Finset.filter_congr
  intro p hp
  rw [hms.isSome_view_inside (mem_addrs.mp hp)]
  constructor
  · rintro ⟨m, hm, hcov, hnone⟩
    exact ⟨⟨m, hm, hcov⟩, hnone⟩
  · rintro ⟨⟨m, hm, hcov⟩, hnone⟩
    exact ⟨m, hm, hcov, hnone⟩

/-- The total after a carve in place is what the dropped pieces leave. -/
theorem Partition.carve_totalLen {eff : Attr → Option Attr} (hms : ms.Partition)
    (hop : Implements op eff) (h : ms.carve range op env = .ok (ms', outcome, env')) :
    ms'.totalLen + outcome.dropped = ms.totalLen := by
  obtain ⟨results, _, hnew, hdropped⟩ := hms.carve_rewritten hop h
  rw [hdropped, hms.card_lost hnew, hnew.partition.totalLen_eq, hms.totalLen_eq, overlap, ← Finset.card_union_of_disjoint]
  · congr 1
    ext p
    simp only [lost, Finset.mem_union, Finset.mem_filter, mem_addrs]
    constructor
    · rintro (⟨hspace, hsome⟩ | ⟨_, hsome, _⟩)
      · refine ⟨hspace, ?_⟩
        by_contra hnone
        rw [hnew.unmapped p (by simpa using hnone)] at hsome
        cases hsome
      · obtain ⟨a, ha⟩ := Option.isSome_iff_exists.mp hsome
        exact ⟨mem_addrs.mp (hms.mem_wholeSpace ha), hsome⟩
    · rintro ⟨hspace, hsome⟩
      cases hview : ms'.view p with
      | some b => exact .inl ⟨hspace, rfl⟩
      | none =>
        -- an address that is no longer mapped is one of the range
        refine .inr ⟨?_, hsome, rfl⟩
        by_contra hout
        rw [← hnew.outside p hout, hview] at hsome
        cases hsome
  · rw [Finset.disjoint_left]
    intro p hp hlost
    have hsome := (Finset.mem_filter.mp hp).2
    have hnone := (Finset.mem_filter.mp hlost).2.2
    rw [Option.isNone_iff_eq_none] at hnone
    rw [hnone] at hsome
    cases hsome

/-- The total after addresses of one range have been given up and those of another taken. -/
theorem Partition.totalLen_exchange (h : ms.Partition) (h' : ms'.Partition)
    (lost gained : Range) (hlost : ∀ p, lost.Mem p → (ms.view p).isSome)
    (hgained : ms.Free gained) (hcap : gained.stop ≤ vmarCapAddr)
    (hview : ∀ p, (ms'.view p).isSome ↔ (ms.view p).isSome ∧ ¬ lost.Mem p ∨ gained.Mem p) :
    ms'.totalLen + lost.len = ms.totalLen + gained.len := by
  have hcard : ∀ r : Range, r.addrs.card = r.len := fun r => card_Ico _ _
  rw [h.totalLen_eq, h'.totalLen_eq, ← hcard lost, ← hcard gained, overlap, overlap,
    ← Finset.card_union_of_disjoint, ← Finset.card_union_of_disjoint]
  · congr 1
    ext p
    simp only [Finset.mem_union, Finset.mem_filter, mem_addrs, hview]
    constructor
    · rintro (⟨hspace, ⟨hsome, _⟩ | hp⟩ | hp)
      · exact .inl ⟨hspace, hsome⟩
      · exact .inr hp
      · obtain ⟨a, ha⟩ := Option.isSome_iff_exists.mp (hlost p hp)
        exact .inl ⟨mem_addrs.mp (h.mem_wholeSpace ha), hlost p hp⟩
    · rintro (⟨hspace, hsome⟩ | hp)
      · by_cases hp : lost.Mem p
        · exact .inr hp
        · exact .inl ⟨hspace, .inl ⟨hsome, hp⟩⟩
      · exact .inl ⟨⟨zero_le p, hp.2.trans_le hcap⟩, .inr hp⟩
  · rw [Finset.disjoint_left]
    intro p hp hgain
    have hnone := hgained p (mem_addrs.mp hgain).1 (mem_addrs.mp hgain).2
    have hsome := (Finset.mem_filter.mp hp).2
    simp [hnone] at hsome
  · rw [Finset.disjoint_left]
    intro p hp hl
    rw [mem_addrs] at hl
    rcases (hview p).mp (Finset.mem_filter.mp hp).2 with ⟨_, hnot⟩ | hg
    · exact hnot hl
    · have hsome := hlost p hl
      simp [hgained p hg.1 hg.2] at hsome

theorem totalLen_erase (hm : (m.start, m) ∈ ms.map.entries) :
    (⟨ms.map.erase m.start⟩ : Mappings).totalLen + m.len = ms.totalLen := by
  have hperm := SortedMap.perm_erase (SortedMap.get?_eq_some.mpr hm)
  unfold totalLen
  rw [(hperm.map (fun e => e.2.len)).sum_eq, List.map_cons, List.sum_cons, add_comm]

/-- Putting in a record adds its length. -/
theorem Fits.totalLen_insert (h : ms.Fits m)
    (h' : ms'.Partition) (hview : ms'.view = ms.viewWith m) :
    ms'.totalLen = ms.totalLen + m.len := by
  have hempty : ∀ p, ¬ (⟨0, 0⟩ : Range).Mem p := fun p hp => not_lt_zero p hp.2
  have hlen : m.range.len = m.len := Nat.add_sub_cancel_left m.start m.len
  rw [← hlen]
  apply h.partition.totalLen_exchange h' ⟨0, 0⟩ m.range _ h.free h.placed.stop_le
  · intro p
    rw [hview, viewWith, VmMapping.mem_range]
    by_cases hcov : m.Covers p
    · simp [hcov]
    · simp [hcov, hempty p]
  · exact fun p hp => absurd hp (hempty p)

end Mappings

end Petra.Vm
