import Petra.Vm.Partition

/-! # Carving a range out of the record set

A carve takes out the records that meet a range, splits off what lies outside,
applies an operation to the pieces inside and puts the survivors back. On a valid
set it is a pointwise update of the addresses of the range.
-/

namespace Petra.Vm

open Base List SortedMap Option Nat VmMapping

/-- The addresses of a range. -/
def Range.Mem (r : Range) (p : Nat) : Prop := r.start ≤ p ∧ p < r.stop
deriving Decidable

theorem mem_intersect {a b : Range} {p : Nat} : (intersect a b).Mem p ↔ a.Mem p ∧ b.Mem p := by
  unfold Range.Mem intersect
  dsimp only
  omega

variable {m middle : VmMapping}

theorem VmMapping.mem_range {p : Nat} : m.range.Mem p ↔ m.Covers p := Iff.rfl

namespace Mappings

variable {ms : Mappings}

/-! ### Putting several records in -/

/-- Records that can be put in one after the other. -/
structure FitAll (ms : Mappings) (l : List VmMapping) : Prop where
  partition : ms.Partition
  placed : ∀ m ∈ l, m.Placed
  free : ∀ m ∈ l, ms.Free m.range
  apart : l.Pairwise VmMapping.Apart

variable {m : VmMapping} {rest : List VmMapping} {l : List VmMapping}

theorem FitAll.fits_head (h : ms.FitAll (m :: rest)) :
    ms.Fits m := ⟨h.partition, h.placed m (by simp), h.free m (by simp)⟩

theorem FitAll.tail {mid : Mappings}
    (h : ms.FitAll (m :: rest)) (hmid : ms.insert m = .ok mid) : mid.FitAll rest := by
  obtain ⟨hhead, hrest⟩ := pairwise_cons.mp h.apart
  obtain ⟨final, hfinal, hpart, hview⟩ := h.fits_head.insert
  rw [hmid] at hfinal
  cases hfinal
  refine ⟨hpart, fun k hk => h.placed k (by simp [hk]), ?_, hrest⟩
  intro k hk p hstart hstop
  have hnot : ¬ m.Covers p := fun hp => (hhead k hk).not_covers hp ⟨hstart, hstop⟩
  rw [hview, viewWith, if_neg hnot]
  exact h.free k (by simp [hk]) p hstart hstop

theorem FitAll.insertAll (h : ms.FitAll l) :
    ∃ ms', ms.insertAll l = .ok ms' ∧ ms'.Partition ∧ ∀ p a, ms'.view p = some a ↔
      (∃ m ∈ l, m.Covers p ∧ m.attrAt p = a) ∨ ms.view p = some a := by
  induction l generalizing ms with
  | nil => exact ⟨ms, rfl, h.partition, by simp⟩
  | cons m rest ih =>
    obtain ⟨mid, hmid, hpart, hview⟩ := h.fits_head.insert
    obtain ⟨ms', hrun, hpart', hview'⟩ := ih (h.tail hmid)
    refine ⟨ms', by simp [insertAll, hmid, hrun, bind, Except.bind], hpart', ?_⟩
    intro p a
    rw [hview', hview, viewWith]
    simp only [exists_mem_cons_iff]
    by_cases hcov : m.Covers p
    · have hfree := h.free m (by simp) p hcov.1 hcov.2
      simp only [hcov, if_true, hfree, some.injEq, true_and, reduceCtorEq, or_false]
      exact or_comm
    · simp only [hcov, if_false, false_and, false_or]

/-! ### Taking out the records that meet a range -/

/-- Whether a record meets a range. -/
def meets (range : Range) (m : VmMapping) : Bool :=
  decide (range.start < m.stop) && decide (m.start < range.stop)

variable {range : Range}

theorem meets_iff : meets range m = true ↔ range.start < m.stop ∧ m.start < range.stop := by
  simp [meets]

/-- The records that meet a range. -/
def inside (ms : Mappings) (range : Range) : List VmMapping := ms.iter.filter (meets range)

/-- The set without the records that meet a range. -/
def outside (ms : Mappings) (range : Range) : Mappings :=
  ⟨ms.map.filter (fun _ m => !meets range m)⟩

variable (h : ms.Partition) {p : Nat}

include h

theorem Partition.mem_iter : m ∈ ms.iter ↔ (m.start, m) ∈ ms.map.entries := by
  unfold iter values
  rw [List.mem_map]
  constructor
  · rintro ⟨e, he, rfl⟩
    exact h.keyed e he ▸ he
  · intro hm
    exact ⟨_, hm, rfl⟩

theorem Partition.mem_inside : m ∈ ms.inside range ↔
      (m.start, m) ∈ ms.map.entries ∧ range.start < m.stop ∧ m.start < range.stop := by
  unfold inside meets
  rw [mem_filter, h.mem_iter]
  simp

theorem Partition.iter_apart : ms.iter.Pairwise VmMapping.Apart := by
  unfold iter values
  rw [pairwise_map]
  refine ms.map.sorted.imp_of_mem ?_
  intro a b ha hb hlt
  exact h.apart a ha b hb hlt.ne

theorem Partition.inside_apart (range : Range) :
    (ms.inside range).Pairwise VmMapping.Apart := h.iter_apart.filter _

/-- The search from the last record below the range finds every record that meets it. -/
theorem Partition.iterRange (hrange : range.start ≤ range.stop) :
    ms.iterRange range = .ok (ms.inside range) := by
  unfold Mappings.iterRange inside iter values
  cases hprev : ms.map.below? range.start with
  | none =>
    simp only [map_none, getD_none, not_lt_zero, if_false, List.filter_map, List.filter_filter, Except.ok.injEq]
    congr 1
    apply List.filter_congr
    intro e he
    have hkey := h.keyed e he
    simp [meets, hkey]
  | some prev =>
    obtain ⟨hmem, hlt⟩ := below?_eq_some hprev
    have hnot : ¬ prev.1 > range.stop := by omega
    simp only [map_some, getD_some, hnot, if_false, List.filter_map,
      List.filter_filter, Except.ok.injEq]
    congr 1
    apply List.filter_congr
    intro e he
    have hkey := h.keyed e he
    have hpkey := h.keyed prev hmem
    -- a record before the last one below the range ends before that one starts
    have hbefore : range.start < e.2.stop → prev.1 ≤ e.1 := by
      intro hstop
      by_contra hcon
      have hapart := h.apart e he prev hmem (by omega)
      have := prev.2.start_lt_stop
      unfold VmMapping.Apart at hapart
      omega
    simp only [Function.comp, meets, hkey]
    rw [hkey] at hbefore
    by_cases hstop : range.start < e.2.stop
    · simp [hbefore hstop]
    · simp [hstop]

omit h in
theorem takeKeys_eq (hmem : ∀ m ∈ l, ms.map.get? m.start = some m)
    (hnodup : (l.map start).Nodup) : ms.takeKeys (l.map start) =
      .ok (l, ⟨ms.map.filter (fun k _ => k ∉ l.map start)⟩) := by
  induction l generalizing ms with
  | nil =>
    have hself : ms.map.filter (fun k _ => k ∉ ([] : List VmMapping).map start) =
        ms.map := SortedMap.ext (filter_eq_self.mpr (fun _ _ => by simp))
    rw [hself]
    rfl
  | cons m rest ih =>
    obtain ⟨hhead, hrest⟩ := nodup_cons.mp hnodup
    have hstep : ∀ k ∈ rest, (ms.map.erase m.start).get? k.start = some k := by
      intro k hk
      have hne : k.start ≠ m.start := by
        intro heq
        exact hhead (heq ▸ mem_map_of_mem hk)
      rw [get?_erase, if_neg hne]
      exact hmem k (by simp [hk])
    have hrun := @ih ⟨ms.map.erase m.start⟩ hstep hrest
    have hfilter : (ms.map.erase m.start).filter (fun k _ => k ∉ rest.map start) =
        ms.map.filter (fun k _ => k ∉ (m :: rest).map start) := by
      apply SortedMap.ext
      simp only [SortedMap.erase, SortedMap.filter, List.filter_filter]
      apply List.filter_congr
      intro e _
      simp only [map_cons, mem_cons, not_or, Bool.decide_and]
      exact Bool.and_comm _ _
    rw [hfilter] at hrun
    simp only [map_cons, takeKeys, remove, hmem m (by simp), hrun, bind, Except.bind]

theorem Partition.takeIn (hrange : range.start ≤ range.stop) :
    ms.takeIn range = .ok (ms.inside range, ms.outside range) := by
  have hmem : ∀ m ∈ ms.inside range, ms.map.get? m.start = some m := by
    intro m hm
    exact get?_eq_some.mpr (h.mem_inside.mp hm).1
  have hnodup : ((ms.inside range).map start).Nodup := by
    rw [nodup_iff_pairwise_ne, pairwise_map]
    refine (h.inside_apart range).imp ?_
    intro a b hab heq
    exact hab.not_covers a.covers_start (heq ▸ b.covers_start)
  unfold Mappings.takeIn
  simp only [h.iterRange hrange, bind, Except.bind, takeKeys_eq hmem hnodup]
  congr 3
  apply SortedMap.ext
  apply filter_congr
  intro e he
  have hkey := h.keyed e he
  rw [Bool.eq_iff_iff]
  simp only [decide_eq_true_eq, List.mem_map, not_exists, not_and, Bool.not_eq_true']
  constructor
  · intro hnot
    by_contra hmeets
    have hin : e.2 ∈ ms.inside range := by
      refine mem_filter.mpr ⟨h.mem_iter.mpr (hkey ▸ he), by simpa using hmeets⟩
    exact hnot e.2 hin hkey.symm
  · rintro hmeets m hm hstart
    have hsame := eq_of_mem_of_key he (h.mem_inside.mp hm).1 (hstart ▸ rfl)
    have hm' := (mem_filter.mp hm).2
    rw [hsame] at hmeets
    exact absurd hm' (by simp [hmeets])

theorem Partition.outside (range : Range) : (ms.outside range).Partition :=
  h.filter _

theorem Partition.view_outside (range : Range) {a : Attr} :
    ms.view p = some a ↔ (∃ m ∈ ms.inside range, m.Covers p ∧ m.attrAt p = a) ∨
      (ms.outside range).view p = some a := by
  rw [h.view_eq_some, (h.outside range).view_eq_some]
  constructor
  · rintro ⟨e, he, hcov, hattr⟩
    by_cases hmeets : meets range e.2 = true
    · exact .inl ⟨e.2, mem_filter.mpr ⟨h.mem_iter.mpr (h.keyed e he ▸ he), hmeets⟩,
        hcov, hattr⟩
    · exact .inr ⟨e, SortedMap.mem_filter.mpr ⟨he, by simpa using hmeets⟩, hcov, hattr⟩
  · rintro (⟨m, hm, hcov, hattr⟩ | ⟨e, he, hcov, hattr⟩)
    · exact ⟨_, (h.mem_inside.mp hm).1, hcov, hattr⟩
    · exact ⟨e, (SortedMap.mem_filter.mp he).1, hcov, hattr⟩

/-- The set without the records of a range does not cover what these records covered. -/
theorem Partition.outside_free (hm : m ∈ ms.inside range) (hcov : m.Covers p) :
    (ms.outside range).view p = none := by
  rw [(h.outside range).view_eq_none]
  intro e he hcov'
  obtain ⟨hmem, hmeets⟩ := SortedMap.mem_filter.mp he
  have hsame := h.eq_of_covers hmem (h.mem_inside.mp hm).1 hcov' hcov
  rw [hsame] at hmeets
  have hm' := (mem_filter.mp hm).2
  simp [hm'] at hmeets

end Mappings

/-! ### Splitting a record -/

/-- A record that has the properties of `m` and covers exactly the addresses `a` to `b`. -/
structure VmMapping.Slice (m k : VmMapping) (a b : Nat) : Prop where
  start_eq : k.start = a
  stop_eq : k.stop = b
  placed : k.Placed
  attr : ∀ p, k.Covers p → k.attrAt p = m.attrAt p

namespace VmMapping

theorem Slice.trans {k l : VmMapping} {a b c d : Nat} (h : m.Slice k a b) (h' : k.Slice l c d)
    (hle : a ≤ c) (hle' : d ≤ b) : m.Slice l c d := by
  refine ⟨h'.start_eq, h'.stop_eq, h'.placed, ?_⟩
  intro p hp
  rw [h'.attr p hp]
  apply h.attr
  have hs := h.start_eq
  have hs' := h'.start_eq
  have ht := h.stop_eq
  have ht' := h'.stop_eq
  unfold Covers at *
  omega

variable {m k : VmMapping}

theorem withLen_eq_ok {len : Nat} (h : m.withLen len = .ok k) :
    ∃ hpos : 0 < len, k = { m with len := len, len_pos := hpos } := by
  unfold withLen at h
  split_ifs at h with hpos
  cases h
  exact ⟨hpos, rfl⟩

theorem enlarge_eq_ok {extra : Nat} (h : m.enlarge extra = .ok k) :
    pageSize ∣ extra ∧ ∃ hpos, k = { m with len := m.len + extra, len_pos := hpos } := by
  unfold enlarge at h
  split_ifs at h with halign
  obtain ⟨len, hadd, hlen⟩ := ok_of_bind h
  obtain ⟨rfl, _⟩ := addUsize_eq_ok hadd
  exact ⟨dvd_of_mod_eq_zero halign, withLen_eq_ok hlen⟩

theorem relocate_eq_ok {start : Nat} (h : m.relocate start = .ok k) :
    pageSize ∣ start ∧ k = { m with start := start } := by
  unfold relocate at h
  split_ifs at h with halign
  cases h
  exact ⟨dvd_of_mod_eq_zero halign, rfl⟩

theorem rebase_eq_ok {delta : Nat} (h : m.rebase delta = .ok k) :
    k = { m with backingOffset := m.backingOffset + delta } := by
  unfold rebase at h
  split_ifs at h
  obtain ⟨offset, hadd, hk⟩ := ok_of_bind h
  obtain ⟨rfl, _⟩ := addUsize_eq_ok hadd
  cases hk
  rfl

theorem split_eq_ok {l r : VmMapping} {pos : Nat} (hm : m.Placed) (h : m.split pos = .ok (l, r)) :
    m.Slice l m.start pos ∧ m.Slice r pos m.stop ∧ m.start < pos ∧ pos < m.stop := by
  unfold split at h
  split_ifs at h with hpos
  obtain ⟨hstart, hstop, halign⟩ := hpos
  have hdvd : pageSize ∣ pos := dvd_of_mod_eq_zero halign
  have hleft : 0 < pos - m.start := by omega
  have hright : 0 < m.len - (pos - m.start) := by
    unfold stop at hstop
    omega
  simp only [withLen, hleft, hright, dif_pos, bind] at h
  cases hoff : addUsize m.backingOffset (pos - m.start) with
  | error e => rw [hoff] at h; cases h
  | ok offset =>
    rw [hoff] at h
    cases h
    have hoffset := (addUsize_eq_ok hoff).1
    refine ⟨⟨rfl, ?_, ⟨hm.start_aligned, ?_, hm.lowest_le, ?_⟩, fun _ _ => rfl⟩,
      ⟨rfl, ?_, ⟨hdvd, ?_, ?_, ?_⟩, ?_⟩, hstart, hstop⟩
    · change m.start + (pos - m.start) = pos
      omega
    · exact dvd_sub hdvd hm.start_aligned
    · have := hm.stop_le
      change m.start + (pos - m.start) ≤ vmarCapAddr
      omega
    · change pos + (m.len - (pos - m.start)) = m.start + m.len
      omega
    · exact dvd_sub hm.len_aligned (dvd_sub hdvd hm.start_aligned)
    · exact hm.lowest_le.trans hstart.le
    · have := hm.stop_le
      change pos + (m.len - (pos - m.start)) ≤ vmarCapAddr
      unfold stop at this
      omega
    intro p hp
    have hle : pos ≤ p := hp.1
    simp only [attrAt, Attr.mk.injEq, true_and]
    congr 1
    funext b
    congr 1
    omega

end VmMapping

namespace Mappings

variable {ms : Mappings} {τ : Type}

/-- A part of a record that lies outside a range. -/
def OuterPart (range : Range) (m k : VmMapping) : Prop :=
  k.Placed ∧ ∀ p, k.Covers p → m.Covers p ∧ ¬ range.Mem p ∧ k.attrAt p = m.attrAt p

/-- What splitting a piece at a range gives: the part inside and the parts outside. -/
structure Divided (range : Range) (m middle : VmMapping) (outer : List VmMapping) : Prop where
  inner : m.Slice middle (intersect range m.range).start (intersect range m.range).stop
  parts : ∀ k ∈ outer, OuterPart range m k
  apart : outer.Pairwise VmMapping.Apart
  all : ∀ a b, m.start ≤ a → a < b → b ≤ m.stop → b ≤ range.start ∨ range.stop ≤ a →
    ∃ k ∈ outer, k.start ≤ a ∧ b ≤ k.stop

variable {p : Nat} {range : Range} {outer : List VmMapping}

theorem Divided.exists_covers (h : Divided range m middle outer) (hp : m.Covers p)
    (hnot : ¬ range.Mem p) : ∃ k ∈ outer, k.Covers p := by
  unfold Range.Mem at hnot
  obtain ⟨k, hk, hstart, hstop⟩ := h.all p (p + 1) hp.1 (lt_succ_self p) hp.2 (by omega)
  exact ⟨k, hk, hstart, hstop⟩

theorem outerPart_of_slice {k : VmMapping} {a b : Nat} (h : m.Slice k a b)
    (hstart : m.start ≤ a) (hstop : b ≤ m.stop) (hout : b ≤ range.start ∨ range.stop ≤ a) :
    OuterPart range m k := by
  refine ⟨h.placed, ?_⟩
  intro p hp
  have hattr := h.attr p hp
  have hs := h.start_eq
  have ht := h.stop_eq
  unfold VmMapping.Covers at hp ⊢
  unfold Range.Mem
  exact ⟨by omega, by omega, hattr⟩

theorem splitRange_divided {left right : Option VmMapping} (hm : m.Placed)
    (hrange : range.start < range.stop)
    (h : m.splitRange (intersect range m.range) = .ok (left, middle, right)) :
    Divided range m middle (left.toList ++ right.toList) := by
  have hsub : (intersect range m.range).start = max range.start m.start ∧
      (intersect range m.range).stop = min range.stop m.stop := ⟨rfl, rfl⟩
  obtain ⟨hstart, hstop⟩ := hsub
  unfold splitRange at h
  simp only [hstart, hstop] at h ⊢
  split_ifs at h with hin hall hleft hright hright
  · -- the piece lies inside the range
    cases h
    refine ⟨⟨?_, ?_, hm, fun _ _ => rfl⟩, by simp, by simp, ?_⟩
    · rw [hstart, hall.1]
    · rw [hstop, hall.2]
    · intro a b ha hab hb hout
      omega
  · -- the range lies strictly inside the piece
    obtain ⟨⟨l, rest⟩, hfst, h⟩ := ok_of_bind h
    obtain ⟨⟨mid, r⟩, hsnd, h⟩ := ok_of_bind h
    cases h
    obtain ⟨hl, hrest, hlo, _⟩ := split_eq_ok hm hfst
    obtain ⟨hmid, hr, _, hhi⟩ := split_eq_ok hrest.placed hsnd
    rw [hrest.start_eq] at hmid
    rw [hrest.stop_eq] at hr hhi
    have hl' : OuterPart range m l := outerPart_of_slice hl le_rfl (by omega) (by omega)
    have hr' : OuterPart range m r :=
      outerPart_of_slice (hrest.trans hr (by omega) le_rfl) (by omega) le_rfl (by omega)
    have hls := hl.stop_eq
    have hrs := hr.start_eq
    refine ⟨?_, by simpa using ⟨hl', hr'⟩, ?_, ?_⟩
    · exact hrest.trans hmid le_rfl (by omega)
    · simp only [toList_some, singleton_append, pairwise_cons,
        mem_singleton, forall_eq, not_mem_nil, false_implies, implies_true,
        List.Pairwise.nil, and_true]
      left
      omega
    · intro a b ha hab hb hout
      have hls' := hl.start_eq
      have hrs' := hr.stop_eq
      rcases hout with hbelow | habove
      · exact ⟨l, by simp, by omega, by omega⟩
      · exact ⟨r, by simp, by omega, by omega⟩
  · -- only the low end of the piece lies outside
    obtain ⟨⟨l, rest⟩, hfst, h⟩ := ok_of_bind h
    cases h
    obtain ⟨hl, hrest, hlo, _⟩ := split_eq_ok hm hfst
    have hl' : OuterPart range m l := outerPart_of_slice hl le_rfl (by omega) (by omega)
    refine ⟨?_, by simpa using hl', by simp, ?_⟩
    · rw [hstop, show min range.stop m.stop = m.stop by omega]
      exact hrest
    · intro a b ha hab hb hout
      have hls := hl.stop_eq
      have hls' := hl.start_eq
      exact ⟨l, by simp, by omega, by omega⟩
  · -- only the high end of the piece lies outside
    obtain ⟨⟨mid, r⟩, hsnd, h⟩ := ok_of_bind h
    cases h
    obtain ⟨hmid, hr, _, hhi⟩ := split_eq_ok hm hsnd
    have hr' : OuterPart range m r := outerPart_of_slice hr (by omega) le_rfl (by omega)
    refine ⟨?_, by simpa using hr', by simp, ?_⟩
    · rw [hstart, show max range.start m.start = m.start by omega]
      exact hmid
    · intro a b ha hab hb hout
      have hrs := hr.start_eq
      have hrs' := hr.stop_eq
      exact ⟨r, by simp, by omega, by omega⟩
  · -- the two ends agree, so the piece lies inside the range
    omega

/-! ### Carving the pieces -/

/-- What a carve made of one piece: the parts outside the range and what `op` kept. -/
structure Carved (range : Range) (op : CarveOp τ) (m : VmMapping)
    (r : List VmMapping × Option VmMapping) : Prop where
  done : ∃ middle env env', Divided range m middle r.1 ∧
    op env middle (intersect range m.range) = .ok (r.2, env')

/-- The pieces a carve takes out. -/
structure Pieces (range : Range) (l : List VmMapping) : Prop where
  nonempty : range.start < range.stop
  placed : ∀ m ∈ l, m.Placed
  meet : ∀ m ∈ l, meets range m = true

variable {l : List VmMapping} {m : VmMapping}

theorem Pieces.tail (h : Pieces range (m :: l)) : Pieces range l :=
  ⟨h.nonempty, fun k hk => h.placed k (by simp [hk]), fun k hk => h.meet k (by simp [hk])⟩

variable {env env' : τ} {op : CarveOp τ} {outcome : CarveOutcome}

/-- How long the pieces are of which a carve leaves nothing. -/
abbrev droppedLen (range : Range) (l : List VmMapping)
    (results : List (List VmMapping × Option VmMapping)) : Nat :=
  ((l.zip results).map
    (fun x => if x.2.2.isSome then 0 else (intersect range x.1.range).len)).sum

theorem carvePieces_eq_ok {l survivors : List VmMapping} (hl : Pieces range l)
    (h : carvePieces range op env l = .ok (survivors, outcome, env')) :
    ∃ results, List.Forall₂ (Carved range op) l results ∧
      survivors = results.flatMap (fun r => r.1 ++ r.2.toList) ∧
      outcome.mapped = (l.map (fun m => (intersect range m.range).len)).sum ∧
      outcome.dropped = droppedLen range l results := by
  induction l generalizing env survivors outcome with
  | nil =>
    cases h
    exact ⟨[], List.Forall₂.nil, rfl, rfl, rfl⟩
  | cons m rest ih =>
    obtain ⟨⟨left, middle, right⟩, hsplit, h⟩ := ok_of_bind h
    obtain ⟨⟨kept, mid⟩, hop, h⟩ := ok_of_bind h
    obtain ⟨⟨more, outcome', last⟩, hrest, h⟩ := ok_of_bind h
    cases h
    obtain ⟨results, hall, rfl, hmapped, hdropped⟩ := ih hl.tail hrest
    have hdiv := splitRange_divided (hl.placed m (by simp)) hl.nonempty hsplit
    refine ⟨(left.toList ++ right.toList, kept) :: results,
      List.Forall₂.cons ⟨middle, env, mid, hdiv, hop⟩ hall, ?_, ?_, ?_⟩
    · simp
    · simp [hmapped]
    · simp [hdropped, droppedLen]

theorem carvePieces_env {l survivors : List VmMapping}
    (hop : ∀ env m sub kept env', op env m sub = .ok (kept, env') → env' = env)
    (h : carvePieces range op env l = .ok (survivors, outcome, env')) : env' = env := by
  induction l generalizing env survivors outcome with
  | nil =>
    cases h
    rfl
  | cons m rest ih =>
    obtain ⟨⟨left, middle, right⟩, _, h⟩ := ok_of_bind h
    obtain ⟨⟨kept, mid⟩, hkept, h⟩ := ok_of_bind h
    obtain ⟨⟨more, outcome', last⟩, hmore, h⟩ := ok_of_bind h
    cases h
    rw [ih hmore, hop _ _ _ _ _ hkept]

variable {results : List (List VmMapping × Option VmMapping)}
  {R : VmMapping → List VmMapping × Option VmMapping → Prop}

theorem exists_of_mem_forall₂ (h : List.Forall₂ R l results) :
    (∀ m ∈ l, ∃ r ∈ results, R m r) ∧ ∀ r ∈ results, ∃ m ∈ l, R m r := by
  induction h with
  | nil => simp
  | cons hhead _ ih =>
    refine ⟨?_, ?_⟩
    · simp only [forall_mem_cons, exists_mem_cons_iff]
      exact ⟨.inl hhead, fun m hm => .inr (ih.1 m hm)⟩
    · simp only [forall_mem_cons, exists_mem_cons_iff]
      exact ⟨.inl hhead, fun r hr => .inr (ih.2 r hr)⟩

/-- Survivors do not overlap when each piece keeps to a zone of its own. -/
theorem survivors_apart (zone : VmMapping → Nat → Prop) (hall : List.Forall₂ R l results)
    (hzones : l.Pairwise (fun a b => ∀ p, zone a p → ¬ zone b p))
    (hin : ∀ m ∈ l, ∀ r, R m r → ∀ k ∈ r.1 ++ r.2.toList, ∀ p, k.Covers p → zone m p)
    (hself : ∀ m ∈ l, ∀ r, R m r → (r.1 ++ r.2.toList).Pairwise VmMapping.Apart) :
    (results.flatMap (fun r => r.1 ++ r.2.toList)).Pairwise VmMapping.Apart := by
  induction hall with
  | nil => simp
  | @cons m r l results hhead hrest ih =>
    obtain ⟨hapart, htail⟩ := pairwise_cons.mp hzones
    rw [flatMap_cons, pairwise_append]
    refine ⟨hself m (by simp) r hhead, ?_, ?_⟩
    · exact ih htail (fun k hk => hin k (by simp [hk])) (fun k hk => hself k (by simp [hk]))
    intro k hk k' hk'
    obtain ⟨r', hr', hmem⟩ := mem_flatMap.mp hk'
    obtain ⟨m', hm', hresult⟩ := (exists_of_mem_forall₂ hrest).2 r' hr'
    apply apart_of_not_covers
    intro p hp hp'
    exact hapart m' hm' p (hin m (by simp) r hhead k hk p hp)
      (hin m' (by simp [hm']) r' hresult k' hmem p hp')

theorem Partition.pieces (h : ms.Partition) (hrange : range.start < range.stop) :
    Pieces range (ms.inside range) :=
  ⟨hrange, fun _ hm => h.placed _ (h.mem_inside.mp hm).1, fun _ hm => (mem_filter.mp hm).2⟩

variable {ms' : Mappings}

/-- The steps of a carve that came back. -/
theorem carve_eq_ok (hms : ms.Partition) (h : ms.carve range op env = .ok (ms', outcome, env')) :
    pageSize ∣ range.start ∧ pageSize ∣ range.stop ∧ range.start < range.stop ∧
      ∃ survivors, carvePieces range op env (ms.inside range) = .ok (survivors, outcome, env') ∧
        (ms.outside range).insertAll survivors = .ok ms' := by
  unfold carve at h
  split_ifs at h with hrange
  obtain ⟨hstart, hstop, hlt⟩ := hrange
  refine ⟨dvd_of_mod_eq_zero hstart, dvd_of_mod_eq_zero hstop, hlt, ?_⟩
  obtain ⟨⟨pieces, rest⟩, htake, h⟩ := ok_of_bind h
  rw [hms.takeIn hlt.le] at htake
  cases htake
  obtain ⟨⟨survivors, outcome', env''⟩, hpieces, h⟩ := ok_of_bind h
  obtain ⟨put, hput, h⟩ := ok_of_bind h
  cases h
  exact ⟨survivors, hpieces, hput⟩

/-! ### Carves that work in place -/

theorem Divided.middle_covers (h : Divided range m middle outer) :
    middle.Covers p ↔ range.Mem p ∧ m.Covers p := by
  have hstart := h.inner.start_eq
  have hstop := h.inner.stop_eq
  rw [← VmMapping.mem_range, ← VmMapping.mem_range, ← mem_intersect]
  unfold VmMapping.range
  rw [hstart, hstop]
  rfl

/-- What a carve in place made of one piece: the parts outside the range, and the part
inside at its own place or not at all. -/
structure Settled (range : Range) (m : VmMapping) (r : List VmMapping × Option VmMapping) :
    Prop where
  done : ∃ middle, Divided range m middle r.1 ∧
    ∀ k, r.2 = some k → k.start = middle.start ∧ k.len = middle.len

/-- What is in force at an address once the operation has been applied to its piece. -/
def newAttr (kept : Option VmMapping) (p : Nat) : Option Attr := kept.map (fun k => k.attrAt p)

variable {r : List VmMapping × Option VmMapping}

theorem Settled.view (h : Settled range m r) {a : Attr} :
    (∃ k ∈ r.1 ++ r.2.toList, k.Covers p ∧ k.attrAt p = a) ↔ m.Covers p ∧
      (if range.Mem p then newAttr r.2 p else some (m.attrAt p)) = some a := by
  obtain ⟨middle, hdiv, hplace⟩ := h.done
  obtain ⟨outer, kept⟩ := r
  have hmid : middle.Covers p ↔ range.Mem p ∧ m.Covers p := hdiv.middle_covers
  have hkept : ∀ k, kept = some k → (k.Covers p ↔ range.Mem p ∧ m.Covers p) := by
    intro k hk
    obtain ⟨hstart, hlen⟩ := hplace k hk
    rw [← hmid]
    unfold VmMapping.Covers stop
    rw [hstart, hlen]
  constructor
  · rintro ⟨k, hk, hcov, rfl⟩
    rcases mem_append.mp hk with hk | hk
    · obtain ⟨hm, hnot, hattr⟩ := (hdiv.parts k hk).2 p hcov
      rw [if_neg hnot, hattr]
      exact ⟨hm, rfl⟩
    · obtain rfl := mem_toList.mp hk
      obtain ⟨hrange, hm⟩ := (hkept k rfl).mp hcov
      rw [if_pos hrange]
      exact ⟨hm, rfl⟩
  · rintro ⟨hm, hattr⟩
    by_cases hrange : range.Mem p
    · rw [if_pos hrange] at hattr
      obtain ⟨k, rfl, hk⟩ := map_eq_some_iff.mp hattr
      exact ⟨k, by simp, (hkept k rfl).mpr ⟨hrange, hm⟩, hk⟩
    · rw [if_neg hrange] at hattr
      obtain ⟨k, hk, hcov⟩ := hdiv.exists_covers hm hrange
      refine ⟨k, by simp [hk], hcov, ?_⟩
      rw [((hdiv.parts k hk).2 p hcov).2.2]
      exact some.inj hattr

theorem Settled.placed (h : Settled range m r) : ∀ k ∈ r.1 ++ r.2.toList, k.Placed := by
  obtain ⟨middle, hdiv, hplace⟩ := h.done
  intro k hk
  rcases mem_append.mp hk with hk | hk
  · exact (hdiv.parts k hk).1
  obtain ⟨hstart, hlen⟩ := hplace k (mem_toList.mp hk)
  have hmid := hdiv.inner.placed
  refine ⟨hstart ▸ hmid.start_aligned, hlen ▸ hmid.len_aligned, hstart ▸ hmid.lowest_le, ?_⟩
  unfold stop
  rw [hstart, hlen]
  exact hmid.stop_le

theorem Settled.apart (h : Settled range m r) : (r.1 ++ r.2.toList).Pairwise VmMapping.Apart := by
  obtain ⟨middle, hdiv, hplace⟩ := h.done
  rw [pairwise_append]
  refine ⟨hdiv.apart, by cases r.2 <;> simp, ?_⟩
  intro k hk k' hk'
  obtain ⟨hstart, hlen⟩ := hplace k' (mem_toList.mp hk')
  apply apart_of_not_covers
  intro p hp hp'
  apply ((hdiv.parts k hk).2 p hp).2.1
  refine (hdiv.middle_covers.mp ?_).1
  unfold VmMapping.Covers stop at hp' ⊢
  rwa [hstart, hlen] at hp'

/-- A set differs from another only in a range, where a list of pieces was dealt with one
by one. -/
structure Rewritten (range : Range) (ms ms' : Mappings)
    (results : List (List VmMapping × Option VmMapping)) : Prop where
  partition : ms'.Partition
  outside : ∀ p, ¬ range.Mem p → ms'.view p = ms.view p
  unmapped : ∀ p, ms.view p = none → ms'.view p = none
  inside : List.Forall₂ (fun m r => ∀ p, range.Mem p → m.Covers p → ms'.view p = newAttr r.2 p)
    (ms.inside range) results

theorem Partition.fitAll_settled (hms : ms.Partition)
    (hall : List.Forall₂ (Settled range) (ms.inside range) results) :
    (ms.outside range).FitAll (results.flatMap (fun r => r.1 ++ r.2.toList)) := by
  refine ⟨hms.outside range, ?_, ?_, ?_⟩
  · intro k hk
    obtain ⟨r, hr, hk⟩ := mem_flatMap.mp hk
    obtain ⟨m, _, hsettled⟩ := (exists_of_mem_forall₂ hall).2 r hr
    exact hsettled.placed k hk
  · intro k hk p hstart hstop
    obtain ⟨r, hr, hk⟩ := mem_flatMap.mp hk
    obtain ⟨m, hm, hsettled⟩ := (exists_of_mem_forall₂ hall).2 r hr
    exact hms.outside_free hm (hsettled.view.mp ⟨k, hk, ⟨hstart, hstop⟩, rfl⟩).1
  apply survivors_apart VmMapping.Covers hall
  · refine (hms.inside_apart range).imp ?_
    intro a b hab p hp
    exact hab.not_covers hp
  · intro m _ r hsettled k hk p hp
    exact (hsettled.view.mp ⟨k, hk, hp, rfl⟩).1
  · exact fun m _ r hsettled => hsettled.apart

/-- Only the survivors of its own piece cover an address of the piece. -/
theorem survivors_view (hapart : l.Pairwise VmMapping.Apart)
    (hall : List.Forall₂ (Settled range) l results) :
    List.Forall₂ (fun m r => ∀ p, m.Covers p → ∀ a,
      ((∃ k ∈ results.flatMap (fun r => r.1 ++ r.2.toList), k.Covers p ∧ k.attrAt p = a) ↔
        (if range.Mem p then newAttr r.2 p else some (m.attrAt p)) = some a)) l results := by
  induction hall with
  | nil => exact List.Forall₂.nil
  | @cons m r l results hsettled hrest ih =>
    obtain ⟨hhead, htail⟩ := pairwise_cons.mp hapart
    simp only [flatMap_cons, mem_append (s := r.1 ++ r.2.toList), or_and_right, exists_or]
    refine List.Forall₂.cons ?_ (((forall₂_and_left _ _).mpr ⟨hhead, ih htail⟩).imp ?_)
    · intro p hp a
      rw [hsettled.view, or_iff_left, and_iff_right hp]
      rintro ⟨k, hk, hcov, _⟩
      obtain ⟨r', hr', hk⟩ := mem_flatMap.mp hk
      obtain ⟨m', hm', hsettled'⟩ := (exists_of_mem_forall₂ hrest).2 r' hr'
      exact (hhead m' hm').not_covers hp (hsettled'.view.mp ⟨k, hk, hcov, rfl⟩).1
    · intro m' r' ⟨hnot, hview⟩ p hp a
      rw [← hview p hp a, hsettled.view, or_iff_right]
      exact fun hcov => hnot.not_covers hcov.1 hp

/-- Putting back the survivors of a carve in place rewrites the addresses of its range. -/
theorem Partition.insertAll_settled (hms : ms.Partition)
    (hall : List.Forall₂ (Settled range) (ms.inside range) results) :
    ∃ ms', (ms.outside range).insertAll (results.flatMap (fun r => r.1 ++ r.2.toList)) = .ok ms' ∧
      Rewritten range ms ms' results := by
  obtain ⟨ms', hrun, hpart, hview⟩ := (hms.fitAll_settled hall).insertAll
  have hpieces : List.Forall₂ (fun m r => ∀ p, m.Covers p →
      ms'.view p = if range.Mem p then newAttr r.2 p else some (m.attrAt p))
      (ms.inside range) results := by
    have hmem : ∀ m ∈ ms.inside range, ∀ p, m.Covers p → (ms.outside range).view p = none :=
      fun m hm p => hms.outside_free hm
    refine ((forall₂_and_left _ _).mpr ⟨hmem, survivors_view (hms.inside_apart range) hall⟩).imp ?_
    intro m r ⟨hfree, hsurvive⟩ p hp
    ext a
    rw [hview, hfree p hp, hsurvive p hp a]
    simp
  -- an address that no piece covers is left to the records that were not taken out
  have hothers : ∀ p, (∀ m ∈ ms.inside range, ¬ m.Covers p) → ms'.view p = ms.view p := by
    intro p hp
    ext a
    rw [hview, hms.view_outside range]
    apply or_congr_left
    constructor
    · rintro ⟨k, hk, hcov, _⟩
      obtain ⟨r, hr, hk⟩ := mem_flatMap.mp hk
      obtain ⟨m, hm, hsettled⟩ := (exists_of_mem_forall₂ hall).2 r hr
      exact absurd (hsettled.view.mp ⟨k, hk, hcov, rfl⟩).1 (hp m hm)
    · rintro ⟨m, hm, hcov, _⟩
      exact absurd hcov (hp m hm)
  refine ⟨ms', hrun, hpart, ?_, ?_, ?_⟩
  · intro p hnot
    by_cases hp : ∃ m ∈ ms.inside range, m.Covers p
    · obtain ⟨m, hm, hcov⟩ := hp
      obtain ⟨r, _, hsame⟩ := (exists_of_mem_forall₂ hpieces).1 m hm
      rw [hsame p hcov, if_neg hnot]
      exact ((hms.view_outside range).mpr (.inl ⟨m, hm, hcov, rfl⟩)).symm
    · exact hothers p (by simpa using hp)
  · intro p hnone
    rw [hothers p, hnone]
    intro m hm hcov
    rw [(hms.view_outside range).mpr (.inl ⟨m, hm, hcov, rfl⟩)] at hnone
    cases hnone
  · refine hpieces.imp ?_
    intro m r hpiece p hrange hcov
    rw [hpiece p hcov, if_pos hrange]

/-- An operation that drops a piece or keeps it in place has this effect on properties. -/
structure Implements (op : CarveOp τ) (eff : Attr → Option Attr) : Prop where
  keeps : ∀ env m sub k env', op env m sub = .ok (some k, env') →
    k.start = m.start ∧ k.len = m.len ∧ ∀ p, m.Covers p → eff (m.attrAt p) = some (k.attrAt p)
  drops : ∀ env m sub env', op env m sub = .ok (none, env') →
    ∀ p, m.Covers p → eff (m.attrAt p) = none

variable {eff : Attr → Option Attr}

theorem Carved.settled (hop : Implements op eff) (h : Carved range op m r) : Settled range m r ∧
      ∀ p, range.Mem p → m.Covers p → newAttr r.2 p = eff (m.attrAt p) := by
  obtain ⟨middle, env, env', hdiv, hrun⟩ := h.done
  refine ⟨⟨middle, hdiv, ?_⟩, ?_⟩
  · intro k hk
    rw [hk] at hrun
    obtain ⟨hstart, hlen, _⟩ := hop.keeps _ _ _ _ _ hrun
    exact ⟨hstart, hlen⟩
  intro p hrange hcov
  have hmid := hdiv.middle_covers.mpr ⟨hrange, hcov⟩
  rw [← hdiv.inner.attr p hmid]
  cases hkept : r.2 with
  | none =>
    rw [hkept] at hrun
    exact (hop.drops _ _ _ _ hrun p hmid).symm
  | some k =>
    rw [hkept] at hrun
    exact ((hop.keeps _ _ _ _ _ hrun).2.2 p hmid).symm

variable (hms : ms.Partition) (hop : Implements op eff)
  (h : ms.carve range op env = .ok (ms', outcome, env'))

include hms hop h

/-- A carve in place rewrites its range, and says how many addresses it met and dropped. -/
theorem Partition.carve_rewritten :
    ∃ results, List.Forall₂ (Carved range op) (ms.inside range) results ∧
      Rewritten range ms ms' results ∧
      outcome.dropped = droppedLen range (ms.inside range) results := by
  obtain ⟨_, _, hlt, survivors, hpieces, hput⟩ := carve_eq_ok hms h
  obtain ⟨results, hall, rfl, _, hdropped⟩ := carvePieces_eq_ok (hms.pieces hlt) hpieces
  obtain ⟨final, hfinal, hrewritten⟩ :=
    hms.insertAll_settled (hall.imp (fun _ _ hcarved => (hcarved.settled hop).1))
  rw [hput] at hfinal
  cases hfinal
  exact ⟨results, hall, hrewritten, hdropped⟩

/-- A carve in place is a pointwise update of the addresses of its range. -/
theorem Partition.carve : ms'.Partition ∧
      ∀ p, ms'.view p = if range.Mem p then (ms.view p).bind eff else ms.view p := by
  obtain ⟨results, hall, hrewritten, _⟩ := hms.carve_rewritten hop h
  refine ⟨hrewritten.partition, ?_⟩
  intro p
  split_ifs with hrange
  · cases hview : ms.view p with
    | none => exact hrewritten.unmapped p hview
    | some a =>
      -- a record that covers an address of the range meets the range
      obtain ⟨e, he, hcov, rfl⟩ := hms.view_eq_some.mp hview
      have hin : e.2 ∈ ms.inside range := hms.mem_inside.mpr
        ⟨hms.keyed e he ▸ he, hrange.1.trans_lt hcov.2, hcov.1.trans_lt hrange.2⟩
      obtain ⟨r, _, hcarved, hnew⟩ :=
        (exists_of_mem_forall₂ (hall.mp (fun _ _ => And.intro) hrewritten.inside)).1 e.2 hin
      rw [hnew p hrange hcov, (hcarved.settled hop).2 p hrange hcov]
      rfl
  · exact hrewritten.outside p hrange

end Mappings

end Petra.Vm
