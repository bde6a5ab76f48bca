import Petra.Vm.Mremap

/-! # What a move leaves at every address

A moved address keeps its properties. Its backing offset is shifted by how far into the
moved range its record starts: the pieces already carry the offset of their own start, and
the move adds the distance once more. So the offset is right for the record that covers the
old address and for anonymous records, which have none, and wrong for all others.
-/

namespace Petra.Vm

open Base List SortedMap Option Call VmMapping

namespace Mappings

variable {ms ms' : Mappings}

/-! ### Runs of addresses in one record -/

/-- One record covers all addresses from `a` to `b`. -/
def Spans (ms : Mappings) (a b : Nat) : Prop :=
  ∃ e ∈ ms.map.entries, e.2.start ≤ a ∧ b ≤ e.2.stop

/-- One record of the set covers all addresses from `a` to `b`, or the record `m` does. -/
def SpansWith (ms : Mappings) (m : VmMapping) (a b : Nat) : Prop :=
  ms.Spans a b ∨ m.start ≤ a ∧ b ≤ m.stop

variable {a b : Nat}

theorem SpansWith.of_erase {m joined other : VmMapping} (h : ms.SpansWith m a b)
    (hother : (other.start, other) ∈ ms.map.entries)
    (hstart : joined.start ≤ other.start ∧ other.stop ≤ joined.stop)
    (hstop : joined.start ≤ m.start ∧ m.stop ≤ joined.stop) :
    (⟨ms.map.erase other.start⟩ : Mappings).SpansWith joined a b := by
  rcases h with ⟨e, he, hle, hle'⟩ | ⟨hle, hle'⟩
  · by_cases hkey : e.1 = other.start
    · have hsame := eq_of_mem_of_key he hother hkey
      rw [hsame] at hle hle'
      exact .inr ⟨hstart.1.trans hle, hle'.trans hstart.2⟩
    · exact .inl ⟨e, mem_erase.mpr ⟨hkey, he⟩, hle, hle'⟩
  · exact .inr ⟨hstop.1.trans hle, hle'.trans hstop.2⟩

variable {m : VmMapping}

theorem Fits.spans_joins {out : VmMapping × Mappings} (h : ms.Fits m)
    (hspans : ms.SpansWith m a b) (hjoins : ms.Joins m out) : out.2.SpansWith out.1 a b := by
  cases hjoins with
  | alone => exact hspans
  | @below e hmem hmerge | @above e hmem hmerge =>
    have hstop := merged_stop hmerge
    have hjoin := stop_eq_of_canMerge hmerge
    have hlt := m.start_lt_stop
    have hlt' := e.2.start_lt_stop
    have hbelow := merged_start (l := e.2) (r := m)
    have habove := merged_start (l := m) (r := e.2)
    dsimp only
    exact hspans.of_erase (h.partition.keyed e hmem ▸ hmem) ⟨by omega, by omega⟩
      ⟨by omega, by omega⟩

/-- Merging only makes records longer. -/
theorem Fits.spans_insert (h : ms.Fits m)
    (hspans : ms.SpansWith m a b) (hrun : ms.insert m = .ok ms') : ms'.Spans a b := by
  have hprev := joins_mergePrev ms m
  have hnext := joins_mergeNext (ms.mergePrev m).2 (ms.mergePrev m).1
  have hfits := ((h.joins hprev).1.joins hnext).1
  have hjoined := (h.joins hprev).1.spans_joins (h.spans_joins hspans hprev) hnext
  unfold Mappings.insert at hrun
  simp only [hfits.get?_start, isSome_none, Bool.false_eq_true] at hrun
  cases hrun
  rcases hjoined with ⟨e, he, hle⟩ | hle
  · refine ⟨e, mem_insert.mpr (.inr ⟨?_, he⟩), hle⟩
    exact get?_eq_none.mp hfits.get?_start e he
  · exact ⟨_, mem_insert.mpr (.inl rfl), hle⟩

theorem FitAll.spans_insertAll {l : List VmMapping} (h : ms.FitAll l)
    (hspans : ms.Spans a b ∨ ∃ m ∈ l, m.start ≤ a ∧ b ≤ m.stop)
    (hrun : ms.insertAll l = .ok ms') : ms'.Spans a b := by
  induction l generalizing ms with
  | nil =>
    cases hrun
    exact hspans.elim id (fun ⟨_, hm, _⟩ => nomatch hm)
  | cons m rest ih =>
    obtain ⟨mid, hmid, hrun⟩ := ok_of_bind hrun
    have hfits := h.fits_head
    refine ih (h.tail hmid) ?_ hrun
    rcases hspans with hspans | ⟨k, hk, hle⟩
    · exact .inl (hfits.spans_insert (.inl hspans) hmid)
    · rcases mem_cons.mp hk with rfl | hk
      · exact .inl (hfits.spans_insert (.inr hle) hmid)
      · exact .inr ⟨k, hk, hle⟩

/-- A carve in place does not break up runs of addresses outside its range. -/
theorem Partition.spans_carve {τ : Type} {range : Range} {op : CarveOp τ}
    {eff : Attr → Option Attr} {env env' : τ} {outcome : CarveOutcome}
    (hms : ms.Partition) (hop : Implements op eff) (hab : a < b)
    (hout : b ≤ range.start ∨ range.stop ≤ a) (hspans : ms.Spans a b)
    (h : ms.carve range op env = .ok (ms', outcome, env')) : ms'.Spans a b := by
  obtain ⟨_, _, hlt, survivors, hpieces, hput⟩ := carve_eq_ok hms h
  obtain ⟨results, hall, rfl, _, _⟩ := carvePieces_eq_ok (hms.pieces hlt) hpieces
  have hsettled := hall.imp (fun _ _ hcarved => (hcarved.settled hop).1)
  refine (hms.fitAll_settled hsettled).spans_insertAll ?_ hput
  obtain ⟨e, he, hstart, hstop⟩ := hspans
  by_cases hmeets : meets range e.2 = true
  · have hin : e.2 ∈ ms.inside range :=
      mem_filter.mpr ⟨hms.mem_iter.mpr (hms.keyed e he ▸ he), hmeets⟩
    obtain ⟨r, hr, ⟨middle, hdiv, _⟩⟩ := (exists_of_mem_forall₂ hsettled).1 e.2 hin
    obtain ⟨k, hk, hle⟩ := hdiv.all a b hstart hab hstop hout
    exact .inr ⟨k, mem_flatMap.mpr ⟨r, hr, mem_append_left _ hk⟩, hle⟩
  · exact .inl ⟨e, SortedMap.mem_filter.mpr ⟨he, by simpa using hmeets⟩, hstart, hstop⟩

end Mappings

namespace Vmar

variable {v v' : Vmar} {range : Range}

/-- What is left once a range has been unmapped. -/
structure Unmapped (range : Range) (v v' : Vmar) : Prop where
  partition : v'.mappings.Partition
  view : ∀ p, v'.view p = if range.Mem p then none else v.view p
  spans : ∀ a b, a < b → b ≤ range.start ∨ range.stop ≤ a → v.mappings.Spans a b →
    v'.mappings.Spans a b

theorem Unmapped.refl (hv : v.mappings.Partition) (h : range.stop ≤ range.start) :
    Unmapped range v v := by
  refine ⟨hv, ?_, fun _ _ _ _ hspans => hspans⟩
  intro p
  rw [if_neg]
  unfold Range.Mem
  omega

theorem unmapRange_run (hv : v.mappings.Partition)
    (h : unmapRange range v = .ok (.ok (), v')) : Unmapped range v v' := by
  obtain ⟨outcome, mid, h, hpure⟩ := ok_of_run_bind h
  cases hpure
  obtain ⟨⟨ms', outcome', pages⟩, hcarve, h⟩ := ok_of_run_orPanic h
  obtain ⟨_, h⟩ := ok_of_run_assert h
  cases h
  obtain ⟨hpart, hview⟩ := hv.carve pieceOp_drop.records hcarve
  refine ⟨hpart, ?_, ?_⟩
  · intro p
    refine (hview p).trans ?_
    rw [bind_fun_none]
    rfl
  · intro a b hab hout hspans
    exact hv.spans_carve pieceOp_drop.records hab hout hspans hcarve

theorem resizedTotal_run {total old new n : Nat}
    (h : resizedTotal total old new v = .ok (.ok n, v')) : v = v' := by
  obtain ⟨_, h⟩ := ok_of_run_assert h
  cases hadd : addUsize (total - old) new with
  | error p =>
    rw [hadd] at h
    cases h
  | ok sum =>
    rw [hadd] at h
    cases h
    rfl

/-- Each backed address of a range lies in a record that covers the range from its start. -/
def BackedFromStart (v : Vmar) (range : Range) : Prop :=
  ∀ p a, range.Mem p → v.view p = some a → a.backing.isSome → v.mappings.Spans range.start (p + 1)

/-- A shift shows in the offset of a backed address. -/
theorem shift_eq_iff {a : Attr} {delta : Nat} :
    a.shift delta = a ↔ (a.backing.isSome → delta = 0) := by
  cases a with
  | mk perms shared growsDown locked dontFork wipeOnFork backing =>
    cases backing with
    | none => simp [Attr.shift]
    | some b => simp [Attr.shift, Prod.ext_iff]

/-- A record begins behind `a` unless it reaches back to it. -/
theorem sub_eq_zero_iff_spans {a d : Nat} {m : VmMapping} {ms : Mappings} (hms : ms.Partition)
    (hm : ms.get (a + d) = some m) : max a m.start - a = 0 ↔ ms.Spans a (a + d + 1) := by
  obtain ⟨hmem, hcov⟩ := hms.get_eq_some.mp hm
  constructor
  · intro hzero
    exact ⟨_, hmem, (le_max_right _ _).trans (Nat.sub_eq_zero_iff_le.mp hzero), hcov.2⟩
  · rintro ⟨e, he, hstart, hstop⟩
    have hrecord := hms.eq_of_covers he hmem ⟨by omega, hstop⟩ hcov
    rw [hrecord] at hstart
    exact Nat.sub_eq_zero_of_le (sup_le le_rfl hstart)

variable {oldRange : Range} {newSize newStart before start kept : Nat}

/-- The records are moved in the address space `u` that is left when the new range is unmapped. An
address keeps its properties if it has no object, or if its record starts at or before the range. -/
theorem moveMapping_run (hv : v.mappings.Partition) (hle : kept ≤ newSize)
    (hmapped : ∀ p, (oldRange.front kept).Mem p → (v.view p).isSome)
    (hout : oldRange.start + kept ≤ newStart ∨ newStart + newSize ≤ oldRange.start)
    (hmappable : vmarLowestAddr ≤ newStart ∧ newStart + newSize ≤ vmarCapAddr)
    (h : moveMapping before oldRange kept newStart newSize v = .ok (.ok start, v')) :
    start = newStart ∧ ∃ u, Unmapped ⟨newStart, newStart + newSize⟩ v u ∧
      (∀ d < kept, ∃ a, u.view (oldRange.start + d) = some a ∧
        (v'.view (newStart + d) = some a ↔ (a.backing.isSome →
          u.mappings.Spans oldRange.start (oldRange.start + d + 1)))) ∧
      ∀ p, ¬ (oldRange.front kept).Mem p →
        ¬ (⟨newStart, newStart + newSize⟩ : Range).Mem p → v'.view p = v.view p := by
  obtain ⟨stop, hstop, h⟩ := ok_of_run_orPanic h
  obtain ⟨rfl, _⟩ := addUsize_eq_ok hstop
  obtain ⟨total, mid, htotal, h⟩ := ok_of_run_bind h
  obtain rfl := resizedTotal_run htotal
  obtain ⟨_, _, h⟩ := ok_of_run_orFail h
  obtain ⟨_, u, hunmap, h⟩ := ok_of_run_bind h
  have hu := unmapRange_run hv hunmap
  obtain ⟨pages, _, h⟩ := ok_of_run_orPanic h
  change (carve _ _ >>= _) _ = _ at h
  obtain ⟨_, w, hcarve, h⟩ := ok_of_run_bind h
  cases h
  obtain ⟨⟨ms', outcome, env'⟩, hrun, hcarve⟩ := ok_of_run_orPanic hcarve
  obtain ⟨_, hcarve⟩ := ok_of_run_assert hcarve
  cases hcarve
  have hnot : ∀ p, (oldRange.front kept).Mem p →
      ¬ (⟨newStart, newStart + newSize⟩ : Range).Mem p := by
    intro p hp hp'
    simp only [Range.Mem] at hp hp'
    omega
  have hlen : (oldRange.front kept).len = kept := Range.len_add ..
  have htarget : target (oldRange.front kept) newStart (newSize - kept) =
      ⟨newStart, newStart + newSize⟩ := by
    unfold target
    congr 1
    omega
  have hmov : Movable u.mappings (oldRange.front kept) newStart
      (newSize - kept) := by
    refine ⟨hu.partition, ?_, ?_, hmappable.1, htarget ▸ hmappable.2⟩
    · intro p hp
      change (u.view p).isSome
      rw [hu.view p, if_neg (hnot p hp)]
      exact hmapped p hp
    · rw [htarget]
      intro p hp hp'
      exact (hu.view p).trans (if_pos ⟨hp, hp'⟩)
  obtain ⟨hpart, _, _, hnew, _, hrest⟩ := hmov.carve hrun
  rw [htarget] at hnew hrest
  refine ⟨rfl, u, hu, ?_, ?_⟩
  · intro d hd
    obtain ⟨m, b, hm, hb, _, hattr⟩ := hnew (newStart + d)
      ⟨Nat.le_add_right _ _, Nat.add_lt_add_left (hd.trans_le hle) _⟩
    have hfrom : moveOrigin (oldRange.front kept) newStart (newStart + d) =
        oldRange.start + d := by
      rw [moveOrigin, hlen, if_pos (Nat.add_lt_add_left hd _), Nat.add_sub_cancel_left]
    rw [hfrom] at hm
    have hview : u.view (oldRange.start + d) = some (m.attrAt (oldRange.start + d)) := by
      rw [view, Mappings.view, hm]
      rfl
    refine ⟨_, hview, ?_⟩
    change ms'.view (newStart + d) = _ ↔ _
    rw [hb, hattr (by rw [hlen]; exact Nat.add_lt_add_left hd _), Nat.add_sub_cancel_left,
      some.injEq, shift_eq_iff]
    exact imp_congr_right fun _ => sub_eq_zero_iff_spans hu.partition hm
  · intro p hp hp'
    exact (hrest p hp' hp).trans ((hu.view p).trans (if_neg hp'))

theorem growInPlace_run {r : Option Nat}
    (h : growInPlace before oldRange newSize v = .ok (.ok r, v')) :
    r = some oldRange.start ∨ r = none ∧ v = v' := by
  obtain ⟨stop, _, h⟩ := ok_of_run_orPanic h
  dsimp only at h
  split_ifs at h
  · obtain ⟨taken, _, h⟩ := ok_of_run_orPanic h
    split_ifs at h
    · cases hlast : v.mappings.get (oldRange.stop - 1) with
      | none =>
        rw [hlast] at h
        cases h
        exact .inr ⟨rfl, rfl⟩
      | some last =>
        rw [hlast] at h
        obtain ⟨total, mid, htotal, h⟩ := ok_of_run_bind h
        obtain ⟨_, _, h⟩ := ok_of_run_orFail h
        cases hremove : v.mappings.remove last.start with
        | mk found rest =>
          rw [hremove] at h
          cases found with
          | none => cases h
          | some m =>
            obtain ⟨k, _, h⟩ := ok_of_run_orPanic h
            obtain ⟨ms', _, h⟩ := ok_of_run_orPanic h
            cases h
            exact .inl rfl
    · cases h
      exact .inr ⟨rfl, rfl⟩
  · cases h
    exact .inr ⟨rfl, rfl⟩

theorem freeStart_run {ms : Mappings} {size limit : Nat} (hms : ms.Partition)
    (h : freeStart ms size limit v = .ok (.ok start, v')) :
    v = v' ∧ Region size limit ⟨start, start + size⟩ ∧ ms.Free ⟨start, start + size⟩ := by
  unfold freeStart at h
  cases hfind : findFreeRegion ms size limit with
  | none =>
    rw [hfind] at h
    cases h
  | some region =>
    rw [hfind] at h
    cases h
    obtain ⟨hregion, hfree⟩ := findFreeRegion_eq_some hms hfind
    have hself : region = ⟨region.start, region.start + size⟩ := by rw [← hregion.stop_eq]
    exact ⟨rfl, hself ▸ hregion, hself ▸ hfree⟩

/-! ### The call -/

/-- The address space `v'` has at `new` what `v` had at `old`, as far as both ranges go, and
elsewhere what `v` had. -/
structure MovedView (v v' : Vmar) (old new : Range) : Prop where
  mapped : ∀ d, d < min old.len new.len → (v.view (old.start + d)).isSome
  moved : ∀ d, d < min old.len new.len → v'.view (new.start + d) = v.view (old.start + d)
  others : ∀ p, ¬ old.Mem p → ¬ new.Mem p → v'.view p = v.view p

/-- No record that starts inside the moved range has a backing object. -/
def BacksFirstOnly (v : Vmar) (oldAddr oldSize newSize : Nat) : Prop :=
  ∀ old new, pageAlignedSize oldSize = .ok old → pageAlignedSize newSize = .ok new →
    ∀ m ∈ v.mappings.iter, oldAddr < m.start → m.start < oldAddr + min old new → m.backing = none

/-- No two records can be merged: an insertion merges what it can. -/
def Merged (v : Vmar) : Prop :=
  ∀ l ∈ v.mappings.iter, ∀ r ∈ v.mappings.iter, l.canMerge r = false

theorem backedFromStart_of_first {oldAddr : Nat} (hv : v.mappings.Partition)
    (h : ∀ m ∈ v.mappings.iter, oldAddr < m.start → m.start < oldAddr + kept → m.backing = none) :
    v.BackedFromStart ⟨oldAddr, oldAddr + kept⟩ := by
  intro p a hp ha hbacked
  obtain ⟨e, he, hcov, rfl⟩ := hv.view_eq_some.mp ha
  refine ⟨e, he, ?_, hcov.2⟩
  by_contra hlate
  have hanon := h e.2 (hv.mem_iter.mpr (hv.keyed e he ▸ he)) (not_le.mp hlate)
    (hcov.1.trans_lt hp.2)
  simp [attrAt, hanon] at hbacked

/-- In one record the properties of an address are those of the address before it, one byte on. -/
theorem view_of_spans {ms : Mappings} {a p : Nat} (hms : ms.Partition) (h : ms.Spans a (p + 1 + 1))
    (hle : a ≤ p) : ms.view (p + 1) = (ms.view p).map (·.shift 1) := by
  obtain ⟨e, he, hstart, hstop⟩ := h
  rw [hms.view_eq_some.mpr ⟨e, he, ⟨hstart.trans hle, by omega⟩, rfl⟩,
    hms.view_eq_some.mpr ⟨e, he, ⟨by omega, by omega⟩, rfl⟩, map_some]
  unfold attrAt Attr.shift
  cases e.2.backing with
  | none => rfl
  | some b =>
    have hoffset : e.2.backingOffset + (p + 1 - e.2.start) =
        e.2.backingOffset + (p - e.2.start) + 1 := by omega
    simp [hoffset]

/-- Neighbours with the properties of one record can be merged. -/
theorem canMerge_of_attrAt {l r : VmMapping} {p : Nat} (hl : l.start ≤ p) (hlr : l.stop = p + 1)
    (hr : r.start = p + 1) (h : r.attrAt (p + 1) = (l.attrAt p).shift 1) : l.canMerge r = true := by
  simp only [attrAt, Attr.shift, Attr.mk.injEq] at h
  obtain ⟨hperms, hshared, hgrows, hlocked, hfork, hwipe, hbacking⟩ := h
  have hstop : l.start + l.len = p + 1 := hlr
  unfold canMerge
  rw [hlr, hr, hperms, hshared, hgrows, hlocked, hfork, hwipe]
  cases hlb : l.backing with
  | none =>
    rw [hlb] at hbacking
    cases hrb : r.backing with
    | none => simp
    | some b => simp [hrb] at hbacking
  | some b =>
    rw [hlb] at hbacking
    cases hrb : r.backing with
    | none => simp [hrb] at hbacking
    | some b' =>
      simp only [hrb, map_some, some.injEq, Prod.mk.injEq] at hbacking
      have hoffset : l.backingOffset + l.len = r.backingOffset := by omega
      simp [hbacking.1, hoffset]

/-- Where no two records can be merged, one record starts where the properties of one end. -/
theorem Merged.view_ne {m : VmMapping} {p : Nat} (h : v.Merged) (hv : v.mappings.Partition)
    (hm : m ∈ v.mappings.iter) (hstart : m.start = p + 1) (hbefore : (v.view p).isSome) :
    v.view (p + 1) ≠ (v.view p).map (·.shift 1) := by
  intro hview
  obtain ⟨a, ha⟩ := isSome_iff_exists.mp hbefore
  obtain ⟨e, he, hcov, rfl⟩ := hv.view_eq_some.mp ha
  have hentry := hv.mem_iter.mp hm
  have hself : v.view (p + 1) = some (m.attrAt (p + 1)) :=
    hv.view_eq_some.mpr ⟨_, hentry, ⟨hstart.le, hstart ▸ m.start_lt_stop⟩, rfl⟩
  have hstop : e.2.stop = p + 1 := by
    refine Nat.le_antisymm ?_ hcov.2
    by_contra hover
    -- a record that went on would cover the start of the other
    have hsame := hv.eq_of_covers he hentry ⟨by have := hcov.1; omega, not_le.mp hover⟩
      ⟨hstart.le, hstart ▸ m.start_lt_stop⟩
    have := hcov.1
    rw [hsame] at this
    dsimp only at this
    omega
  rw [hself, ha, map_some, some.injEq] at hview
  have hcan := h e.2 (hv.mem_iter.mpr (hv.keyed e he ▸ he)) m hm
  rw [canMerge_of_attrAt hcov.1 hstop hstart hview] at hcan
  cases hcan

/-- What a move needs to know about the old range and the new one. -/
structure MovePlan (v : Vmar) (oldRange : Range) (newStart newSize : Nat) : Prop where
  partition : v.mappings.Partition
  old_lt : oldRange.start < oldRange.stop
  mapped : ∀ p, oldRange.Mem p → (v.view p).isSome
  out : oldRange.stop ≤ newStart ∨ newStart + newSize ≤ oldRange.start
  mappable : vmarLowestAddr ≤ newStart ∧ newStart + newSize ≤ vmarCapAddr

/-- The outcome of a move whose records were moved in the address space `u`. -/
structure Relocated (v u v' : Vmar) (old new : Range) : Prop where
  partition : u.mappings.Partition
  mapped : ∀ d, d < min old.len new.len → (v.view (old.start + d)).isSome
  same : ∀ d, d < min old.len new.len → u.view (old.start + d) = v.view (old.start + d)
  spans : ∀ d, d < min old.len new.len → v.mappings.Spans old.start (old.start + d + 1) →
    u.mappings.Spans old.start (old.start + d + 1)
  moved : ∀ d, d < min old.len new.len → ∃ a, u.view (old.start + d) = some a ∧
    (v'.view (new.start + d) = some a ↔ (a.backing.isSome →
      u.mappings.Spans old.start (old.start + d + 1)))
  others : ∀ p, ¬ old.Mem p → ¬ new.Mem p → v'.view p = v.view p

/-- Dropping the tail of the old range and moving the rest. -/
theorem MovePlan.run {t : Vmar}
    (h : MovePlan v oldRange newStart newSize)
    (htail : Unmapped ⟨oldRange.start + newSize, oldRange.stop⟩ v t)
    (hrun : moveMapping before oldRange (min oldRange.len newSize) newStart newSize t =
      .ok (.ok start, v')) :
    start = newStart ∧ ∃ u, Relocated v u v' oldRange ⟨newStart, newStart + newSize⟩ := by
  have hlt := h.old_lt
  have hplace := h.out
  have hlen : oldRange.len = oldRange.stop - oldRange.start := rfl
  have hnewLen := Range.len_add newStart newSize
  have hkept : ∀ p, (oldRange.front (min oldRange.len newSize)).Mem p →
      oldRange.Mem p ∧ ¬ (⟨oldRange.start + newSize, oldRange.stop⟩ : Range).Mem p := by
    intro p hp
    simp only [Range.Mem] at *
    omega
  have hview : ∀ p, (oldRange.front (min oldRange.len newSize)).Mem p →
      t.view p = v.view p := by
    intro p hp
    rw [htail.view p, if_neg (hkept p hp).2]
  obtain ⟨rfl, u, hu, hmoved, hothers⟩ := moveMapping_run htail.partition (min_le_right _ _)
    (fun p hp => by rw [hview p hp]; exact h.mapped p (hkept p hp).1) (by omega) h.mappable hrun
  have hin : ∀ d < min oldRange.len newSize,
      (oldRange.front (min oldRange.len newSize)).Mem
        (oldRange.start + d) :=
    fun d hd => ⟨Nat.le_add_right _ _, Nat.add_lt_add_left hd _⟩
  refine ⟨rfl, u, hu.partition, ?_, ?_, ?_, ?_, ?_⟩
  · rw [hnewLen]
    exact fun d hd => h.mapped _ (hkept _ (hin d hd)).1
  · rw [hnewLen]
    intro d hd
    rw [hu.view, if_neg, hview _ (hin d hd)]
    simp only [Range.Mem]
    omega
  · rw [hnewLen]
    intro d hd hspans
    refine hu.spans _ _ (by omega) (by dsimp only; omega) (htail.spans _ _ (by omega) ?_ hspans)
    dsimp only
    omega
  · rw [hnewLen]
    exact hmoved
  · intro p hp hp'
    rw [hothers p (fun hmem => hp (hkept p hmem).1) hp', htail.view p, if_neg]
    simp only [Range.Mem] at *
    omega

section

variable {u : Vmar} {old new : Range} (h : Relocated v u v' old new)

include h

theorem Relocated.movedView
    (hbacked : v.BackedFromStart ⟨old.start, old.start + min old.len new.len⟩) :
    MovedView v v' old new := by
  refine ⟨h.mapped, fun d hd => ?_, h.others⟩
  obtain ⟨a, ha, hmoved⟩ := h.moved d hd
  have hsame := (h.same d hd).symm.trans ha
  rw [hsame]
  refine hmoved.mpr fun hsome => h.spans d hd (hbacked _ a ?_ hsame hsome)
  exact ⟨Nat.le_add_right _ _, Nat.add_lt_add_left hd _⟩

/-- A backed record that starts later has the offset of another record at the new place. -/
theorem Relocated.first (hv : v.mappings.Partition) (hmerged : v.Merged)
    (hview : MovedView v v' old new) {m : VmMapping} (hm : m ∈ v.mappings.iter)
    (hlt : old.start < m.start) (hin : m.start < old.start + min old.len new.len) :
    m.backing = none := by
  by_contra hbacked
  obtain ⟨d, hd⟩ : ∃ d, m.start = old.start + d + 1 := ⟨m.start - old.start - 1, by omega⟩
  have hself : v.view (old.start + (d + 1)) = some (m.attrAt m.start) := by
    rw [← Nat.add_assoc, ← hd]
    exact hv.view_eq_some.mpr ⟨_, hv.mem_iter.mp hm, ⟨le_rfl, m.start_lt_stop⟩, rfl⟩
  obtain ⟨a, ha, hmoved⟩ := h.moved (d + 1) (by omega)
  have hsame := (h.same (d + 1) (by omega)).symm.trans ha
  have hspans := hmoved.mp ((hview.moved (d + 1) (by omega)).trans hsame) (by
    rw [hself, some.injEq] at hsame
    rw [← hsame]
    simpa [attrAt, isSome_iff_ne_none] using hbacked)
  have hnext := view_of_spans h.partition hspans (Nat.le_add_right _ _)
  have hlast := h.same d (by omega)
  refine hmerged.view_ne hv hm hd (h.mapped d (by omega)) ?_
  rw [← hlast]
  exact (h.same (d + 1) (by omega)).symm.trans hnext

end

theorem shrinkTail_run (hv : v.mappings.Partition)
    (h : shrinkTail oldRange newSize v = .ok (.ok (), v')) :
    Unmapped ⟨oldRange.start + newSize, oldRange.stop⟩ v v' := by
  unfold shrinkTail at h
  split_ifs at h with hshrink
  · exact unmapRange_run hv h
  · cases h
    apply Unmapped.refl hv
    simp only [Range.len] at *
    omega

theorem out_of_free (hlt : oldRange.start < oldRange.stop)
    (hmapped : ∀ p, oldRange.Mem p → (v.view p).isSome)
    (hfree : v.mappings.Free ⟨newStart, newStart + newSize⟩) (hpos : 0 < newSize) :
    oldRange.stop ≤ newStart ∨ newStart + newSize ≤ oldRange.start := by
  by_contra hmeet
  have hsome := hmapped (max oldRange.start newStart) (by unfold Range.Mem; omega)
  have hnone := hfree (max oldRange.start newStart) (by dsimp only; omega) (by dsimp only; omega)
  rw [view, hnone] at hsome
  cases hsome

/-- A call that moved a range has dropped the tail of the old range and moved the rest. -/
theorem mremap_relocated {oldAddr oldSize newSize start : Nat} {flags : MremapFlags}
    {newAddr : Option Nat} (hv : v.mappings.Partition)
    (hflag : flags.contains .DONTUNMAP = false)
    (hrun : mremap oldAddr oldSize newSize flags newAddr v = .ok (.ok start, v'))
    (hmoved : start ≠ oldAddr) :
    ∃ old new u, pageAlignedSize oldSize = .ok old ∧ pageAlignedSize newSize = .ok new ∧
      Relocated v u v' ⟨oldAddr, oldAddr + old⟩ ⟨start, start + new⟩ := by
  obtain ⟨plan, mid, hcheck, hrun⟩ := Call.ok_of_run_bind hrun
  obtain ⟨hmid, haccepts⟩ := mremapCheck_run hcheck
  replace haccepts := haccepts plan rfl
  have hlt := haccepts.nonempty
  have hmapped := haccepts.mapped hv
  obtain ⟨old, new, newAddr', hsizes, rfl, -, hplace⟩ := haccepts
  dsimp only at hlt hmapped hplace
  obtain ⟨hold, hnew, _, _⟩ := checkMremap_eq_ok hsizes
  obtain ⟨_, _, hnewPos⟩ := pageAlignedSize_eq_ok hnew
  suffices hends : ∃ u, Relocated v u v' ⟨oldAddr, oldAddr + old⟩ ⟨start, start + new⟩ by
    obtain ⟨u, hu⟩ := hends
    exact ⟨old, new, u, hold, hnew, hu⟩
  have holdLen := Range.len_add oldAddr old
  rw [hmid, mremapApply, hflag] at hrun
  change (shrinkTail _ _ >>= _) v = _ at hrun
  obtain ⟨_, u, htail, hrun⟩ := Call.ok_of_run_bind hrun
  have hshrunk := shrinkTail_run hv htail
  cases newAddr' with
  | some newStart =>
    obtain ⟨hmappable, hint⟩ := hplace newStart rfl
    simp only [isIntersected, decide_eq_false_iff_not] at hint
    have hplan : MovePlan v ⟨oldAddr, oldAddr + old⟩ newStart new :=
      ⟨hv, hlt, hmapped, by dsimp only; omega, hmappable⟩
    obtain ⟨rfl, hends⟩ := hplan.run hshrunk hrun
    exact hends
  | none =>
    split_ifs at hrun with hgrow
    · -- a call that does not grow stays where it is
      obtain ⟨total, mid, htotal, hrun⟩ := Call.ok_of_run_bind hrun
      cases hrun
      exact absurd rfl hmoved
    have hsame : u = v := by
      unfold shrinkTail at htail
      rw [if_neg (by omega)] at htail
      cases htail
      rfl
    subst hsame
    obtain ⟨r, mid, hgrown, hrun⟩ := Call.ok_of_run_bind hrun
    rcases growInPlace_run hgrown with rfl | ⟨rfl, rfl⟩
    · cases hrun
      exact absurd rfl hmoved
    change (freeStart _ _ _ >>= _) u = _ at hrun
    obtain ⟨newStart, mid, hfind, hrun⟩ := Call.ok_of_run_bind hrun
    obtain ⟨rfl, hregion, hfree⟩ := freeStart_run hv hfind
    have hstop := hregion.stop_le
    have hplan : MovePlan u ⟨oldAddr, oldAddr + old⟩ newStart new := by
      refine ⟨hv, hlt, hmapped, out_of_free hlt hmapped hfree hnewPos, ⟨hregion.lowest_le, ?_⟩⟩
      simp only [defaultHighLimit] at hstop
      omega
    obtain ⟨rfl, hends⟩ := hplan.run hshrunk hrun
    exact hends

/-- The call moved the range with the properties of each of its addresses. -/
def MovesView (v v' : Vmar) (oldAddr oldSize newSize start : Nat) : Prop :=
  ∃ old new, pageAlignedSize oldSize = .ok old ∧ pageAlignedSize newSize = .ok new ∧
    MovedView v v' ⟨oldAddr, oldAddr + old⟩ ⟨start, start + new⟩

/-- A call that moved a range moved the properties of each of its addresses if and only if no backed
record starts inside the range. Where two neighbours could be merged, the call may merge them before
it moves them, so for one direction there must be none. -/
theorem mremap_movedView {oldAddr oldSize newSize start : Nat} {flags : MremapFlags}
    {newAddr : Option Nat} (hv : v.mappings.Partition)
    (hflag : flags.contains .DONTUNMAP = false)
    (hrun : mremap oldAddr oldSize newSize flags newAddr v = .ok (.ok start, v'))
    (hmoved : start ≠ oldAddr) :
    (v.BacksFirstOnly oldAddr oldSize newSize → MovesView v v' oldAddr oldSize newSize start) ∧
      (v.Merged → MovesView v v' oldAddr oldSize newSize start →
        v.BacksFirstOnly oldAddr oldSize newSize) := by
  obtain ⟨old, new, u, hold, hnew, hu⟩ := mremap_relocated hv hflag hrun hmoved
  have hmin : min (⟨oldAddr, oldAddr + old⟩ : Range).len (⟨start, start + new⟩ : Range).len =
      min old new := by rw [Range.len_add, Range.len_add]
  constructor
  · intro hfirst
    refine ⟨old, new, hold, hnew, hu.movedView ?_⟩
    rw [hmin]
    exact backedFromStart_of_first hv (hfirst old new hold hnew)
  · rintro hmerged ⟨old', new', hold', hnew', hview⟩ old'' new'' hold'' hnew'' m hm hlt hin
    cases hold.symm.trans hold'
    cases hold.symm.trans hold''
    cases hnew.symm.trans hnew'
    cases hnew.symm.trans hnew''
    exact hu.first hv hmerged hview hm hlt (by rw [hmin]; exact hin)

/-- Two pages with objects of their own, one after the other. -/
def twoFiles : Vmar :=
  { Vmar.new 0 with
    mappings := ⟨(SortedMap.empty.insert 0x200000
      (.new 0x200000 0x1000 (by decide) .READ true false (some ⟨1, .file, 0x9000⟩) 0)).insert 0x201000
      (.new 0x201000 0x1000 (by decide) .READ true false (some ⟨2, .file, 0x9000⟩) 0x3000)⟩
    totalVm := 0x2000 }

/-- The first of the two files can be moved by itself. -/
theorem movedView_of_first : ∃ v', mremap 0x200000 0x1000 0x1000 (.MAYMOVE ||| .FIXED)
      (some 0x400000) twoFiles = .ok (.ok 0x400000, v') ∧ twoFiles.Merged ∧
    MovesView twoFiles v' 0x200000 0x1000 0x1000 0x400000 := by
  have hreturns : ∃ v', mremap 0x200000 0x1000 0x1000 (.MAYMOVE ||| .FIXED) (some 0x400000)
      twoFiles = .ok (.ok 0x400000, v') := ⟨_, rfl⟩
  obtain ⟨v', hrun⟩ := hreturns
  have hmerged : twoFiles.Merged := by
    unfold Merged
    decide
  refine ⟨v', hrun, hmerged, (mremap_movedView (by decide) (by decide) hrun (by decide)).1 ?_⟩
  intro old new hold hnew
  cases hold
  cases hnew
  decide

/-- When both are moved, the second file is mapped at an offset that is a page too high. -/
theorem not_movedView_of_both : twoFiles.mappings.Partition ∧ ∃ v', mremap 0x200000 0x2000 0x2000
      (.MAYMOVE ||| .FIXED) (some 0x400000) twoFiles = .ok (.ok 0x400000, v') ∧
    ¬ MovesView twoFiles v' 0x200000 0x2000 0x2000 0x400000 := by
  have hreturns : ∃ v', mremap 0x200000 0x2000 0x2000 (.MAYMOVE ||| .FIXED) (some 0x400000)
      twoFiles = .ok (.ok 0x400000, v') ∧
        (v'.view 0x401000).map Attr.backing = some (some (2, 0x4000)) := ⟨_, rfl, rfl⟩
  obtain ⟨v', hrun, hbacking⟩ := hreturns
  refine ⟨by decide, v', hrun, ?_⟩
  rintro ⟨old, new, hold, hnew, hview⟩
  cases hold
  cases hnew
  have hsame := hview.moved 0x1000 (by decide)
  rw [hsame] at hbacking
  cases hbacking

end Vmar

end Petra.Vm
