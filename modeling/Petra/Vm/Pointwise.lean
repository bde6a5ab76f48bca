import Petra.Vm.Accounting
import Petra.Vm.Vmar

/-! # A carve is a pointwise update

On a valid set a carve comes back whatever operation it is given, as long as the operation
drops its pieces or keeps them in place. Outside the range nothing changes. Inside, each
address has what the operation made of its piece.
-/

namespace Petra.Vm

open Base List VmMapping

namespace VmMapping

/-- The part of a record from `a` to `b`. -/
def part (m : VmMapping) (a b : Nat) : VmMapping :=
  if h : a < b then
    { m with
      start := a
      len := b - a
      len_pos := Nat.sub_pos_of_lt h
      backingOffset := m.backingOffset + (a - m.start) }
  else m

/-- The part of a record inside a range that it meets. -/
def cut (m : VmMapping) (range : Range) : VmMapping :=
  m.part (intersect range m.range).start (intersect range m.range).stop

theorem part_of_lt (m : VmMapping) {a b : Nat} (h : a < b) :
    m.part a b = { m with
      start := a
      len := b - a
      len_pos := Nat.sub_pos_of_lt h
      backingOffset := m.backingOffset + (a - m.start) } := dif_pos h

theorem part_self (m : VmMapping) : m.part m.start m.stop = m := by
  have hlen : m.stop - m.start = m.len := Nat.add_sub_cancel_left m.start m.len
  rw [part_of_lt m m.start_lt_stop]
  simp only [hlen, Nat.sub_self, Nat.add_zero]

theorem part_part (m : VmMapping) {a b c d : Nat} (hstart : m.start ≤ a) (hac : a ≤ c)
    (hcd : c < d) (hdb : d ≤ b) : (m.part a b).part c d = m.part c d := by
  rw [part_of_lt _ hcd, part_of_lt m hcd, part_of_lt m (by omega : a < b)]
  have hoffset : m.backingOffset + (a - m.start) + (c - a) = m.backingOffset + (c - m.start) := by
    omega
  simp only [hoffset]

variable {m : VmMapping}

/-- A split inside a record whose offsets can be represented comes back. -/
theorem split_eq {pos : Nat} (hstart : m.start < pos) (hstop : pos < m.stop)
    (hpos : pageSize ∣ pos) (hoffset : m.backingOffset + m.len < usizeLimit) :
    m.split pos = .ok (m.part m.start pos, m.part pos m.stop) := by
  have hlen : m.len - (pos - m.start) = m.stop - pos := by
    unfold stop
    omega
  have hadd : addUsize m.backingOffset (pos - m.start) =
      .ok (m.backingOffset + (pos - m.start)) := by
    exact if_pos (by omega)
  rw [part_of_lt m hstart, part_of_lt m hstop, split,
    if_pos ⟨hstart, hstop, Nat.mod_eq_zero_of_dvd hpos⟩]
  simp only [withLen, Nat.sub_pos_of_lt hstart, hlen, Nat.sub_pos_of_lt hstop, dif_pos, hadd, bind,
    Except.bind, Nat.sub_self, Nat.add_zero]

/-- A record splits at any page-aligned range inside it. -/
theorem splitRange_part {sub : Range} (hstart : m.start ≤ sub.start)
    (hlt : sub.start < sub.stop) (hstop : sub.stop ≤ m.stop) (hstartDvd : pageSize ∣ sub.start)
    (hstopDvd : pageSize ∣ sub.stop) (hoffset : m.backingOffset + m.len < usizeLimit) :
    ∃ left right, m.splitRange sub = .ok (left, m.part sub.start sub.stop, right) := by
  rw [splitRange, if_neg (not_not.mpr ⟨hstart, hstop⟩)]
  split_ifs with hall hlow hhigh hhigh
  · rw [hall.1, hall.2, part_self]
    exact ⟨none, none, rfl⟩
  · -- both ends are cut off
    have hrest : (m.part sub.start m.stop).start = sub.start ∧
        (m.part sub.start m.stop).stop = m.stop ∧
        (m.part sub.start m.stop).backingOffset + (m.part sub.start m.stop).len < usizeLimit := by
      rw [part_of_lt m (by omega)]
      unfold stop at *
      dsimp only
      omega
    obtain ⟨hrestStart, hrestStop, hrestOffset⟩ := hrest
    rw [split_eq hlow (by omega) hstartDvd hoffset]
    simp only [bind, Except.bind]
    rw [split_eq (by omega) (by omega) hstopDvd hrestOffset, hrestStart, part_part m hstart le_rfl hlt hstop]
    exact ⟨_, _, rfl⟩
  · have hend : sub.stop = m.stop := by omega
    rw [split_eq hlow (by omega) hstartDvd hoffset, hend]
    exact ⟨_, none, rfl⟩
  · have hbegin : sub.start = m.start := by omega
    rw [split_eq (by omega) hhigh hstopDvd hoffset, hbegin]
    exact ⟨none, _, rfl⟩
  · omega

end VmMapping

namespace Mappings

variable {ms : Mappings} {τ : Type}

/-- A valid set: a partition, where each address of a record has a backing offset that can
be represented. -/
structure Valid (ms : Mappings) : Prop extends ms.Partition where
  offsets : ∀ e ∈ ms.map.entries, e.2.backingOffset + e.2.len < usizeLimit

/-- An operation that drops a piece or returns it at its own place. -/
structure Edits (op : CarveOp τ) : Prop where
  returns : ∀ env m sub, ∃ kept env', op env m sub = .ok (kept, env')
  place : ∀ env m sub k env', op env m sub = .ok (some k, env') →
    k.start = m.start ∧ k.len = m.len

/-- The operation applied to one piece after another. -/
def applyAll (op : CarveOp τ) (env : τ) :
    List VmMapping → Except Panic (List (Option VmMapping) × τ)
  | [] => .ok ([], env)
  | piece :: pieces => do
    let (kept, env) ← op env piece piece.range
    let (rest, env) ← applyAll op env pieces
    .ok (kept :: rest, env)

/-- The parts of the records inside a range, in ascending order. -/
def cuts (ms : Mappings) (range : Range) : List VmMapping :=
  (ms.inside range).map (fun m => m.cut range)

variable {m : VmMapping} {range : Range}

theorem intersect_lt (hmeets : meets range m = true) (hrange : range.start < range.stop) :
    (intersect range m.range).start < (intersect range m.range).stop := by
  simp only [meets, Bool.and_eq_true, decide_eq_true_eq] at hmeets
  have hlt := m.start_lt_stop
  simp only [intersect, VmMapping.range]
  omega

theorem cut_range (hmeets : meets range m = true)
    (hrange : range.start < range.stop) : (m.cut range).range = intersect range m.range := by
  have hlt := intersect_lt hmeets hrange
  unfold cut
  generalize intersect range m.range = sub at hlt ⊢
  rw [part_of_lt m hlt]
  unfold VmMapping.range VmMapping.stop
  rw [Nat.add_sub_cancel' hlt.le]

variable {l : List VmMapping}

theorem Pieces.splitRange_cut (hl : Pieces range l) (hm : m ∈ l) (hstart : pageSize ∣ range.start)
    (hstop : pageSize ∣ range.stop) (hoffset : m.backingOffset + m.len < usizeLimit) :
    ∃ left right, m.splitRange (intersect range m.range) = .ok (left, m.cut range, right) := by
  have hplaced := hl.placed m hm
  apply splitRange_part (le_max_right _ _) (intersect_lt (hl.meet m hm) hl.nonempty)
    (min_le_right _ _) _ _ hoffset
  · change pageSize ∣ max range.start m.start
    rcases max_choice range.start m.start with h | h
    · rwa [h]
    · rw [h]
      exact hplaced.start_aligned
  · change pageSize ∣ min range.stop m.stop
    rcases min_choice range.stop m.stop with h | h
    · rwa [h]
    · rw [h]
      exact hplaced.stop_aligned

/-- A carve of valid pieces comes back with what the operation makes of them. -/
theorem carvePieces_returns {op : CarveOp τ} (hop : Edits op)
    (hl : Pieces range l) (hstart : pageSize ∣ range.start) (hstop : pageSize ∣ range.stop)
    (hoffset : ∀ m ∈ l, m.backingOffset + m.len < usizeLimit) (env : τ) : ∃ results outcome env',
      applyAll op env (l.map (fun m => m.cut range)) = .ok (results.map Prod.snd, env') ∧
      carvePieces range op env l =
        .ok (results.flatMap (fun r => r.1 ++ r.2.toList), outcome, env') ∧
      List.Forall₂ (Settled range) l results ∧
      outcome.mapped = (l.map (fun m => (intersect range m.range).len)).sum ∧
      outcome.dropped = droppedLen range l results := by
  induction l generalizing env with
  | nil => exact ⟨[], ⟨0, 0⟩, env, rfl, rfl, List.Forall₂.nil, rfl, rfl⟩
  | cons m rest ih =>
    have hmeets := hl.meet m (by simp)
    obtain ⟨left, right, hsplit⟩ := hl.splitRange_cut (by simp) hstart hstop (hoffset m (by simp))
    obtain ⟨kept, mid, hkept⟩ := hop.returns env (m.cut range) (intersect range m.range)
    obtain ⟨results, outcome, env', happly, hcarve, hsettled, hmapped, hdropped⟩ :=
      ih hl.tail (fun k hk => hoffset k (by simp [hk])) mid
    have hdiv := splitRange_divided (hl.placed m (by simp)) hl.nonempty hsplit
    refine ⟨(left.toList ++ right.toList, kept) :: results,
      ⟨(intersect range m.range).len + outcome.mapped,
        (if kept.isSome then 0 else (intersect range m.range).len) + outcome.dropped⟩,
      env', ?_, ?_, List.Forall₂.cons ⟨_, hdiv, ?_⟩ hsettled, ?_, ?_⟩
    · simp only [map_cons, applyAll, cut_range hmeets hl.nonempty, hkept, happly, bind,
        Except.bind]
    · simp only [carvePieces, hsplit, hkept, hcarve, bind, Except.bind, flatMap_cons]
    · rintro k rfl
      exact hop.place _ _ _ _ _ hkept
    · simp only [hmapped, map_cons, sum_cons]
    · simp only [hdropped, droppedLen, zip_cons_cons, map_cons, sum_cons]

/-- How a carve changes the properties of addresses, and what it counts. -/
structure PointwiseUpdate (range : Range) (op : CarveOp τ) (env : τ) (ms ms' : Mappings)
    (outcome : CarveOutcome) (env' : τ) : Prop where
  partition : ms'.Partition
  outside : ∀ p, ¬ range.Mem p → ms'.view p = ms.view p
  unmapped : ∀ p, ms.view p = none → ms'.view p = none
  /-- A mapped address of the range has what the operation returned for its piece. -/
  inside : ∃ results, applyAll op env (ms.cuts range) = .ok (results, env') ∧
    ∀ p m, range.Mem p → ms.get p = some m →
      ∃ kept, (m.cut range, kept) ∈ (ms.cuts range).zip results ∧ ms'.view p = newAttr kept p
  mapped : outcome.mapped = ms.overlap range
  dropped : outcome.dropped = (ms.lost ms' range).card

theorem exists_mem_zip {R : VmMapping → List VmMapping × Option VmMapping → Prop}
    {results : List (List VmMapping × Option VmMapping)}
    (h : List.Forall₂ R l results) (hm : m ∈ l) : ∃ r, (m, r) ∈ l.zip results ∧ R m r := by
  induction h with
  | nil => cases hm
  | cons hhead _ ih =>
    rcases mem_cons.mp hm with rfl | hm
    · exact ⟨_, by simp, hhead⟩
    · obtain ⟨r, hr, hrel⟩ := ih hm
      exact ⟨r, by simp [hr], hrel⟩

theorem Partition.mem_inside_of_get (h : ms.Partition) {p : Nat}
    (hp : range.Mem p) (hm : ms.get p = some m) : m ∈ ms.inside range ∧ m.Covers p := by
  obtain ⟨hmem, hcov⟩ := h.get_eq_some.mp hm
  exact ⟨h.mem_inside.mpr ⟨hmem, hp.1.trans_lt hcov.2, hcov.1.trans_lt hp.2⟩, hcov⟩

/-- A carve of a page-aligned range of a valid set comes back, and it is a pointwise update.
Putting a record in sets the addresses of the record, whatever it is merged with. -/
theorem Valid.carve_pointwise {range : Range} {op : CarveOp τ} (hms : ms.Valid) (hop : Edits op)
    (hstart : pageSize ∣ range.start) (hstop : pageSize ∣ range.stop)
    (hlt : range.start < range.stop) (env : τ) :
    (∃ ms' outcome env', ms.carve range op env = .ok (ms', outcome, env') ∧
      PointwiseUpdate range op env ms ms' outcome env') ∧
    ∀ m, ms.Fits m → ∃ ms', ms.insert m = .ok ms' ∧ ms'.Partition ∧
      ∀ p, ms'.view p = if m.Covers p then some (m.attrAt p) else ms.view p := by
  have hpart := hms.toPartition
  refine ⟨?_, ?_⟩
  · have hoffset : ∀ m ∈ ms.inside range, m.backingOffset + m.len < usizeLimit :=
      fun m hm => hms.offsets _ (hpart.mem_inside.mp hm).1
    obtain ⟨results, outcome, env', happly, hcarve, hsettled, hmapped, hdropped⟩ :=
      carvePieces_returns hop (hpart.pieces hlt) hstart hstop hoffset env
    obtain ⟨ms', hput, hnew⟩ := hpart.insertAll_settled hsettled
    have hrun : ms.carve range op env = .ok (ms', outcome, env') := by
      rw [carve, if_pos ⟨Nat.mod_eq_zero_of_dvd hstart, Nat.mod_eq_zero_of_dvd hstop, hlt⟩,
        hpart.takeIn hlt.le]
      simp only [bind, Except.bind, hcarve, hput]
    refine ⟨ms', outcome, env', hrun, hnew.partition, hnew.outside, hnew.unmapped, ⟨_, happly, ?_⟩,
      hmapped.trans (hpart.sum_intersect range), hdropped.trans (hpart.card_lost hnew)⟩
    intro p m hp hm
    obtain ⟨hin, hcov⟩ := hpart.mem_inside_of_get hp hm
    obtain ⟨r, hr, hview⟩ := exists_mem_zip hnew.inside hin
    refine ⟨r.2, ?_, hview p hp hcov⟩
    rw [cuts, zip_map]
    exact mem_map.mpr ⟨(m, r), hr, rfl⟩
  · intro m hfits
    obtain ⟨ms', hrun, hpart', hview⟩ := hfits.insert
    exact ⟨ms', hrun, hpart', fun p => congrFun hview p⟩

/-- Lock the backed pieces and drop the others, counting the pieces. -/
def lockBacked : CarveOp Nat := fun count piece _ =>
  .ok (if piece.backing.isSome then some { piece with locked := true } else none, count + 1)

theorem lockBacked_edits : Edits lockBacked where
  returns env m sub := ⟨_, _, rfl⟩
  place env m sub k env' h := by
    unfold lockBacked at h
    split_ifs at h <;> cases h
    exact ⟨rfl, rfl⟩

/-- A file mapped on three pages, with an anonymous page after it. -/
def fileAndPage : Mappings :=
  ⟨(SortedMap.empty.insert 0x200000
    (.new 0x200000 0x3000 (by decide) .READ false false (some ⟨7, .file, 0x9000⟩) 0x4000)).insert
    0x203000 (.new 0x203000 0x1000 (Nat.succ_pos _) .READ false false none 0)⟩

theorem fileAndPage_valid : fileAndPage.Valid :=
  { (by decide : fileAndPage.Partition) with offsets := by decide }

/-- The middle of the file mapping is locked and the anonymous page is gone. -/
theorem carve_fileAndPage : (fileAndPage.carve ⟨0x201000, 0x204000⟩ lockBacked 0).map
        (fun r => (r.1.iter.map (fun m => (m.start, m.len, m.locked)), r.2)) =
      .ok ([(0x200000, 0x1000, false), (0x201000, 0x2000, true)], ⟨0x3000, 0x1000⟩, 2) ∧
    ∃ ms' outcome env', fileAndPage.carve ⟨0x201000, 0x204000⟩ lockBacked 0 =
        .ok (ms', outcome, env') ∧
      PointwiseUpdate ⟨0x201000, 0x204000⟩ lockBacked 0 fileAndPage ms' outcome env' :=
  ⟨rfl, (fileAndPage_valid.carve_pointwise lockBacked_edits (by decide) (by decide) (by decide)
    0).1⟩

end Mappings

end Petra.Vm
