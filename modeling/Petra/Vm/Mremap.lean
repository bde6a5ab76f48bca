import Petra.Vm.Move

/-! # mremap

Shrinking, growing in place and moving keep the invariant. The running total is right
afterwards if nothing was mapped at the new place, since the call restores the total from
the value it had before. Keeping the old place as well is right if the old range is a
whole record.
-/

namespace Petra.Vm

open Base Option Finset VmMapping Mappings
open Call (Ensures Keeps)

/-- The first addresses of a range. -/
abbrev Range.front (r : Range) (n : Nat) : Range := ⟨r.start, r.start + n⟩

namespace Vmar

variable {exact : Prop} {v₀ v : Vmar}

/-- A mapped range counts towards the total. -/
theorem len_le_totalLen {ms : Mappings} (h : ms.Partition) {r : Range}
    (hmapped : ∀ p, r.Mem p → (ms.view p).isSome) : r.len ≤ ms.totalLen := by
  have hfull := overlap_eq_len.mpr hmapped
  rw [h.totalLen_eq, ← hfull]
  apply card_le_card
  intro p hp
  obtain ⟨hmem, hsome⟩ := mem_filter.mp hp
  obtain ⟨a, ha⟩ := isSome_iff_exists.mp hsome
  exact mem_filter.mpr ⟨h.mem_wholeSpace ha, hsome⟩

variable {outcome : CarveOutcome} {moved : Range} {newStart growBy total : Nat}

/-- Entries and records moved together, with the total brought up to date. -/
theorem Good.move {ms' : Mappings}
    {pages env' : VmSpace} (hv : v.Good exact) (hmov : Movable v.mappings moved newStart growBy)
    (hpt : movePt v.vmSpace moved ⟨newStart, newStart + moved.len⟩ = .ok pages)
    (hrun : v.mappings.carve moved (movePiece moved newStart growBy) pages =
      .ok (ms', outcome, env')) (htotal : exact → total = v.totalVm + growBy) :
    Tracked exact v { v with mappings := ms', vmSpace := pages, totalVm := total } := by
  obtain ⟨_, _, hlt, _⟩ := carve_eq_ok hv.partition hrun
  obtain ⟨hpart, _, _, hnew, hold, hrest⟩ := hmov.carve hrun
  have hfreePages : ∀ q, (target moved newStart growBy).Mem q → v.vmSpace.get? q = none := by
    intro q hq
    cases hpte : v.vmSpace.get? q with
    | none => rfl
    | some pte =>
      have hsome := hv.resident q pte hpte
      rw [view, hmov.free q hq.1 hq.2] at hsome
      cases hsome
  have htarget : ∀ q, (⟨newStart, newStart + moved.len⟩ : Range).Mem q →
      (target moved newStart growBy).Mem q := by
    intro q hq
    unfold target
    simp only [Range.Mem] at hq ⊢
    omega
  have hpages := movePt_eq_ok (fun q hq => hfreePages q (htarget q hq)) hpt
  -- an entry of the new page table lies at its new place, or where it was outside both ranges
  have hcases : ∀ p pte, pages.get? p = some pte →
      ((⟨newStart, newStart + moved.len⟩ : Range).Mem p ∧
        v.vmSpace.get? (moveOrigin moved newStart p) = some pte) ∨
      (¬ (target moved newStart growBy).Mem p ∧ ¬ moved.Mem p ∧ v.vmSpace.get? p = some pte) := by
    intro p pte hp
    rw [hpages] at hp
    split_ifs at hp with hmem hmem'
    · refine .inl ⟨hmem, ?_⟩
      rw [moveOrigin, if_pos hmem.2]
      exact hp
    · refine .inr ⟨?_, hmem', hp⟩
      intro hin
      rw [hfreePages p hin] at hp
      cases hp
  refine ⟨⟨hpart, ?_, ?_⟩, ?_⟩
  · intro p pte hp
    rcases hcases p pte hp with ⟨hmem, _⟩ | ⟨hnot, hnot', hpte⟩
    · obtain ⟨a, b, _, hb, _⟩ := hnew p (htarget p hmem)
      exact isSome_iff_exists.mpr ⟨b, hb⟩
    · have hsome := hv.resident p pte hpte
      change (ms'.view p).isSome
      rwa [hrest p hnot hnot']
  · intro hexact
    have hexchange := hv.partition.totalLen_exchange hpart moved (target moved newStart growBy)
      hmov.mapped hmov.free hmov.stop_le (by
        intro p
        by_cases hin : (target moved newStart growBy).Mem p
        · obtain ⟨a, b, _, hb, _⟩ := hnew p hin
          simp [hb, hin]
        · by_cases hin' : moved.Mem p
          · simp [hold p hin', hin, hin']
          · simp [hrest p hin hin', hin, hin'])
    have hlen : (target moved newStart growBy).len = moved.len + growBy := by
      simp only [target, Range.len]
      omega
    have hbefore := hv.total hexact
    have hafter := htotal hexact
    dsimp only
    omega
  · refine ⟨fun p => if (⟨newStart, newStart + moved.len⟩ : Range).Mem p
      then moveOrigin moved newStart p else p, ?_, ?_⟩
    · intro p pte hp
      dsimp only at hp ⊢
      rcases hcases p pte hp with ⟨hmem, hpte⟩ | ⟨hnot, hnot', hpte⟩
      · rw [if_pos hmem]
        refine ⟨pte, hpte, rfl, ?_⟩
        rintro hw ⟨b, hb, hshared⟩
        obtain ⟨m, b', hm, hb', hsame, _⟩ := hnew p (htarget p hmem)
        obtain rfl := some.inj (hb.symm.trans hb')
        exact ⟨hw, m.attrAt _, by rw [view, Mappings.view, hm]; rfl, hsame ▸ hshared⟩
      · rw [if_neg (fun hmem => hnot (htarget p hmem))]
        refine ⟨pte, hpte, rfl, ?_⟩
        rintro hw ⟨b, hb, hshared⟩
        refine ⟨hw, b, ?_, hshared⟩
        rw [← hb]
        exact (hrest p hnot hnot').symm
    · intro p q hp hq heq
      obtain ⟨pte, hpte⟩ := isSome_iff_exists.mp hp
      obtain ⟨qte, hqte⟩ := isSome_iff_exists.mp hq
      dsimp only at hpte hqte heq
      have hin : ∀ x, (⟨newStart, newStart + moved.len⟩ : Range).Mem x →
          moved.Mem (moveOrigin moved newStart x) ∧
            moveOrigin moved newStart x = moved.start + (x - newStart) ∧ newStart ≤ x := by
        intro x hx
        refine ⟨moveOrigin_mem hlt .., ?_, hx.1⟩
        rw [moveOrigin, if_pos hx.2]
      rcases hcases p pte hpte with ⟨hpm, _⟩ | ⟨hpn, hpo, _⟩ <;>
        rcases hcases q qte hqte with ⟨hqm, _⟩ | ⟨hqn, hqo, _⟩
      · rw [if_pos hpm, if_pos hqm] at heq
        have h1 := hin p hpm
        have h2 := hin q hqm
        omega
      · rw [if_pos hpm, if_neg (fun h => hqn (htarget q h))] at heq
        exact absurd (heq ▸ (hin p hpm).1) hqo
      · rw [if_neg (fun h => hpn (htarget p h)), if_pos hqm] at heq
        exact absurd (heq ▸ (hin q hqm).1) hpo
      · rwa [if_neg (fun h => hpn (htarget p h)), if_neg (fun h => hqn (htarget q h))] at heq

/-! ### The pieces of the call -/

theorem resizedTotal_ensures {P : Vmar → Prop} {β : Type} {Q : Except Errno β → Vmar → Prop}
    {old new : Nat} {f : Nat → VmCall β} (hle : exact → old ≤ total)
    (h : old ≤ total → (f (total - old + new)).Ensures P Q (NoUnderflow exact)) :
    (resizedTotal total old new >>= f).Ensures P Q (NoUnderflow exact) := by
  by_cases hok : old ≤ total
  · cases hadd : addUsize (total - old) new with
    | error p =>
      have hrun : (resizedTotal total old new >>= f) = Call.abort (.kernel p) := by
        unfold resizedTotal
        simp only [hok, hadd]
        rfl
      rw [hrun]
      exact Ensures.abort (fun _ _ => noUnderflow_kernel exact p)
    | ok sum =>
      obtain ⟨rfl, _⟩ := addUsize_eq_ok hadd
      have hrun : (resizedTotal total old new >>= f) = f (total - old + new) := by
        unfold resizedTotal
        simp only [hok, hadd]
        rfl
      rw [hrun]
      exact h hok
  · have hrun : (resizedTotal total old new >>= f) = Call.abort .totalVm := by
      unfold resizedTotal
      simp only [hok]
      rfl
    rw [hrun]
    exact Ensures.abort (fun _ _ hexact => absurd (hle hexact) hok)

/-- What a move needs: the range that is kept is mapped and the new place lies elsewhere. -/
structure CanMove (exact : Prop) (before : Nat) (oldRange : Range) (kept newStart newSize : Nat)
    (v : Vmar) : Prop where
  kept_pos : 0 < kept
  kept_le : kept ≤ oldRange.len
  kept_le_new : kept ≤ newSize
  mapped : ∀ p, (⟨oldRange.start, oldRange.start + kept⟩ : Range).Mem p → (v.view p).isSome
  apart : ∀ p, (⟨oldRange.start, oldRange.start + kept⟩ : Range).Mem p →
    ¬ (⟨newStart, newStart + newSize⟩ : Range).Mem p
  mappable : vmarLowestAddr ≤ newStart ∧ newStart + newSize ≤ vmarCapAddr
  free : exact → v.mappings.Free ⟨newStart, newStart + newSize⟩
  before_eq : exact → before = v.totalVm + (oldRange.len - kept)

variable {before kept newStart newSize : Nat} {oldRange : Range}

theorem CanMove.kept_le_total (h : CanMove exact before oldRange kept newStart newSize v)
    (hv : v.Good exact) (hexact : exact) : kept ≤ v.totalVm := by
  have hlen := len_le_totalLen hv.partition h.mapped
  have hkept := Range.len_add oldRange.start kept
  rw [hv.total hexact, ← hkept]
  exact hlen

variable {u : Vmar} {newSize before : Nat}

/-- Unmapping a range where nothing is mapped changes nothing. -/
theorem InPlace.totalVm_of_free {range : Range} {page : Attr → Pte → Option Pte}
    (hin : InPlace range (fun _ => none) page outcome v u)
    (hv : v.Good exact) (hfree : v.mappings.Free range) : u.totalVm = v.totalVm := by
  have hsame : u.mappings.totalLen = v.mappings.totalLen := by
    rw [hin.partition.totalLen_eq, hv.partition.totalLen_eq]
    unfold overlap
    congr 1
    apply filter_congr
    intro p _
    have hview : u.mappings.view p = _ := hin.view p
    rw [hview]
    split_ifs with hp
    · simp [hfree p hp.1 hp.2]
    · rfl
  have hdropped := hin.dropped
  have hlen := hin.totalLen
  omega

/-- Once the new place has been unmapped, the range can be moved there. -/
theorem CanMove.after_unmap (h : CanMove exact before oldRange kept newStart newSize v)
    (hv : v.Good exact)
    (hin : InPlace ⟨newStart, newStart + newSize⟩ (fun _ => none) (fun _ _ => none) outcome v u) :
    Movable u.mappings (oldRange.front kept) newStart (newSize - kept) ∧
      (exact → before - oldRange.len + newSize = u.totalVm + (newSize - kept)) := by
  have hle := h.kept_le_new
  have htarget : target (oldRange.front kept) newStart (newSize - kept) =
      ⟨newStart, newStart + newSize⟩ := by
    unfold target Range.len
    dsimp only
    congr 1
    omega
  refine ⟨⟨hin.partition, ?_, ?_, h.mappable.1, htarget ▸ h.mappable.2⟩, ?_⟩
  · intro p hp
    have hview := hin.view p
    rw [if_neg (h.apart p hp)] at hview
    change (u.view p).isSome
    rw [hview]
    exact h.mapped p hp
  · rw [htarget]
    intro p hp hp'
    exact (hin.view p).trans (by rw [if_pos ⟨hp, hp'⟩, bind_fun_none])
  · intro hexact
    -- nothing was mapped at the new place, so the unmap dropped nothing
    have hsame := hin.totalVm_of_free hv (h.free hexact)
    have hbefore := h.before_eq hexact
    have hkept := h.kept_le_total hv hexact
    have hold := h.kept_le
    omega

theorem carveMoved_ensures (hmov : Movable v.mappings moved newStart growBy) :
    (carve moved (movePiece moved newStart growBy)).Ensures (· = v)
      (fun r s => r.isOk ∧ ∃ ms' outcome env', v.mappings.carve moved
        (movePiece moved newStart growBy) v.vmSpace = .ok (ms', outcome, env') ∧
          s = { v with mappings := ms' })
      (NoUnderflow exact) := by
  apply Ensures.get
  rintro _ rfl
  apply ensures_kernel
  rintro ⟨ms', outcome, env'⟩ hcarve
  obtain ⟨_, henv, hdropped, _⟩ := hmov.carve hcarve
  apply Ensures.assert
  · intro hover
    rw [hdropped] at hover
    simp at hover
  · intro _
    apply Ensures.set_pure
    exact ⟨rfl, ms', outcome, env', hcarve, by rw [henv, hdropped, Nat.sub_zero]⟩

theorem moveMapping_ensures : (moveMapping before oldRange kept newStart newSize).Ensures
      (fun s => Tracked exact v₀ s ∧ CanMove exact before oldRange kept newStart newSize s)
      (fun _ => Tracked exact v₀) (NoUnderflow exact) := by
  apply Ensures.of_forall
  rintro s ⟨hs, hmove⟩
  apply ensures_addUsize
  apply resizedTotal_ensures
  · intro hexact
    have hbefore := hmove.before_eq hexact
    have hkept := hmove.kept_le_total hs.1 hexact
    omega
  intro _
  apply Ensures.get
  rintro t rfl
  apply Ensures.orFail (fun _ _ h => h ▸ hs)
  intro _ _
  apply Ensures.bind (R := fun _ u => Tracked exact v₀ u ∧
    Movable u.mappings (oldRange.front kept) newStart (newSize - kept) ∧
    (exact → before - oldRange.len + newSize = u.totalVm + (newSize - kept)))
  · refine (unmapRange_ensures hs.1).imp ?_
    rintro _ u ⟨rfl, outcome, _, hin⟩
    exact ⟨hin.tracked pieceOp_drop hs, hmove.after_unmap hs.1 hin⟩
  intro _
  apply Ensures.get
  rintro u ⟨hu, hmov, htotal⟩
  apply ensures_kernel
  intro pages hpages
  apply Ensures.set
  apply Ensures.bind (R := fun _ w => ∃ ms' outcome env',
    u.mappings.carve (oldRange.front kept)
      (movePiece (oldRange.front kept) newStart (newSize - kept)) pages =
        .ok (ms', outcome, env') ∧ w = { u with mappings := ms', vmSpace := pages })
  · refine (carveMoved_ensures (v := { u with vmSpace := pages }) hmov).imp ?_
    rintro r w ⟨hok, ms', outcome, env', hcarve, rfl⟩
    cases r with
    | error e => cases hok
    | ok out => exact ⟨ms', outcome, env', hcarve, rfl⟩
  intro _
  apply Ensures.get
  rintro w ⟨ms', outcome, env', hcarve, rfl⟩
  apply Ensures.set_pure
  have hkept := Range.len_add oldRange.start kept
  obtain ⟨hgood, hevolves⟩ := hu.1.move hmov (hkept.symm ▸ hpages) hcarve htotal
  exact ⟨hgood, hu.2.trans hevolves⟩

/-- A resize of a mapped range. -/
structure Resizes (exact : Prop) (before : Nat) (oldRange : Range) (newSize : Nat) (v : Vmar) :
    Prop where
  nonempty : oldRange.start < oldRange.stop
  mapped : ∀ p, oldRange.Mem p → (v.view p).isSome
  new_pos : 0 < newSize
  before_eq : exact → before = v.totalVm

theorem Resizes.len_le (h : Resizes exact before oldRange newSize v) (hv : v.Good exact)
    (hexact : exact) : oldRange.len ≤ before := by
  rw [h.before_eq hexact, hv.total hexact]
  exact len_le_totalLen hv.partition h.mapped

theorem growInPlace_ensures (hv : Tracked exact v₀ v)
    (hres : Resizes exact before oldRange newSize v) (hgrow : oldRange.len < newSize) :
    (growInPlace before oldRange newSize).Ensures (· = v) (fun r s => match r with
        | .ok none => s = v
        | _ => Tracked exact v₀ s) (NoUnderflow exact) := by
  have hkeep : (pure none : VmCall (Option Nat)).Ensures (· = v) (fun r s => match r with
        | .ok none => s = v
        | _ => Tracked exact v₀ s) (NoUnderflow exact) :=
    Ensures.pure (fun _ h => h)
  have hpart := hv.1.partition
  have hlt := hres.nonempty
  unfold Range.len at hgrow
  apply Ensures.get
  rintro s rfl
  apply ensures_addUsize
  apply Ensures.ite _ (fun _ => hkeep)
  intro hmappable
  simp only [isMappableRange, Bool.and_eq_true, decide_eq_true_eq] at hmappable
  apply ensures_kernel
  intro taken htaken
  apply Ensures.ite _ (fun _ => hkeep)
  intro hzero
  rw [hpart.countOverlap (by dsimp only; omega), hzero] at htaken
  have hfree : s.mappings.Free ⟨oldRange.stop, oldRange.start + newSize⟩ :=
    overlap_eq_zero.mp (Except.ok.inj htaken)
  cases hlast : s.mappings.get (oldRange.stop - 1) with
  | none => exact hkeep
  | some last =>
    obtain ⟨hmem, hcov⟩ := hpart.get_eq_some.mp hlast
    -- the record ends with the old range, since what follows is free
    have hend : last.stop = oldRange.stop := by
      by_contra hne
      have hnone := hfree oldRange.stop le_rfl (by dsimp only; omega)
      rw [hpart.view_eq_none] at hnone
      have hstart := hcov.1
      have hstop' := hcov.2
      exact hnone _ hmem ⟨by dsimp only; omega, by dsimp only; omega⟩
    apply resizedTotal_ensures (hres.len_le hv.1)
    intro hbefore
    apply Ensures.orFail (fun _ _ h => h ▸ hv)
    intro _ _
    rw [mem_remove hmem]
    apply ensures_kernel
    intro k hk
    apply ensures_kernel
    intro ms' hrun
    apply Ensures.set_pure
    have hnew : last.stop + (newSize - oldRange.len) = oldRange.start + newSize := by
      unfold Range.len
      omega
    have htotal : exact → before - oldRange.len + newSize =
        s.totalVm + (newSize - oldRange.len) := by
      intro hexact
      have hsame := hres.before_eq hexact
      omega
    obtain ⟨hgood, hevolves⟩ := hv.1.enlarge hmem hk (hnew ▸ hmappable.2)
      (by rw [hnew, hend]; exact hfree) hrun htotal
    exact ⟨hgood, hv.2.trans hevolves⟩

/-- The new place of a move: mappable and apart from the old range. -/
structure NewPlace (exact : Prop) (oldRange : Range) (newStart newSize : Nat) (v : Vmar) :
    Prop where
  mappable : vmarLowestAddr ≤ newStart ∧ newStart + newSize ≤ vmarCapAddr
  apart : ∀ p, oldRange.Mem p → ¬ (⟨newStart, newStart + newSize⟩ : Range).Mem p
  free : exact → v.mappings.Free ⟨newStart, newStart + newSize⟩

/-- The state once the tail of a shrinking call is gone. -/
structure Shrunk (exact : Prop) (before : Nat) (oldRange : Range) (newSize : Nat) (v u : Vmar) :
    Prop where
  view : ∀ p, (⟨oldRange.start, oldRange.start + min oldRange.len newSize⟩ : Range).Mem p →
    u.view p = v.view p
  free : ∀ p, v.view p = none → u.view p = none
  total : exact → before = u.totalVm + (oldRange.len - min oldRange.len newSize)

theorem shrinkTail_ensures (hv : Tracked exact v₀ v)
    (hres : Resizes exact v.totalVm oldRange newSize v) :
    (shrinkTail oldRange newSize).Ensures (· = v)
      (fun r s => r = .ok () ∧ Tracked exact v₀ s ∧
        Shrunk exact v.totalVm oldRange newSize v s ∧ (oldRange.len < newSize → s = v))
      (NoUnderflow exact) := by
  apply Ensures.ite
  · intro hshrink
    refine (unmapRange_ensures hv.1).imp ?_
    rintro _ u ⟨rfl, outcome, _, hin⟩
    refine ⟨rfl, hin.tracked pieceOp_drop hv, ⟨?_, ?_, ?_⟩, fun hgrow => by omega⟩
    · intro p hp
      rw [hin.view p, if_neg]
      simp only [Range.Mem] at *
      omega
    · intro p hp
      rw [hin.view p, hp, bind_none, ite_self]
    intro hexact
    have hempty : ∀ p, ¬ (⟨0, 0⟩ : Range).Mem p := fun p hp => Nat.not_lt_zero p hp.2
    have hexchange := hv.1.partition.totalLen_exchange hin.partition
      ⟨oldRange.start + newSize, oldRange.stop⟩ ⟨0, 0⟩ (by
        intro p hp
        apply hres.mapped
        simp only [Range.Mem] at *
        omega) (fun p hp hp' => absurd ⟨hp, hp'⟩ (hempty p)) (Nat.zero_le _) (by
        intro p
        have hview : u.mappings.view p = _ := hin.view p
        rw [hview]
        by_cases hp : (⟨oldRange.start + newSize, oldRange.stop⟩ : Range).Mem p
        · simp [hp, hempty p]
        · simp only [hp, not_false_eq_true, and_true, hempty p, or_false]
          rfl)
    have htotal := (hin.good pieceOp_drop hv.1).total hexact
    have htotal' := hv.1.total hexact
    simp only [Range.len] at *
    omega
  · intro hgrow
    apply Ensures.pure
    rintro s rfl
    refine ⟨rfl, hv, ⟨fun _ _ => rfl, fun _ h => h, ?_⟩, fun _ => rfl⟩
    intro _
    omega

theorem Shrunk.canMove (h : Shrunk exact before oldRange newSize v u)
    (hres : Resizes exact before oldRange newSize v)
    (hplace : NewPlace exact oldRange newStart newSize v) :
    CanMove exact before oldRange (min oldRange.len newSize) newStart newSize u := by
  have hlt := hres.nonempty
  have hpos := hres.new_pos
  have hsub : ∀ p, (oldRange.front (min oldRange.len newSize)).Mem p →
      oldRange.Mem p := by
    intro p hp
    simp only [Range.Mem, Range.len] at *
    omega
  refine ⟨?_, by omega, by omega, ?_, ?_, hplace.mappable, ?_, h.total⟩
  · unfold Range.len
    omega
  · intro p hp
    rw [h.view p hp]
    exact hres.mapped p (hsub p hp)
  · exact fun p hp => hplace.apart p (hsub p hp)
  · intro hexact p hp hp'
    exact h.free p (hplace.free hexact p hp hp')

/-- A region the search finds is a new place for a mapped range. -/
theorem newPlace_of_region (hmapped : ∀ p, oldRange.Mem p → (v.view p).isSome)
    (hregion : Region newSize v.defaultHighLimit ⟨newStart, newStart + newSize⟩)
    (hfree : v.mappings.Free ⟨newStart, newStart + newSize⟩) :
    NewPlace exact oldRange newStart newSize v := by
  have hlow := hregion.lowest_le
  have hstop := hregion.stop_le
  refine ⟨⟨hlow, ?_⟩, ?_, fun _ => hfree⟩
  · simp only [defaultHighLimit] at hstop
    omega
  · intro p hp hnew
    have hsome := hmapped p hp
    rw [view, hfree p hnew.1 hnew.2] at hsome
    cases hsome

theorem growOrMove_ensures (hv : Tracked exact v₀ v)
    (hres : Resizes exact before oldRange newSize v) (hgrow : oldRange.len < newSize) :
    (growOrMove before oldRange newSize).Ensures (· = v)
      (fun _ => Tracked exact v₀) (NoUnderflow exact) := by
  apply Ensures.bind (R := fun start s => start.elim (s = v) fun _ => Tracked exact v₀ s)
  · refine (growInPlace_ensures hv hres hgrow).imp ?_
    intro r s hs
    cases r with
    | error e => exact hs
    | ok start => cases start <;> exact hs
  intro start
  cases start with
  | some start => exact Ensures.pure (fun _ h => h)
  | none =>
    apply Ensures.get
    rintro s rfl
    apply Ensures.bind (R := fun newStart t => t = s ∧ NewPlace exact oldRange newStart newSize s)
    · refine (freeStart_ensures hv.1).imp ?_
      rintro r t ⟨rfl, hr⟩
      cases r with
      | error e => exact hv
      | ok newStart =>
        obtain ⟨hregion, hfree⟩ := hr newStart rfl
        exact ⟨rfl, newPlace_of_region hres.mapped hregion hfree⟩
    intro newStart
    refine moveMapping_ensures.weaken ?_ (fun _ _ h => h)
    rintro t ⟨rfl, hplace⟩
    refine ⟨hv, Shrunk.canMove ⟨fun _ _ => rfl, fun _ h => h, ?_⟩ hres hplace⟩
    intro hexact
    have hsame := hres.before_eq hexact
    omega

variable {newAddr : Option Nat} {flags : MremapFlags}

theorem remapRange_ensures (hv : Tracked exact v₀ v)
    (hres : Resizes exact v.totalVm oldRange newSize v)
    (hplace : ∀ a, newAddr = some a → NewPlace exact oldRange a newSize v) :
    (remapRange oldRange newSize newAddr).Ensures (· = v)
      (fun _ => Tracked exact v₀) (NoUnderflow exact) := by
  apply Ensures.get
  rintro s rfl
  apply Ensures.bind (R := fun _ u => Tracked exact v₀ u ∧
    Shrunk exact s.totalVm oldRange newSize s u ∧ (oldRange.len < newSize → u = s))
  · refine (shrinkTail_ensures hv hres).imp ?_
    rintro _ u ⟨rfl, hu⟩
    exact hu
  intro _
  apply Ensures.of_forall
  rintro u ⟨hu, hshrunk, hsame⟩
  cases newAddr with
  | some newStart =>
    refine moveMapping_ensures.weaken ?_ (fun _ _ h => h)
    rintro t rfl
    exact ⟨hu, hshrunk.canMove hres (hplace newStart rfl)⟩
  | none =>
    apply Ensures.ite
    · intro hle
      apply resizedTotal_ensures (hres.len_le hv.1)
      intro hbefore
      apply Ensures.get
      rintro t rfl
      apply Ensures.set_pure
      have htotal : exact → s.totalVm - oldRange.len + newSize = t.totalVm := by
        intro hexact
        have := hshrunk.total hexact
        omega
      refine ⟨⟨hu.1.partition, hu.1.resident, ?_⟩, hu.2.trans (Evolves.of_pages_eq rfl (fun _ _ => rfl))⟩
      intro hexact
      exact (htotal hexact).trans (hu.1.total hexact)
    · intro hgrow
      obtain rfl := hsame (not_le.mp hgrow)
      exact growOrMove_ensures hu hres (not_le.mp hgrow)

/-! ### Keeping the old place -/

theorem copyPt_get? {vmSpace : VmSpace} {old : Range} {p : Nat} {pte : Pte}
    (h : (copyPt vmSpace old newStart).get? p = some pte) : vmSpace.get? p = some pte ∨
      (⟨newStart, newStart + old.len⟩ : Range).Mem p := by
  have hfold : ∀ (l : List (Nat × Pte)) (s : VmSpace), (∀ e ∈ l, old.Mem e.1) →
      (l.foldl (fun s e => s.insert (newStart + (e.1 - old.start)) e.2) s).get? p = some pte →
      s.get? p = some pte ∨ (⟨newStart, newStart + old.len⟩ : Range).Mem p := by
    intro l
    induction l with
    | nil => exact fun s _ h => .inl h
    | cons e rest ih =>
      intro s hl hrun
      have he := hl e (by simp)
      rcases ih _ (fun x hx => hl x (by simp [hx])) hrun with hget | hmem
      · by_cases hp : p = newStart + (e.1 - old.start)
        · right
          simp only [Range.Mem, Range.len] at *
          omega
        · rw [SortedMap.get?_insert_of_ne _ _ hp] at hget
          exact .inl hget
      · exact .inr hmem
  exact hfold _ _ (fun e he => (mem_pagesIn.mp he).2) h

/-- Keeping the old place is right if the old range is all of its record. -/
theorem remapKeepOld_ensures (hv : v.Good exact)
    (hold : oldRange.start < oldRange.stop) (hle : oldRange.len ≤ newSize)
    (hsource : ∀ m, v.mappings.get oldRange.start = some m → m.len ≤ oldRange.len)
    (hnew : pageSize ∣ newSize)  (hfree : v.mappings.Free ⟨newStart, newStart + newSize⟩) :
    (remapKeepOld oldRange newStart newSize).Ensures (· = v)
      (fun _ => Good exact) (NoUnderflow exact) := by
  apply Ensures.get
  rintro s rfl
  cases hget : s.mappings.get oldRange.start with
  | none => exact Ensures.fail (fun _ h => h ▸ hv)
  | some source =>
    obtain ⟨hmem, hcov⟩ := hv.partition.get_eq_some.mp hget
    have hshort := hsource source hget
    apply Ensures.check (fun _ h => h ▸ hv)
    intro hend
    simp only [decide_eq_true_eq] at hend
    have hlen : source.len = oldRange.len := by
      have hstart := hcov.1
      unfold VmMapping.stop at hend
      unfold Range.len at *
      omega
    apply ensures_addUsize
    apply Ensures.check (fun _ h => h ▸ hv)
    intro hmappable
    simp only [isMappableRange, Bool.and_eq_true, decide_eq_true_eq] at hmappable
    apply ensures_addUsize
    apply Ensures.orFail (fun _ _ h => h ▸ hv)
    intro _ _
    apply Ensures.bind (R := fun _ u => u.Good exact ∧
      u.mappings.Free ⟨newStart, newStart + newSize⟩ ∧ (exact → u.totalVm = s.totalVm))
    · refine (unmapRange_ensures hv).imp ?_
      rintro _ u ⟨rfl, outcome, _, hin⟩
      refine ⟨hin.good pieceOp_drop hv, ?_, fun _ => hin.totalVm_of_free hv hfree⟩
      intro p hp hp'
      exact (hin.view p).trans (by rw [if_pos ⟨hp, hp'⟩, bind_fun_none])
    intro _
    apply Ensures.get
    rintro u ⟨hu, hufree, hutotal⟩
    apply ensures_kernel
    intro moved hmoved
    obtain ⟨halign, hmovedEq⟩ := relocate_eq_ok hmoved
    have hmovedStart : moved.start = newStart := by rw [hmovedEq]
    have hmovedLen : moved.len = source.len := by rw [hmovedEq]
    apply ensures_kernel
    intro m hm
    obtain ⟨_, _, hmEq⟩ := enlarge_eq_ok hm
    have hmstart : m.start = newStart := by
      rw [hmEq]
      exact hmovedStart
    have hmlen : m.len = newSize := by
      rw [hmEq]
      dsimp only
      omega
    apply ensures_kernel
    intro ms' hrun
    apply Ensures.set_pure
    have hmstop : m.stop = newStart + newSize := by
      unfold VmMapping.stop
      rw [hmstart, hmlen]
    have hfit : u.mappings.Fits m := by
      refine ⟨hu.partition, ⟨hmstart ▸ halign, hmlen ▸ hnew, hmstart ▸ hmappable.1,
        hmstop ▸ hmappable.2⟩, ?_⟩
      unfold VmMapping.range
      rwa [hmstart, hmstop]
    have htotal' : exact → s.totalVm + newSize = u.totalVm + m.len := by
      intro hexact
      rw [hutotal hexact, hmlen]
    have hgood := (hu.insert hfit hrun htotal').1
    obtain ⟨final, hfinal, _, hview⟩ := hfit.insert
    rw [hrun] at hfinal
    cases hfinal
    refine ⟨hgood.partition, ?_, hgood.total⟩
    intro p pte hp
    rcases copyPt_get? hp with hpte | hin
    · exact hgood.resident p pte hpte
    change (ms'.view p).isSome
    rw [hview, viewWith, if_pos]
    · rfl
    · unfold VmMapping.Covers
      simp only [Range.Mem] at hin
      omega

/-! ### The call -/

/-- A call that keeps the old place keeps a whole record. -/
def KeepsWhole (v : Vmar) (oldAddr oldSize : Nat) (flags : MremapFlags) : Prop :=
  flags.contains .DONTUNMAP = true → ∀ m, v.mappings.get oldAddr = some m →
    ∀ size, pageAlignedSize oldSize = .ok size → m.len ≤ size

/-- A call with a fixed new place moves to where nothing is mapped. -/
def MovesToFree (v : Vmar) (newSize : Nat) (flags : MremapFlags) (newAddr : Option Nat) : Prop :=
  flags.contains .FIXED = true → ∀ a, newAddr = some a →
    ∀ size, pageAlignedSize newSize = .ok size → v.mappings.countOverlap ⟨a, a + size⟩ = .ok 0

theorem checkMremap_eq_ok {oldAddr oldSize oldSize' newSize' : Nat}
    {newAddr newAddr' : Option Nat}
    (h : checkMremap oldAddr oldSize newSize flags newAddr = .ok (oldSize', newSize', newAddr')) :
    pageAlignedSize oldSize = .ok oldSize' ∧ pageAlignedSize newSize = .ok newSize' ∧
      (∀ a, newAddr' = some a → newAddr = some a ∧ flags.contains .FIXED = true) ∧
      (flags.contains .DONTUNMAP = true → newAddr' = none ∧ oldSize' ≤ newSize') := by
  obtain ⟨old, hold, h⟩ := ok_of_bind h
  obtain ⟨new, hnew, h⟩ := ok_of_bind h
  simp only [bind, Except.bind] at h
  split_ifs at h with haddr hnewAddr hfixed hboth hmay hshrink hf
  all_goals cases h
  · refine ⟨hold, hnew, fun a ha => ⟨ha, hf⟩, ?_⟩
    intro hkeep
    exact absurd ⟨hkeep, hf⟩ hboth
  · refine ⟨hold, hnew, (nofun), ?_⟩
    intro hkeep
    refine ⟨rfl, ?_⟩
    by_contra hlt
    exact hshrink ⟨hkeep, not_le.mp hlt⟩

theorem checkNewRange_ensures :
    (checkNewRange oldRange newSize newAddr).Ensures (· = v)
      (fun r s => s = v ∧ (r = .ok () → ∀ a, newAddr = some a →
        (vmarLowestAddr ≤ a ∧ a + newSize ≤ vmarCapAddr) ∧
          isIntersected oldRange ⟨a, a + newSize⟩ = false)) (NoUnderflow exact) := by
  cases newAddr with
  | none =>
    apply Ensures.pure
    rintro s rfl
    exact ⟨rfl, by simp⟩
  | some a =>
    apply ensures_addUsize
    apply Ensures.check
    · rintro s rfl
      exact ⟨rfl, by simp⟩
    intro hmappable
    simp only [isMappableRange, Bool.and_eq_true, decide_eq_true_eq] at hmappable
    cases hint : isIntersected oldRange ⟨a, a + newSize⟩ with
    | true =>
      rintro s rfl
      exact ⟨rfl, by simp⟩
    | false =>
      rintro s rfl
      refine ⟨rfl, ?_⟩
      rintro _ b hb
      cases hb
      exact ⟨hmappable, hint⟩

section Plans

variable {oldAddr oldSize : Nat} {plan : RemapPlan}

/-- What `mremap` has checked of its plan. -/
def Accepts (v : Vmar) (oldAddr oldSize newSize : Nat) (flags : MremapFlags)
    (newAddr : Option Nat) (plan : RemapPlan) : Prop :=
  ∃ old new addr, checkMremap oldAddr oldSize newSize flags newAddr = .ok (old, new, addr) ∧
    plan = ⟨⟨oldAddr, oldAddr + old⟩, new, addr, flags.contains .DONTUNMAP⟩ ∧
    v.mappings.isFullyMapped plan.oldRange = .ok true ∧
    ∀ a, addr = some a → (vmarLowestAddr ≤ a ∧ a + new ≤ vmarCapAddr) ∧
      isIntersected plan.oldRange ⟨a, a + new⟩ = false

theorem mremapCheck_ensures : (mremapCheck oldAddr oldSize newSize flags newAddr).Ensures (· = v)
    (fun r s => s = v ∧ ∀ plan, r = .ok plan →
      v.Accepts oldAddr oldSize newSize flags newAddr plan) (NoUnderflow exact) := by
  apply Ensures.orFail (fun _ _ h => ⟨h, nofun⟩)
  rintro ⟨old, new, addr⟩ hcheck
  apply ensures_addUsize
  apply Ensures.check (fun _ h => ⟨h, nofun⟩)
  intro _
  apply Ensures.get
  rintro s rfl
  apply ensures_kernel
  intro full hfull
  apply Ensures.check (fun _ h => ⟨h, nofun⟩)
  rintro rfl
  apply Ensures.bind (R := fun _ t => t = s ∧ ∀ a, addr = some a →
    (vmarLowestAddr ≤ a ∧ a + new ≤ vmarCapAddr) ∧
      isIntersected ⟨oldAddr, oldAddr + old⟩ ⟨a, a + new⟩ = false)
  · refine checkNewRange_ensures.imp ?_
    rintro r t ⟨rfl, hr⟩
    cases r with
    | error e => exact ⟨rfl, nofun⟩
    | ok _ => exact ⟨rfl, hr rfl⟩
  intro _
  apply Ensures.pure
  rintro t ⟨rfl, hplace⟩
  refine ⟨rfl, ?_⟩
  rintro _ ⟨⟩
  exact ⟨old, new, addr, hcheck, rfl, hfull, hplace⟩

theorem mremapCheck_run {u : Vmar} {r : Except Errno RemapPlan}
    (h : mremapCheck oldAddr oldSize newSize flags newAddr v = .ok (r, u)) : u = v ∧
      ∀ plan, r = .ok plan → v.Accepts oldAddr oldSize newSize flags newAddr plan :=
  (mremapCheck_ensures : Ensures _ _ _ (NoUnderflow True)).holds rfl h

section

variable (h : v.Accepts oldAddr oldSize newSize flags newAddr plan)

include h

/-- A range that `mremap` has accepted has a page. -/
theorem Accepts.nonempty : plan.oldRange.start < plan.oldRange.stop := by
  obtain ⟨old, new, addr, hcheck, rfl, -⟩ := h
  obtain ⟨hold, _⟩ := checkMremap_eq_ok hcheck
  exact Nat.lt_add_of_pos_right (pageAlignedSize_eq_ok hold).2.2

theorem Accepts.mapped (hv : v.mappings.Partition) :
    ∀ p, plan.oldRange.Mem p → (v.view p).isSome := by
  have hle := h.nonempty.le
  obtain ⟨_, _, _, _, _, hfull, _⟩ := h
  rw [hv.isFullyMapped hle] at hfull
  apply overlap_eq_len.mp
  simpa using Except.ok.inj hfull

end

theorem mremap_good (hv : v.Good exact) (hkeep : KeepsWhole v oldAddr oldSize flags)
    (hfree : exact → MovesToFree v newSize flags newAddr) :
    (mremap oldAddr oldSize newSize flags newAddr).Ensures (· = v)
      (fun _ s => s.Good exact ∧ (flags.contains .DONTUNMAP = false → v.Evolves s))
      (NoUnderflow exact) := by
  have hsame : ∀ s, s = v → s.Good exact ∧ (flags.contains .DONTUNMAP = false → v.Evolves s) := by
    rintro s rfl
    exact ⟨hv, fun _ => Evolves.refl s⟩
  apply Ensures.bind (R := fun plan t => t = v ∧
    v.Accepts oldAddr oldSize newSize flags newAddr plan)
  · refine mremapCheck_ensures.imp ?_
    rintro r t ⟨rfl, hr⟩
    cases r with
    | error e => exact hsame t rfl
    | ok plan => exact ⟨rfl, hr plan rfl⟩
  intro plan
  apply Ensures.of_forall
  rintro t ⟨rfl, haccepts⟩
  have hlt := haccepts.nonempty
  have hmapped := haccepts.mapped hv.partition
  obtain ⟨old, new, newAddr', hcheck, rfl, -, hplace⟩ := haccepts
  obtain ⟨hold, hnew, haddr, hkeepOld⟩ := checkMremap_eq_ok hcheck
  obtain ⟨hnewDvd, _, hnewPos⟩ := pageAlignedSize_eq_ok hnew
  have holdLen := Range.len_add oldAddr old
  apply Ensures.ite
  · intro hflag
    obtain ⟨rfl, hle⟩ := hkeepOld hflag
    apply Ensures.get
    rintro u rfl
    apply Ensures.bind (R := fun newStart s => s = u ∧ u.mappings.Free ⟨newStart, newStart + new⟩)
    · refine (freeStart_ensures hv).imp ?_
      rintro r s ⟨rfl, hr⟩
      cases r with
      | error e => exact hsame s rfl
      | ok newStart => exact ⟨rfl, (hr newStart rfl).2⟩
    intro newStart
    apply Ensures.of_forall
    rintro s ⟨rfl, hregion⟩
    refine (remapKeepOld_ensures hv hlt (holdLen.symm ▸ hle) ?_ hnewDvd hregion).imp ?_
    · intro m hm
      rw [holdLen]
      exact hkeep hflag m hm old hold
    · intro r w hw
      exact ⟨hw, fun hnot => nomatch hflag.symm.trans hnot⟩
  · intro hflag
    refine (remapRange_ensures hv.tracked ?_ ?_).imp ?_
    · exact ⟨hlt, hmapped, hnewPos, fun _ => rfl⟩
    · rintro a rfl
      obtain ⟨hmappable, hint⟩ := hplace a rfl
      obtain ⟨rfl, hfixed⟩ := haddr a rfl
      refine ⟨hmappable, ?_, ?_⟩
      · intro p hp hp'
        simp only [isIntersected, decide_eq_false_iff_not] at hint
        simp only [Range.Mem] at hp hp'
        omega
      · intro hexact
        have hzero := hfree hexact hfixed a rfl new hnew
        rw [hv.partition.countOverlap (Nat.le_add_right _ _)] at hzero
        exact overlap_eq_zero.mp (Except.ok.inj hzero)
    · intro r w hw
      exact ⟨hw.1, fun _ => hw.2⟩

end Plans

end Vmar

end Petra.Vm
