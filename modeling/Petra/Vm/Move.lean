import Petra.Vm.Operations

/-! # Moving a mapped range

A move shifts the page table entries and the records of a range to a free one and lets
the last record grow there.
-/

namespace Petra.Vm

open Base List SortedMap Option VmMapping Mappings

/-- Where an address of the new range comes from: the same offset in the old range, or the
old range's last address for the part that is new. -/
def moveOrigin (moved : Range) (newStart p : Nat) : Nat :=
  if p < newStart + moved.len then moved.start + (p - newStart) else moved.stop - 1

/-! ### Page table entries -/

section Pages

variable {old new : Range} {vmSpace : VmSpace}

/-- One entry after another, taken out of the old range and entered in the new one. -/
def moveEntries (old new : Range) (l : List (Nat × Pte)) (vmSpace : VmSpace) : VmSpace :=
  l.foldl (fun s e => (s.erase e.1).insert (new.start + (e.1 - old.start)) e.2) vmSpace

theorem moveEntries_get? (hlen : old.len = new.len) (hdisj : isIntersected old new = false)
    {l : List (Nat × Pte)} (hl : ∀ e ∈ l, old.Mem e.1) (hnodup : (l.map Prod.fst).Nodup) (q : Nat) :
    (∀ e ∈ l, q = new.start + (e.1 - old.start) →
      (moveEntries old new l vmSpace).get? q = some e.2) ∧
    ((∀ e ∈ l, q ≠ new.start + (e.1 - old.start)) → (moveEntries old new l vmSpace).get? q =
      if q ∈ l.map Prod.fst then none else vmSpace.get? q) := by
  induction l generalizing vmSpace with
  | nil => simp [moveEntries]
  | cons e rest ih =>
    obtain ⟨hhead, hrest⟩ := nodup_cons.mp hnodup
    have he := hl e (by simp)
    -- an address of the new range is not one of the old range
    have hout : ∀ x, old.Mem x → ∀ e' ∈ e :: rest, x ≠ new.start + (e'.1 - old.start) := by
      intro x hx e' he' heq
      have hmem := hl e' he'
      simp only [isIntersected, decide_eq_false_iff_not] at hdisj
      unfold Range.len at hlen
      unfold Range.Mem at hx hmem
      omega
    have hstep := @ih ((vmSpace.erase e.1).insert (new.start + (e.1 - old.start)) e.2)
      (fun e' he' => hl e' (by simp [he'])) hrest
    change (∀ e' ∈ e :: rest, _ → (moveEntries old new rest _).get? q = _) ∧
      (_ → (moveEntries old new rest _).get? q = _)
    refine ⟨?_, ?_⟩
    · intro e' he' hq
      rcases mem_cons.mp he' with rfl | hmem
      · have hothers : ∀ x ∈ rest, q ≠ new.start + (x.1 - old.start) := by
          intro x hx heq
          have hxmem := hl x (by simp [hx])
          have hsame : x.1 = e'.1 := by
            unfold Range.Mem at he hxmem
            omega
          exact hhead (hsame ▸ mem_map_of_mem hx)
        have hnot : q ∉ rest.map Prod.fst := by
          intro hmem
          obtain ⟨x, hx, hxq⟩ := mem_map.mp hmem
          exact hout x.1 (hl x (by simp [hx])) e' (by simp) (hxq.trans hq)
        rw [hstep.2 hothers, if_neg hnot, hq, get?_insert_self]
      · exact hstep.1 e' hmem hq
    · intro hnone
      rw [hstep.2 (fun x hx => hnone x (by simp [hx])),
        get?_insert_of_ne _ _ (hnone e (by simp)), get?_erase]
      by_cases hqe : q = e.1
      · simp [hqe]
      · simp only [map_cons, mem_cons, hqe, false_or, if_false]

theorem mem_pagesIn {range : Range} {e : Nat × Pte} :
    e ∈ vmSpace.pagesIn range ↔ vmSpace.get? e.1 = some e.2 ∧ range.Mem e.1 := by
  unfold VmSpace.pagesIn
  rw [get?_eq_some]
  simp

theorem pagesIn_nodup (range : Range) : ((vmSpace.pagesIn range).map Prod.fst).Nodup := by
  rw [nodup_iff_pairwise_ne, pairwise_map]
  refine (vmSpace.sorted.filter _).imp ?_
  intro a b hlt heq
  exact absurd heq hlt.ne

/-- The page table after a move to a range without entries. -/
theorem movePt_eq_ok {vmSpace' : VmSpace} (hfree : ∀ q, new.Mem q → vmSpace.get? q = none)
    (h : Vmar.movePt vmSpace old new = .ok vmSpace') (q : Nat) :
    vmSpace'.get? q = if new.Mem q then vmSpace.get? (old.start + (q - new.start))
      else if old.Mem q then none else vmSpace.get? q := by
  unfold Vmar.movePt at h
  split_ifs at h with hok
  obtain ⟨hlen, hdisj⟩ := hok
  cases h
  have hmem : ∀ e ∈ vmSpace.pagesIn old, old.Mem e.1 := fun e he => (mem_pagesIn.mp he).2
  obtain ⟨hin, hout⟩ := @moveEntries_get? old new vmSpace hlen hdisj _ hmem (pagesIn_nodup old) q
  change (moveEntries old new (vmSpace.pagesIn old) vmSpace).get? q = _
  unfold Range.len at hlen
  by_cases hnew : new.Mem q
  · rw [if_pos hnew]
    have hback : q = new.start + ((old.start + (q - new.start)) - old.start) := by
      have := hnew.1
      omega
    cases hpte : vmSpace.get? (old.start + (q - new.start)) with
    | some pte =>
      have hold : old.Mem (old.start + (q - new.start)) := by
        unfold Range.Mem at hnew ⊢
        omega
      exact hin (_, pte) (mem_pagesIn.mpr ⟨hpte, hold⟩) hback
    | none =>
      rw [hout]
      · rw [hfree q hnew, ite_self]
      intro e he heq
      obtain ⟨hget, hemem⟩ := mem_pagesIn.mp he
      have hsame : e.1 = old.start + (q - new.start) := by
        unfold Range.Mem at hemem
        omega
      rw [hsame, hpte] at hget
      cases hget
  · rw [if_neg hnew, hout]
    · by_cases hold : old.Mem q
      · split_ifs with hq
        · rfl
        · cases hpte : vmSpace.get? q with
          | none => rfl
          | some pte =>
            have hpage : (q, pte) ∈ vmSpace.pagesIn old := mem_pagesIn.mpr ⟨hpte, hold⟩
            exact absurd (mem_map.mpr ⟨_, hpage, rfl⟩) hq
      · rw [if_neg hold, if_neg]
        intro hq
        obtain ⟨e, he, rfl⟩ := mem_map.mp hq
        exact hold (hmem e he)
    · intro e he heq
      have hemem := hmem e he
      apply hnew
      unfold Range.Mem at hemem ⊢
      omega

end Pages

/-! ### Records -/

section Records

variable {ms : Mappings} {moved : Range} {newStart growBy : Nat} {env env' : VmSpace}
  {m : VmMapping}
  {q : Nat}

/-- The properties of an address with its backing offset shifted. -/
def Attr.shift (a : Attr) (delta : Nat) : Attr :=
  { a with backing := a.backing.map (fun b => (b.1, b.2 + delta)) }

/-- The record a move makes of a piece. -/
structure MovedPiece (moved : Range) (newStart growBy : Nat) (sub : Range) (m k : VmMapping) :
    Prop where
  start_eq : k.start = newStart + (sub.start - moved.start)
  stop_eq : k.stop = newStart + (sub.start - moved.start) + m.len +
    if newStart + (sub.start - moved.start) + m.len = newStart + moved.len then growBy else 0
  aligned : pageSize ∣ k.start
  len_aligned : pageSize ∣ m.len → pageSize ∣ k.len
  shared : k.shared = m.shared
  attr : ∀ q, k.attrAt (k.start + q) = (m.attrAt (m.start + q)).shift (sub.start - moved.start)

theorem attrAt_rebased (m : VmMapping) (start len delta q : Nat) (hpos : 0 < len) :
    attrAt { m with
      start := start
      len := len
      len_pos := hpos
      backingOffset := m.backingOffset + delta } (start + q) =
    (m.attrAt (m.start + q)).shift delta := by
  simp only [attrAt, Attr.shift, Nat.add_sub_cancel_left, Option.map_map, Attr.mk.injEq,
    true_and]
  congr 1
  funext b
  simp only [Function.comp, Nat.add_right_comm]

theorem movePiece_eq_ok {sub : Range} {kept : Option VmMapping}
    (h : Vmar.movePiece moved newStart growBy env m sub = .ok (kept, env')) :
    env' = env ∧ ∃ k, kept = some k ∧ MovedPiece moved newStart growBy sub m k := by
  obtain ⟨start, hadd, h⟩ := ok_of_bind h
  obtain ⟨rfl, _⟩ := addUsize_eq_ok hadd
  obtain ⟨placed, hplaced, h⟩ := ok_of_bind h
  obtain ⟨hstart, rfl⟩ := relocate_eq_ok hplaced
  obtain ⟨based, hbased, h⟩ := ok_of_bind h
  obtain rfl := rebase_eq_ok hbased
  unfold stop at h
  split_ifs at h with hend
  · obtain ⟨k, hk, h⟩ := ok_of_bind h
    obtain ⟨hgrow, hpos, rfl⟩ := enlarge_eq_ok hk
    cases h
    refine ⟨rfl, _, rfl, rfl, ?_, hstart, fun hlen => Nat.dvd_add hlen hgrow, rfl,
      fun q => attrAt_rebased m _ _ _ q hpos⟩
    rw [if_pos hend]
    unfold stop
    dsimp only
    omega
  · cases h
    refine ⟨rfl, _, rfl, rfl, ?_, hstart, fun hlen => hlen, rfl,
      fun q => attrAt_rebased m _ _ _ q m.len_pos⟩
    rw [if_neg hend]
    rfl

/-- The place a move goes to. -/
def target (moved : Range) (newStart growBy : Nat) : Range :=
  ⟨newStart, newStart + moved.len + growBy⟩

theorem moveOrigin_mem (hmoved : moved.start < moved.stop) (newStart q : Nat) :
    moved.Mem (moveOrigin moved newStart q) := by
  unfold Range.Mem moveOrigin Range.len
  split_ifs <;> omega

variable {m middle k : VmMapping} {outer : List VmMapping} {r : List VmMapping × Option VmMapping}

theorem intersect_start : (intersect moved m.range).start = max moved.start m.start := rfl

theorem intersect_stop : (intersect moved m.range).stop = min moved.stop m.stop := rfl

theorem movedPiece_covers (hmoved : moved.start < moved.stop)
    (hdiv : Mappings.Divided moved m middle outer)
    (hk : MovedPiece moved newStart growBy (intersect moved m.range) middle k) : k.Covers q ↔
      (target moved newStart growBy).Mem q ∧ m.Covers (moveOrigin moved newStart q) := by
  have hstart := hk.start_eq
  have hstop := hk.stop_eq
  have hmid := hdiv.inner.start_eq
  have hmid' := hdiv.inner.stop_eq
  have hlt := middle.start_lt_stop
  rw [intersect_start] at hmid hstart hstop
  rw [intersect_stop] at hmid'
  unfold VmMapping.Covers target Range.Mem moveOrigin
  rw [hstop]
  unfold stop Range.len at *
  dsimp only
  split_ifs <;> omega

theorem carved_move (h : Mappings.Carved moved (Vmar.movePiece moved newStart growBy) m r) :
    ∃ middle k, r.2 = some k ∧ Mappings.Divided moved m middle r.1 ∧
      MovedPiece moved newStart growBy (intersect moved m.range) middle k := by
  obtain ⟨middle, env, env', hdiv, hrun⟩ := h.done
  obtain ⟨_, k, hk, hpiece⟩ := movePiece_eq_ok hrun
  exact ⟨middle, k, hk, hdiv, hpiece⟩

/-- A range that may be moved, and the free place it goes to. -/
structure Movable (ms : Mappings) (moved : Range) (newStart growBy : Nat) : Prop where
  partition : ms.Partition
  mapped : ∀ p, moved.Mem p → (ms.view p).isSome
  free : ms.Free (target moved newStart growBy)
  lowest_le : vmarLowestAddr ≤ newStart
  stop_le : (target moved newStart growBy).stop ≤ vmarCapAddr

variable {p : Nat}

variable (h : Movable ms moved newStart growBy) {results : List (List VmMapping × Option VmMapping)}

include h

theorem Movable.not_mem_target (hm : m ∈ ms.inside moved) (hp : m.Covers p) :
    ¬ (target moved newStart growBy).Mem p := by
  intro hmem
  have hnone := h.free p hmem.1 hmem.2
  rw [h.partition.view_eq_none] at hnone
  exact hnone _ (h.partition.mem_inside.mp hm).1 hp

theorem Movable.placed_of_piece (hmoved : moved.start < moved.stop)
    (hdiv : Mappings.Divided moved m middle outer)
    (hk : MovedPiece moved newStart growBy (intersect moved m.range) middle k) : k.Placed := by
  have hlt := k.start_lt_stop
  have hend : k.Covers (k.stop - 1) := ⟨by omega, by omega⟩
  have hlast := (movedPiece_covers hmoved hdiv hk).mp hend
  have hbound := hlast.1.2
  have hcap := h.stop_le
  have hlow := h.lowest_le
  refine ⟨hk.aligned, hk.len_aligned hdiv.inner.placed.len_aligned, ?_, by omega⟩
  rw [hk.start_eq]
  omega

/-- A survivor of a move is an old part outside the moved range or a piece at its new place. -/
theorem Movable.covers_cases (hmoved : moved.start < moved.stop) (hm : m ∈ ms.inside moved)
    (hcarved : Mappings.Carved moved (Vmar.movePiece moved newStart growBy) m r) {k : VmMapping}
    (hk : k ∈ r.1 ++ r.2.toList) (hp : k.Covers p) :
    (k ∈ r.1 ∧ m.Covers p ∧ ¬ moved.Mem p ∧ ¬ (target moved newStart growBy).Mem p ∧
      k.attrAt p = m.attrAt p) ∨
    ((target moved newStart growBy).Mem p ∧ m.Covers (moveOrigin moved newStart p) ∧
      k.shared = m.shared) := by
  obtain ⟨middle, kept, hkept, hdiv, hpiece⟩ := carved_move hcarved
  rcases mem_append.mp hk with hk | hk
  · obtain ⟨hmp, hnot, hattr⟩ := (hdiv.parts k hk).2 p hp
    exact .inl ⟨hk, hmp, hnot, h.not_mem_target hm hmp, hattr⟩
  have hmem := mem_toList.mp hk
  rw [hkept] at hmem
  cases hmem
  obtain ⟨htarget, horigin⟩ := (movedPiece_covers hmoved hdiv hpiece).mp hp
  have hattr := congrArg Attr.shared (hdiv.inner.attr _ middle.covers_start)
  exact .inr ⟨htarget, horigin, hpiece.shared.trans hattr⟩

theorem Movable.fitAll (hmoved : moved.start < moved.stop)
   
    (hall : List.Forall₂ (Mappings.Carved moved (Vmar.movePiece moved newStart growBy))
      (ms.inside moved) results) :
    (ms.outside moved).FitAll (results.flatMap (fun r => r.1 ++ r.2.toList)) := by
  have hms := h.partition
  have hpiece : ∀ k ∈ results.flatMap (fun r => r.1 ++ r.2.toList), ∃ m ∈ ms.inside moved, ∃ r,
      Mappings.Carved moved (Vmar.movePiece moved newStart growBy) m r ∧ k ∈ r.1 ++ r.2.toList := by
    intro k hk
    obtain ⟨r, hr, hk⟩ := mem_flatMap.mp hk
    obtain ⟨m, hm, hcarved⟩ := (exists_of_mem_forall₂ hall).2 r hr
    exact ⟨m, hm, r, hcarved, hk⟩
  refine ⟨hms.outside moved, ?_, ?_, ?_⟩
  · intro k hk
    obtain ⟨m, _, r, hcarved, hk⟩ := hpiece k hk
    obtain ⟨middle, kept, hkept, hdiv, hmove⟩ := carved_move hcarved
    rcases mem_append.mp hk with hk | hk
    · exact (hdiv.parts k hk).1
    · have hmem := mem_toList.mp hk
      rw [hkept] at hmem
      cases hmem
      exact h.placed_of_piece hmoved hdiv hmove
  · intro k hk p hstart hstop
    obtain ⟨m, hm, r, hcarved, hk⟩ := hpiece k hk
    rcases h.covers_cases hmoved hm hcarved hk ⟨hstart, hstop⟩ with hold | hnew
    · exact hms.outside_free hm hold.2.1
    · rw [(hms.outside moved).view_eq_none]
      intro e he
      have hnone := h.free p hnew.1.1 hnew.1.2
      rw [hms.view_eq_none] at hnone
      exact hnone e (SortedMap.mem_filter.mp he).1
  · -- a piece keeps to its own addresses and to those of the target that come from it
    apply survivors_apart (fun m p =>
      m.Covers p ∧ ¬ (target moved newStart growBy).Mem p ∨
        (target moved newStart growBy).Mem p ∧ m.Covers (moveOrigin moved newStart p)) hall
    · refine (hms.inside_apart moved).imp ?_
      intro a b hab p ha hb
      rcases ha with ⟨ha, hnot⟩ | ⟨hin, ha⟩ <;> rcases hb with ⟨hb, hnot'⟩ | ⟨hin', hb⟩
      · exact hab.not_covers ha hb
      · exact hnot hin'
      · exact hnot' hin
      · exact hab.not_covers ha hb
    · intro m hm r hcarved k hk p hp
      rcases h.covers_cases hmoved hm hcarved hk hp with hold | hnew
      · exact .inl ⟨hold.2.1, hold.2.2.2.1⟩
      · exact .inr ⟨hnew.1, hnew.2.1⟩
    intro m hm r hcarved
    obtain ⟨middle, kept, hkept, hdiv, hmove⟩ := carved_move hcarved
    rw [pairwise_append, hkept]
    refine ⟨hdiv.apart, by simp, ?_⟩
    intro k hk k' hk'
    simp only [toList_some, mem_singleton] at hk'
    subst hk'
    apply apart_of_not_covers
    intro p hp hp'
    have hmp := ((hdiv.parts k hk).2 p hp).1
    exact h.not_mem_target hm hmp ((movedPiece_covers hmoved hdiv hmove).mp hp').1

omit h in
/-- A move drops nothing. -/
theorem sum_dropped_move {l : List VmMapping}
    (hall : List.Forall₂ (Mappings.Carved moved (Vmar.movePiece moved newStart growBy)) l results) :
    Mappings.droppedLen moved l results = 0 := by
  induction hall with
  | nil => rfl
  | cons hcarved _ ih =>
    obtain ⟨_, k, hk, _⟩ := carved_move hcarved
    unfold Mappings.droppedLen at ih ⊢
    simp [hk, ih]

omit h in
/-- A moved address has its properties, with the backing offset shifted by how far into the
moved range its record starts. -/
theorem movedPiece_attrAt (hdiv : Mappings.Divided moved m middle outer)
    (hk : MovedPiece moved newStart growBy (intersect moved m.range) middle k)
    (hp : k.Covers p) (hkept : p < newStart + moved.len) : k.attrAt p =
      (m.attrAt (moved.start + (p - newStart))).shift (max moved.start m.start - moved.start) := by
  have hstart := hk.start_eq
  have hmid := hdiv.inner.start_eq
  have hmid' := hdiv.inner.stop_eq
  have hstop := hk.stop_eq
  rw [intersect_start] at hstart hmid hstop
  rw [intersect_stop] at hmid'
  have hcov : middle.Covers (moved.start + (p - newStart)) := by
    unfold VmMapping.Covers at hp ⊢
    unfold stop Range.len at *
    split_ifs at hstop <;> omega
  have hfrom : k.start + (p - k.start) = p := Nat.add_sub_cancel' hp.1
  have hto : middle.start + (p - k.start) = moved.start + (p - newStart) := by
    omega
  have hattr := hk.attr (p - k.start)
  rwa [hfrom, hto, hdiv.inner.attr _ hcov, intersect_start] at hattr

/-- The records after a move. -/
theorem Movable.carve {ms' : Mappings} {outcome : CarveOutcome}
    (hrun : ms.carve moved (Vmar.movePiece moved newStart growBy) env = .ok (ms', outcome, env')) :
    ms'.Partition ∧ env' = env ∧ outcome.dropped = 0 ∧
    (∀ p, (target moved newStart growBy).Mem p → ∃ m b,
      ms.get (moveOrigin moved newStart p) = some m ∧ ms'.view p = some b ∧ b.shared = m.shared ∧
      (p < newStart + moved.len → b = (m.attrAt (moved.start + (p - newStart))).shift
        (max moved.start m.start - moved.start))) ∧ (∀ p, moved.Mem p → ms'.view p = none) ∧
    ∀ p, ¬ (target moved newStart growBy).Mem p → ¬ moved.Mem p → ms'.view p = ms.view p := by
  have hms := h.partition
  obtain ⟨_, _, hmoved, survivors, hpieces, hput⟩ := carve_eq_ok hms hrun
  obtain ⟨results, hall, rfl, _, hdropped⟩ := carvePieces_eq_ok (hms.pieces hmoved) hpieces
  have henv : env' = env :=
    carvePieces_env (fun _ _ _ _ _ hop => (movePiece_eq_ok hop).1) hpieces
  obtain ⟨final, hfinal, hpart, hview⟩ := (h.fitAll hmoved hall).insertAll
  rw [hput] at hfinal
  cases hfinal
  have hinside : ∀ p, moved.Mem p → (ms.outside moved).view p = none := by
    intro p hp
    obtain ⟨m, hm, hcov⟩ := (hms.isSome_view_inside hp).mp (h.mapped p hp)
    exact hms.outside_free hm hcov
  have hsurvivor : ∀ k ∈ results.flatMap (fun r => r.1 ++ r.2.toList), ∀ p, k.Covers p →
      ∃ m ∈ ms.inside moved, (m.Covers p ∧ ¬ moved.Mem p ∧ ¬ (target moved newStart growBy).Mem p ∧
          k.attrAt p = m.attrAt p) ∨
        ((target moved newStart growBy).Mem p ∧ m.Covers (moveOrigin moved newStart p) ∧
          k.shared = m.shared) := by
    intro k hk p hp
    obtain ⟨r, hr, hk⟩ := mem_flatMap.mp hk
    obtain ⟨m, hm, hcarved⟩ := (exists_of_mem_forall₂ hall).2 r hr
    exact ⟨m, hm, (h.covers_cases hmoved hm hcarved hk hp).imp_left And.right⟩
  refine ⟨hpart, henv, hdropped.trans (sum_dropped_move hall), ?_, ?_, ?_⟩
  · intro p hp
    have horigin := moveOrigin_mem hmoved newStart p
    obtain ⟨m, hm, hcov⟩ := (hms.isSome_view_inside horigin).mp (h.mapped _ horigin)
    obtain ⟨r, hr, hcarved⟩ := (exists_of_mem_forall₂ hall).1 m hm
    obtain ⟨middle, kept, hkept, hdiv, hmove⟩ := carved_move hcarved
    have hattr := congrArg Attr.shared (hdiv.inner.attr _ middle.covers_start)
    have hmem : kept ∈ results.flatMap (fun r => r.1 ++ r.2.toList) :=
      mem_flatMap.mpr ⟨r, hr, by simp [hkept]⟩
    have hkept' := (movedPiece_covers hmoved hdiv hmove).mpr ⟨hp, hcov⟩
    exact ⟨m, kept.attrAt p, hms.get_eq_some.mpr ⟨(hms.mem_inside.mp hm).1, hcov⟩,
      (hview p _).mpr (.inl ⟨kept, hmem, hkept', rfl⟩), hmove.shared.trans hattr,
      movedPiece_attrAt hdiv hmove hkept'⟩
  · intro p hp
    rw [eq_none_iff_forall_ne_some]
    intro a ha
    rcases (hview p a).mp ha with ⟨k, hk, hcov, _⟩ | hout
    · obtain ⟨m, hm, hold | hnew⟩ := hsurvivor k hk p hcov
      · exact hold.2.1 hp
      · have hsome := h.mapped p hp
        rw [h.free p hnew.1.1 hnew.1.2] at hsome
        cases hsome
    · rw [hinside p hp] at hout
      cases hout
  · intro p hnot hnot'
    ext a
    rw [hview, hms.view_outside moved]
    apply or_congr_left
    constructor
    · rintro ⟨k, hk, hcov, rfl⟩
      obtain ⟨m, hm, hold | hnew⟩ := hsurvivor k hk p hcov
      · exact ⟨m, hm, hold.1, hold.2.2.2.symm⟩
      · exact absurd hnew.1 hnot
    rintro ⟨m, hm, hcov, rfl⟩
    obtain ⟨r, hr, hcarved⟩ := (exists_of_mem_forall₂ hall).1 m hm
    obtain ⟨middle, kept, hkept, hdiv, hmove⟩ := carved_move hcarved
    obtain ⟨k, hk, hkcov⟩ := hdiv.exists_covers hcov hnot'
    exact ⟨k, mem_flatMap.mpr ⟨r, hr, by simp [hk]⟩, hkcov, ((hdiv.parts k hk).2 p hkcov).2.2⟩

end Records

end Petra.Vm
