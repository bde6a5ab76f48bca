import Petra.Ext4.BlockLayer

/-! # Coherence of the block layer

A block reads as the contents last stored for it. The operations keep this, as long as a
batched flush finds no stale copy in the cache and computes the right device address.
-/

namespace Petra.Ext4

open Base Function List SortedMap Nat Storage Prod

namespace BlockLayer

variable {g : Geometry} {l l' : BlockLayer} {b blk : Nat} {d buf : Bytes}

/-- Wherever a read would find the block, it finds `d`. -/
structure HoldsAt (g : Geometry) (l : BlockLayer) (b : Nat) (d : Bytes) : Prop where
  dirty : ∀ buf, l.dirtyBlocks.get? b = some buf → buf = d
  cached : l.dirtyBlocks.get? b = none → ∀ buf, l.metaCache.get? b = some buf → buf = d
  disk : l.dirtyBlocks.get? b = none → g.blockAt l.disk b = d

/-- Every dirty and every cached block has the size of a block. -/
structure WellSized (g : Geometry) (l : BlockLayer) : Prop where
  dirty : ∀ b buf, l.dirtyBlocks.get? b = some buf → buf.length = g.blockSize
  cached : ∀ b buf, l.metaCache.get? b = some buf → buf.length = g.blockSize

/-! ### The cache and the device -/

theorem cachePut_self (cache : SortedMap Nat Bytes) (blk : Nat) (buf : Bytes) :
    (cachePut cache blk buf).get? blk = some buf := by
  unfold cachePut
  split_ifs
  · cases cache.first? <;> simp
  · simp

/-- Putting a block into the cache may evict another one. -/
theorem cachePut_other (cache : SortedMap Nat Bytes) {blk b : Nat} (buf : Bytes) (h : b ≠ blk) :
    (cachePut cache blk buf).get? b = cache.get? b ∨ (cachePut cache blk buf).get? b = none := by
  unfold cachePut
  split_ifs
  · cases cache.first? with
    | none => exact .inl (get?_insert_of_ne _ _ h)
    | some e =>
      rw [get?_insert_of_ne _ _ h, get?_erase]
      by_cases hb : b = e.1
      · exact .inr (if_pos hb)
      · exact .inl (if_neg hb)
  · exact .inl (get?_insert_of_ne _ _ h)

theorem cachePut_eq_some {cache : SortedMap Nat Bytes} {found : Bytes}
    (h : (cachePut cache blk buf).get? b = some found) :
    b = blk ∧ found = buf ∨ b ≠ blk ∧ cache.get? b = some found := by
  by_cases hb : b = blk
  · subst hb
    rw [cachePut_self] at h
    exact .inl ⟨rfl, (Option.some.inj h).symm⟩
  · rcases cachePut_other cache buf hb with hsame | hnone
    · exact .inr ⟨hb, hsame ▸ h⟩
    · rw [hnone] at h
      cases h

theorem blockAt_write_self (disk : Storage) (blk : Nat) (h : buf.length = g.blockSize) :
    g.blockAt (disk.write (blk * g.blockSize) buf) blk = buf := by
  unfold Geometry.blockAt
  rw [← h, read_write_self]

theorem blockAt_write_other (disk : Storage) (h : buf.length = g.blockSize) (hne : b ≠ blk) :
    g.blockAt (disk.write (blk * g.blockSize) buf) b = g.blockAt disk b := by
  apply read_write_of_disjoint
  rw [h]
  rcases lt_or_gt_of_ne hne with hlt | hgt
  · left
    have hmul := mul_le_mul_right g.blockSize hlt
    rwa [succ_mul] at hmul
  · right
    have hmul := mul_le_mul_right g.blockSize hgt
    rwa [succ_mul] at hmul

/-! ### Reading and writing one block -/

theorem readFsBlock_eq_ok {out : Bytes} (h : l.readFsBlock g blk = .ok (out, l'))
    (hl : l.WellSized g) (hd : l.HoldsAt g blk d) :
    out = d ∧ l'.WellSized g ∧ ∀ b d, l.HoldsAt g b d → l'.HoldsAt g b d := by
  unfold readFsBlock at h
  split at h
  next buf hdirty =>
    simp only [copyOut, hl.dirty blk buf hdirty] at h
    cases h
    exact ⟨hd.dirty _ hdirty, hl, fun _ _ hb => hb⟩
  next hdirty =>
    cases hcached : l.metaCache.get? blk with
    | some buf =>
      rw [hcached] at h
      simp only [copyOut, hl.cached blk buf hcached] at h
      cases h
      exact ⟨hd.cached hdirty _ hcached, hl, fun _ _ hb => hb⟩
    | none =>
      rw [hcached] at h
      obtain ⟨buf, hread, h⟩ := ok_of_bind h
      cases h
      have hbuf := Geometry.readFsBlocks_eq_ok hread
      refine ⟨hbuf.trans (hd.disk hdirty), ⟨hl.dirty, ?_⟩, ?_⟩
      · intro b found hfound
        rcases cachePut_eq_some hfound with ⟨_, rfl⟩ | ⟨_, hold⟩
        · rw [hbuf]
          exact length_read
        · exact hl.cached b found hold
      · intro b d hb
        refine ⟨hb.dirty, ?_, hb.disk⟩
        intro hnone found hfound
        rcases cachePut_eq_some hfound with ⟨rfl, rfl⟩ | ⟨_, hold⟩
        · rw [hbuf, hb.disk hnone]
        · exact hb.cached hnone found hold

theorem writeFsBlock_eq_ok (h : l.writeFsBlock g blk buf = .ok l') (hl : l.WellSized g)
    (hlen : buf.length = g.blockSize) :
    l'.WellSized g ∧ l'.HoldsAt g blk buf ∧ ∀ b d, b ≠ blk → l.HoldsAt g b d → l'.HoldsAt g b d := by
  obtain ⟨disk, hwrite, h⟩ := ok_of_bind h
  cases h
  rw [Geometry.writeFsBlocks_eq_ok hlen hwrite]
  refine ⟨⟨?_, ?_⟩, ⟨?_, ?_, ?_⟩, ?_⟩
  · intro b found hfound
    rw [get?_erase] at hfound
    split_ifs at hfound
    exact hl.dirty b found hfound
  · intro b found hfound
    rcases cachePut_eq_some hfound with ⟨_, rfl⟩ | ⟨_, hold⟩
    · exact hlen
    · exact hl.cached b found hold
  · intro found hfound
    rw [get?_erase, if_pos rfl] at hfound
    cases hfound
  · intro _ found hfound
    rw [cachePut_self] at hfound
    exact (Option.some.inj hfound).symm
  · intro _
    exact blockAt_write_self l.disk blk hlen
  intro b d hb hold
  have hdirty : (l.dirtyBlocks.erase blk).get? b = l.dirtyBlocks.get? b := by
    rw [get?_erase, if_neg hb]
  refine ⟨?_, ?_, ?_⟩
  · intro found hfound
    rw [hdirty] at hfound
    exact hold.dirty found hfound
  · intro hnone found hfound
    rw [hdirty] at hnone
    rcases cachePut_eq_some hfound with ⟨hsame, _⟩ | ⟨_, hcached⟩
    · exact absurd hsame hb
    · exact hold.cached hnone found hcached
  · intro hnone
    rw [hdirty] at hnone
    exact (blockAt_write_other l.disk hlen hb).trans (hold.disk hnone)

/-! ### Runs -/

theorem runs_flatten (es : List (Nat × Bytes)) : (runs es).flatten = es := by
  induction es with
  | nil => rfl
  | cons e rest ih =>
    unfold runs
    cases hruns : runs rest with
    | nil =>
      rw [hruns] at ih
      simp [← ih]
    | cons run more =>
      rw [hruns] at ih
      cases run with
      | nil => simpa using ih
      | cons e' run =>
        dsimp only
        split_ifs <;> simpa using ih

/-- Each entry of a run is followed by the next block. -/
def Consecutive : List (Nat × Bytes) → Prop
  | e :: e' :: run => e'.1 = e.1 + 1 ∧ Consecutive (e' :: run)
  | _ => True

theorem runs_consecutive (es : List (Nat × Bytes)) : ∀ run ∈ runs es, Consecutive run := by
  induction es with
  | nil => simp [runs]
  | cons e rest ih =>
    unfold runs
    cases hruns : runs rest with
    | nil => simp [Consecutive]
    | cons run more =>
      rw [hruns] at ih
      cases run with
      | nil => simpa [Consecutive] using ih
      | cons e' run =>
        dsimp only
        split_ifs with hnext
        · intro r hr
          rcases mem_cons.mp hr with rfl | hr
          · exact ⟨hnext, ih _ (by simp)⟩
          · exact ih r (by simp [hr])
        · intro r hr
          rcases mem_cons.mp hr with rfl | hr
          · trivial
          · exact ih r hr

/-- Write the blocks of a run one after the other. -/
def writeEach (g : Geometry) (disk : Storage) (run : List (Nat × Bytes)) : Storage :=
  run.foldl (fun disk e => disk.write (e.1 * g.blockSize) e.2) disk

variable {run : List (Nat × Bytes)} {e : Nat × Bytes}

/-- A batch at the address of its first block writes each block in its place. -/
theorem write_flatten (disk : Storage)
    (hrun : Consecutive (e :: run)) (hlen : ∀ x ∈ e :: run, x.2.length = g.blockSize) :
    disk.write (e.1 * g.blockSize) ((e :: run).map snd).flatten =
      writeEach g disk (e :: run) := by
  induction run generalizing disk e with
  | nil => simp [writeEach]
  | cons e' run ih =>
    obtain ⟨hnext, hrest⟩ := hrun
    rw [map_cons, flatten_cons, ← write_append, hlen e (by simp)]
    have haddr : e.1 * g.blockSize + g.blockSize = e'.1 * g.blockSize := by
      rw [hnext, succ_mul]
    rw [haddr, ih _ hrest (fun x hx => hlen x (by simp [hx]))]
    rfl

theorem blockAt_writeEach_other (disk : Storage)
    (hlen : ∀ x ∈ run, x.2.length = g.blockSize) (hb : ∀ x ∈ run, b ≠ x.1) :
    g.blockAt (writeEach g disk run) b = g.blockAt disk b := by
  induction run generalizing disk with
  | nil => rfl
  | cons e run ih =>
    have hrest := ih (disk.write (e.1 * g.blockSize) e.2) (fun x hx => hlen x (by simp [hx]))
      (fun x hx => hb x (by simp [hx]))
    exact hrest.trans (blockAt_write_other disk (hlen e (by simp)) (hb e (by simp)))

theorem blockAt_writeEach_mem (disk : Storage)
    (hlen : ∀ x ∈ run, x.2.length = g.blockSize) (hnodup : (run.map fst).Nodup)
    (he : e ∈ run) : g.blockAt (writeEach g disk run) e.1 = e.2 := by
  induction run generalizing disk with
  | nil => cases he
  | cons x run ih =>
    rw [map_cons, nodup_cons] at hnodup
    have hlen' : ∀ y ∈ run, y.2.length = g.blockSize := fun y hy => hlen y (by simp [hy])
    rcases mem_cons.mp he with rfl | he
    · have hother : ∀ y ∈ run, e.1 ≠ y.1 := fun y hy heq =>
        hnodup.1 (heq ▸ mem_map_of_mem hy)
      have hrest := blockAt_writeEach_other (disk.write (e.1 * g.blockSize) e.2) hlen' hother
      exact hrest.trans (blockAt_write_self disk e.1 (hlen e (by simp)))
    · exact ih _ hlen' hnodup.2 he

/-! ### Flushing -/

/-- A run may be written: a batch goes to the right address, and the cache has no stale copy of
its blocks. -/
def RunSafe (g : Geometry) (l : BlockLayer) (run : List (Nat × Bytes)) : Prop :=
  2 ≤ run.length → (∀ e ∈ run.head?, e.1 * (g.blockSize / g.devBlockSize) * g.devBlockSize =
      e.1 * g.blockSize) ∧
    ∀ e ∈ run, l.metaCache.get? e.1 = none ∨ l.metaCache.get? e.1 = some e.2

/-- What holds of a run that is about to be written. -/
structure RunReady (g : Geometry) (l : BlockLayer) (run : List (Nat × Bytes)) : Prop where
  consecutive : Consecutive run
  clean : ∀ e ∈ run, l.dirtyBlocks.get? e.1 = none
  sized : ∀ e ∈ run, e.2.length = g.blockSize
  safe : RunSafe g l run

theorem RunReady.mono (h : RunReady g l run)
    (hdirty : ∀ e ∈ run, l.dirtyBlocks.get? e.1 = none → l'.dirtyBlocks.get? e.1 = none)
    (hcached : ∀ e ∈ run, l'.metaCache.get? e.1 = l.metaCache.get? e.1 ∨
      l'.metaCache.get? e.1 = none) : RunReady g l' run := by
  refine ⟨h.consecutive, fun e he => hdirty e he (h.clean e he), h.sized, ?_⟩
  intro hlong
  obtain ⟨haddr, hcopies⟩ := h.safe hlong
  refine ⟨haddr, fun e he => ?_⟩
  rcases hcached e he with hsame | hnone
  · rw [hsame]
    exact hcopies e he
  · exact .inl hnone

theorem writeRun_eq_ok (h : l.writeRun g run = .ok l')
    (hl : l.WellSized g) (hrun : RunReady g l run) (hnodup : (run.map fst).Nodup) :
    l'.WellSized g ∧ (∀ e ∈ run, l'.HoldsAt g e.1 e.2) ∧
      (∀ b d, b ∉ run.map fst → l.HoldsAt g b d → l'.HoldsAt g b d) ∧
      (∀ b, l.dirtyBlocks.get? b = none → l'.dirtyBlocks.get? b = none) ∧
      ∀ b ∉ run.map fst, l'.metaCache.get? b = l.metaCache.get? b ∨
        l'.metaCache.get? b = none := by
  match run, h with
  | [], h =>
    cases h
    exact ⟨hl, by simp, fun _ _ _ hb => hb, fun _ hb => hb, fun _ _ => .inl rfl⟩
  | [e], h =>
    obtain ⟨hsized, hself, hothers⟩ := writeFsBlock_eq_ok h hl (hrun.sized e (by simp))
    obtain ⟨disk, _, h⟩ := ok_of_bind h
    cases h
    refine ⟨hsized, by simpa using hself, fun b d hb => hothers b d (by simpa using hb), ?_, ?_⟩
    · intro b hb
      rw [get?_erase]
      split_ifs
      · rfl
      · exact hb
    · intro b hb
      exact cachePut_other _ _ (by simpa using hb)
  | e :: e' :: rest, h =>
    obtain ⟨haddr, hcopies⟩ := hrun.safe (by simp)
    obtain ⟨id, hid, h⟩ := ok_of_bind h
    cases h
    have hdisk : g.writeBlocks l.disk id ((e :: e' :: rest).map snd).flatten =
        writeEach g l.disk (e :: e' :: rest) := by
      unfold Geometry.writeBlocks
      rw [mulUsize_eq_ok hid, haddr e (by simp)]
      exact write_flatten l.disk hrun.consecutive hrun.sized
    rw [hdisk]
    refine ⟨⟨hl.dirty, hl.cached⟩, ?_, ?_, fun _ hb => hb, fun _ _ => .inl rfl⟩
    · intro x hx
      refine ⟨?_, ?_, fun _ => blockAt_writeEach_mem l.disk hrun.sized hnodup hx⟩
      · intro found hfound
        rw [hrun.clean x hx] at hfound
        cases hfound
      intro _ found hfound
      rcases hcopies x hx with hnone | hsame
      · rw [hnone] at hfound
        cases hfound
      · rw [hsame] at hfound
        exact (Option.some.inj hfound).symm
    · intro b d hb hold
      refine ⟨hold.dirty, hold.cached, fun hnone => ?_⟩
      have hother : ∀ x ∈ e :: e' :: rest, b ≠ x.1 := fun x hx heq =>
        hb (heq ▸ mem_map_of_mem hx)
      exact (blockAt_writeEach_other l.disk hrun.sized hother).trans (hold.disk hnone)

/-- Writing run after run: the blocks of the runs hold their data, all others what they held. -/
theorem writeRuns_eq_ok {rs : List (List (Nat × Bytes))} (h : rs.foldlM (writeRun g) l = .ok l')
    (hl : l.WellSized g) (hready : ∀ run ∈ rs, RunReady g l run)
    (hnodup : (rs.flatten.map fst).Nodup) :
    l'.WellSized g ∧ (∀ e ∈ rs.flatten, l'.HoldsAt g e.1 e.2) ∧
      ∀ b d, b ∉ rs.flatten.map fst → l.HoldsAt g b d → l'.HoldsAt g b d := by
  induction rs generalizing l with
  | nil =>
    cases h
    exact ⟨hl, by simp, fun _ _ _ hb => hb⟩
  | cons run rs ih =>
    obtain ⟨mid, hstep, h⟩ := ok_of_bind h
    rw [flatten_cons, map_append] at hnodup
    obtain ⟨hnodupRun, hnodupRest, hdisjoint⟩ := nodup_append.mp hnodup
    obtain ⟨hsized, hrun, hothers, hdirty, hcached⟩ :=
      writeRun_eq_ok hstep hl (hready run (by simp)) hnodupRun
    have hready' : ∀ r ∈ rs, RunReady g mid r := by
      intro r hr
      refine (hready r (by simp [hr])).mono (fun e _ => hdirty e.1) (fun e he => hcached e.1 ?_)
      intro hmem
      exact hdisjoint _ hmem _ (mem_map_of_mem (mem_flatten_of_mem hr he)) rfl
    obtain ⟨hsized', hrest, hothers'⟩ := ih h hsized hready' hnodupRest
    refine ⟨hsized', ?_, ?_⟩
    · intro e he
      rw [flatten_cons, mem_append] at he
      rcases he with he | he
      · refine hothers' e.1 e.2 ?_ (hrun e he)
        intro hmem
        exact hdisjoint _ (mem_map_of_mem he) _ hmem rfl
      · exact hrest e he
    · intro b d hb hold
      rw [flatten_cons, map_append, mem_append, not_or] at hb
      exact hothers' b d hb.2 (hothers b d hb.1 hold)

/-- A flush may go ahead: every batch it writes is safe. -/
def FlushSafe (g : Geometry) (l : BlockLayer) (syncAll : Bool) : Prop :=
  ∀ run ∈ runs (l.toFlush syncAll), RunSafe g l run

theorem toFlush_sublist (l : BlockLayer) (syncAll : Bool) :
    (l.toFlush syncAll).Sublist l.dirtyBlocks.entries := by
  unfold toFlush
  split_ifs
  · exact List.Sublist.refl _
  · exact take_sublist _ _

theorem leftDirty_get? (l : BlockLayer) (syncAll : Bool) (b : Nat) : (l.leftDirty syncAll).get? b =
      if b ∈ (l.toFlush syncAll).map fst then none else l.dirtyBlocks.get? b := by
  unfold leftDirty toFlush
  cases syncAll with
  | true =>
    simp only [if_true, get?_empty]
    split_ifs with hmem
    · rfl
    · symm
      rw [get?_eq_none]
      intro e he heq
      exact hmem (heq ▸ mem_map_of_mem he)
  | false =>
    simp only [Bool.false_eq_true, if_false]
    rw [get?_filter]
    have hkeys : l.dirtyBlocks.keys.take flushBatch =
        (l.dirtyBlocks.entries.take flushBatch).map fst := map_take.symm
    rw [hkeys]
    by_cases hmem : b ∈ (l.dirtyBlocks.entries.take flushBatch).map fst
    · simp only [hmem]
      cases l.dirtyBlocks.get? b <;> simp
    · simp only [hmem]
      cases l.dirtyBlocks.get? b <;> simp

theorem flushDirtyBlocks_eq_ok {syncAll : Bool} (h : l.flushDirtyBlocks g syncAll = .ok l')
    (hl : l.WellSized g) (hsafe : l.FlushSafe g syncAll) :
    l'.WellSized g ∧ ∀ b d, l.HoldsAt g b d → l'.HoldsAt g b d := by
  have hentries : ∀ e ∈ l.toFlush syncAll, l.dirtyBlocks.get? e.1 = some e.2 := fun e he =>
    get?_eq_some.mpr ((toFlush_sublist l syncAll).subset he)
  have hnodup : ((l.toFlush syncAll).map fst).Nodup := by
    have hkeys : (l.dirtyBlocks.entries.map fst).Nodup :=
      pairwise_map.mpr (l.dirtyBlocks.sorted.imp (fun hlt => hlt.ne))
    exact hkeys.sublist ((toFlush_sublist l syncAll).map fst)
  have hready : ∀ run ∈ runs (l.toFlush syncAll),
      RunReady g { l with dirtyBlocks := l.leftDirty syncAll } run := by
    intro run hrun
    have hmem : ∀ e ∈ run, e ∈ l.toFlush syncAll := fun e he => by
      rw [← runs_flatten (l.toFlush syncAll)]
      exact mem_flatten_of_mem hrun he
    refine ⟨runs_consecutive _ run hrun, ?_, ?_, hsafe run hrun⟩
    · intro e he
      exact (leftDirty_get? l syncAll e.1).trans (if_pos (mem_map_of_mem (hmem e he)))
    · exact fun e he => hl.dirty e.1 e.2 (hentries e (hmem e he))
  have hsized : WellSized g { l with dirtyBlocks := l.leftDirty syncAll } := by
    refine ⟨?_, hl.cached⟩
    intro b buf hbuf
    rw [leftDirty_get?] at hbuf
    split_ifs at hbuf
    exact hl.dirty b buf hbuf
  obtain ⟨hsized', hflushed, hothers⟩ := writeRuns_eq_ok h hsized hready
    (by rw [runs_flatten]; exact hnodup)
  rw [runs_flatten] at hflushed hothers
  refine ⟨hsized', ?_⟩
  intro b d hold
  by_cases hmem : b ∈ (l.toFlush syncAll).map fst
  · obtain ⟨e, he, rfl⟩ := mem_map.mp hmem
    rw [← hold.dirty e.2 (hentries e he)]
    exact hflushed e he
  apply hothers b d hmem
  have hdirty : (l.leftDirty syncAll).get? b = l.dirtyBlocks.get? b :=
    (leftDirty_get? l syncAll b).trans (if_neg hmem)
  refine ⟨?_, ?_, ?_⟩
  · intro found hfound
    exact hold.dirty found (hdirty ▸ hfound)
  · intro hnone
    exact hold.cached (hdirty ▸ hnone)
  · intro hnone
    exact hold.disk (hdirty ▸ hnone)

/-- Dirty blocks read as they were entered. -/
theorem holdsAt_insert (hl : l.WellSized g) (hlen : buf.length = g.blockSize) :
    WellSized g { l with dirtyBlocks := l.dirtyBlocks.insert blk buf } ∧
      HoldsAt g { l with dirtyBlocks := l.dirtyBlocks.insert blk buf } blk buf ∧
      ∀ b d, b ≠ blk → l.HoldsAt g b d →
        HoldsAt g { l with dirtyBlocks := l.dirtyBlocks.insert blk buf } b d := by
  refine ⟨⟨?_, hl.cached⟩, ⟨?_, ?_, ?_⟩, ?_⟩
  · intro b found hfound
    rw [get?_insert] at hfound
    split_ifs at hfound
    · rwa [← Option.some.inj hfound]
    · exact hl.dirty b found hfound
  · intro found hfound
    rw [get?_insert_self] at hfound
    exact (Option.some.inj hfound).symm
  · intro hnone
    rw [get?_insert_self] at hnone
    cases hnone
  · intro hnone
    rw [get?_insert_self] at hnone
    cases hnone
  · intro b d hb hold
    have hsame := get?_insert_of_ne l.dirtyBlocks buf hb
    refine ⟨fun found hfound => hold.dirty found (hsame ▸ hfound), fun hnone => ?_, fun hnone => ?_⟩
    · exact hold.cached (hsame ▸ hnone)
    · exact hold.disk (hsame ▸ hnone)

/-- The flush that entering a dirty block starts may go ahead. -/
def InsertSafe (g : Geometry) (l : BlockLayer) (blk : Nat) (buf : Bytes) : Prop :=
  dirtyLimit ≤ (l.dirtyBlocks.insert blk buf).length →
    FlushSafe g { l with dirtyBlocks := l.dirtyBlocks.insert blk buf } false

theorem insertDirty_eq_ok (h : l.insertDirty g blk buf = .ok l') (hl : l.WellSized g)
    (hlen : buf.length = g.blockSize) (hsafe : l.InsertSafe g blk buf) :
    l'.WellSized g ∧ l'.HoldsAt g blk buf ∧ ∀ b d, b ≠ blk → l.HoldsAt g b d → l'.HoldsAt g b d := by
  obtain ⟨hsized, hself, hothers⟩ := @holdsAt_insert g l blk buf hl hlen
  unfold insertDirty at h
  by_cases hfull : dirtyLimit ≤ (l.dirtyBlocks.insert blk buf).length
  · simp only [hfull] at h
    obtain ⟨hsized', hkept⟩ := flushDirtyBlocks_eq_ok h hsized (hsafe hfull)
    exact ⟨hsized', hkept _ _ hself, fun b d hb hold => hkept b d (hothers b d hb hold)⟩
  · simp only [hfull] at h
    cases h
    exact ⟨hsized, hself, hothers⟩

theorem cachePut_wellSized (hl : l.WellSized g) (hlen : buf.length = g.blockSize) :
    WellSized g { l with metaCache := cachePut l.metaCache blk buf } := by
  refine ⟨hl.dirty, ?_⟩
  intro b found hfound
  rcases cachePut_eq_some hfound with ⟨_, rfl⟩ | ⟨_, hold⟩
  · exact hlen
  · exact hl.cached b found hold

theorem cachePut_holdsAt (hb : b ≠ blk) (hold : l.HoldsAt g b d) :
    HoldsAt g { l with metaCache := cachePut l.metaCache blk buf } b d := by
  refine ⟨hold.dirty, fun hnone found hfound => ?_, hold.disk⟩
  rcases cachePut_eq_some hfound with ⟨hsame, _⟩ | ⟨_, hcached⟩
  · exact absurd hsame hb
  · exact hold.cached hnone found hcached

theorem readFsBlocks_of_fits {disk : Storage} (h : blk * g.blockSize < usizeLimit) :
    g.readFsBlocks disk blk = .ok (g.blockAt disk blk) := by
  have hok : ∃ out, g.readFsBlocks disk blk = .ok out := by
    unfold Geometry.readFsBlocks mulUsize
    by_cases hdvd : g.blockSize % g.devBlockSize = 0
    · have hle : blk * (g.blockSize / g.devBlockSize) < usizeLimit :=
        (mul_le_mul_left blk (div_le_self _ _)).trans_lt h
      rw [if_pos hdvd, if_pos hle]
      exact ⟨_, rfl⟩
    · rw [if_neg hdvd, if_pos h]
      exact ⟨_, rfl⟩
  obtain ⟨out, hout⟩ := hok
  rw [hout, Geometry.readFsBlocks_eq_ok hout]

theorem readFsBlock_of_holdsAt (hl : l.WellSized g) (hd : l.HoldsAt g blk d)
    (hfits : blk * g.blockSize < usizeLimit) : ∃ l', l.readFsBlock g blk = .ok (d, l') := by
  have hok : ∃ out l', l.readFsBlock g blk = .ok (out, l') := by
    unfold readFsBlock
    cases hdirty : l.dirtyBlocks.get? blk with
    | some buf => exact ⟨buf, l, if_pos (hl.dirty blk buf hdirty)⟩
    | none =>
      cases hcached : l.metaCache.get? blk with
      | some buf => exact ⟨buf, l, if_pos (hl.cached blk buf hcached)⟩
      | none =>
        rw [readFsBlocks_of_fits hfits]
        exact ⟨_, _, rfl⟩
  obtain ⟨out, l', hread⟩ := hok
  exact ⟨l', by rw [hread, (readFsBlock_eq_ok hread hl hd).1]⟩

end BlockLayer

/-! ### Runs of the block layer -/

/-- The contents of one block. -/
abbrev Geometry.Block (g : Geometry) := { b : Bytes // b.length = g.blockSize }

/-- A block layer together with the contents last stored for each block. -/
structure TrackedLayer where
  layer : BlockLayer
  stored : Nat → Bytes

namespace TrackedLayer

open BlockLayer

/-- The operations on the block layer. Deferred writes and file data are whole blocks; the
buffer of a direct write is what its caller passes. -/
inductive Op (g : Geometry)
  | read (blk : Nat)
  | write (blk : Nat) (buf : Bytes)
  | writeDeferred (blk : Nat) (buf : g.Block)
  | insertDirty (blk : Nat) (buf : g.Block)
  | flush (syncAll : Bool)

/-- A fresh layer over a device. -/
def start (g : Geometry) (disk : Storage) : TrackedLayer :=
  ⟨⟨disk, .empty, .empty⟩, g.blockAt disk⟩

variable {g : Geometry}

def step (t : TrackedLayer) : Op g → Except Panic TrackedLayer
  | .read blk => do
    let (_, layer) ← t.layer.readFsBlock g blk
    .ok { t with layer }
  | .write blk buf => do
    let layer ← t.layer.writeFsBlock g blk buf
    .ok ⟨layer, update t.stored blk buf⟩
  | .writeDeferred blk buf => do
    let layer ← t.layer.writeMetaBlockDeferred g blk buf
    .ok ⟨layer, update t.stored blk buf⟩
  | .insertDirty blk buf => do
    let layer ← t.layer.insertDirty g blk buf
    .ok ⟨layer, update t.stored blk buf⟩
  | .flush syncAll => do
    let layer ← t.layer.flushDirtyBlocks g syncAll
    .ok { t with layer }

/-- What is asked of an operation: direct writes are whole blocks, and the batches of a flush
are safe. -/
def Safe (t : TrackedLayer) : Op g → Prop
  | .read _ => True
  | .write _ buf => buf.length = g.blockSize
  | .writeDeferred blk buf => InsertSafe g
      { t.layer with metaCache := cachePut t.layer.metaCache blk buf } blk buf
  | .insertDirty blk buf => t.layer.InsertSafe g blk buf
  | .flush syncAll => t.layer.FlushSafe g syncAll

/-- Every block holds what was last stored for it. -/
structure Coherent (g : Geometry) (t : TrackedLayer) : Prop where
  sized : t.layer.WellSized g
  holds : ∀ b, t.layer.HoldsAt g b (t.stored b)

theorem start_coherent (g : Geometry) (disk : Storage) : (start g disk).Coherent g where
  sized := ⟨fun _ _ h => (by cases h), fun _ _ h => (by cases h)⟩
  holds := fun _ => ⟨fun _ h => (by cases h), fun _ _ h => (by cases h), fun _ => rfl⟩

/-- A layer that differs in one block holds what was stored for it. -/
theorem Coherent.update {t : TrackedLayer} {layer : BlockLayer} {blk : Nat} {buf : Bytes}
    (h : t.Coherent g) (hsized : layer.WellSized g) (hself : layer.HoldsAt g blk buf)
    (hothers : ∀ b d, b ≠ blk → t.layer.HoldsAt g b d → layer.HoldsAt g b d) :
    Coherent g ⟨layer, update t.stored blk buf⟩ := by
  refine ⟨hsized, fun b => ?_⟩
  by_cases hb : b = blk
  · subst hb
    simpa using hself
  · simpa [hb] using hothers b _ hb (h.holds b)

/-- A write reaches its own block only, and a flush or a read changes no contents. -/
theorem step_coherent {t t' : TrackedLayer} {op : Op g} (h : t.Coherent g) (hop : t.Safe op)
    (hstep : t.step op = .ok t') : t'.Coherent g := by
  cases op with
  | read blk =>
    obtain ⟨⟨out, layer⟩, hread, hstep⟩ := ok_of_bind hstep
    cases hstep
    obtain ⟨_, hsized, hkept⟩ := readFsBlock_eq_ok hread h.sized (h.holds blk)
    exact ⟨hsized, fun b => hkept b _ (h.holds b)⟩
  | write blk buf =>
    obtain ⟨layer, hwrite, hstep⟩ := ok_of_bind hstep
    cases hstep
    obtain ⟨hsized, hself, hothers⟩ := writeFsBlock_eq_ok hwrite h.sized hop
    exact h.update hsized hself hothers
  | writeDeferred blk buf =>
    obtain ⟨layer, hwrite, hstep⟩ := ok_of_bind hstep
    cases hstep
    obtain ⟨hsized, hself, hothers⟩ :=
      insertDirty_eq_ok hwrite (cachePut_wellSized h.sized buf.2) buf.2 hop
    exact h.update hsized hself (fun b d hb hold => hothers b d hb (cachePut_holdsAt hb hold))
  | insertDirty blk buf =>
    obtain ⟨layer, hwrite, hstep⟩ := ok_of_bind hstep
    cases hstep
    obtain ⟨hsized, hself, hothers⟩ := insertDirty_eq_ok hwrite h.sized buf.2 hop
    exact h.update hsized hself hothers
  | flush syncAll =>
    obtain ⟨layer, hflush, hstep⟩ := ok_of_bind hstep
    cases hstep
    obtain ⟨hsized, hkept⟩ := flushDirtyBlocks_eq_ok hflush h.sized hop
    exact ⟨hsized, fun b => hkept b _ (h.holds b)⟩

/-- In every state reached by safe operations, a read of a block of the device returns what was
last stored for it, and all dirty and cached blocks have the size of a block. -/
theorem read_of_visits {disk : Storage} {t : TrackedLayer}
    (h : Visits (step (g := g)) Safe (start g disk) t) :
    (∀ blk, blk * g.blockSize < usizeLimit →
      ∃ layer, t.layer.readFsBlock g blk = .ok (t.stored blk, layer)) ∧
      (∀ b buf, t.layer.dirtyBlocks.get? b = some buf → buf.length = g.blockSize) ∧
      ∀ b buf, t.layer.metaCache.get? b = some buf → buf.length = g.blockSize := by
  have hcoherent : t.Coherent g := h.invariant (start_coherent g disk) (fun _ _ _ => step_coherent)
  exact ⟨fun blk hfits => readFsBlock_of_holdsAt hcoherent.sized (hcoherent.holds blk) hfits,
    hcoherent.sized.dirty, hcoherent.sized.cached⟩

/-- Blocks of 1024 bytes on a device with sectors of 512 bytes. -/
def smallBlocks : Geometry := ⟨1024, 512, by decide, by decide⟩

/-- A block that holds one byte all over. -/
def filled (byte : UInt8) : smallBlocks.Block := ⟨List.replicate 1024 byte, List.length_replicate⟩

/-- Two adjacent blocks are flushed in a batch, one of them with a copy of it in the cache. -/
theorem read_after_batch : ∃ t : TrackedLayer, run step (start smallBlocks fun _ => 0)
      [.writeDeferred 7 (filled 2), .insertDirty 8 (filled 3), .flush true] = .ok t ∧
    ∀ blk ∈ [7, 8], ∃ layer, t.layer.readFsBlock smallBlocks blk = .ok (t.stored blk, layer) := by
  let first := SortedMap.empty.insert 7 (filled 2).1
  let cached : TrackedLayer := ⟨⟨fun _ => 0, first, first⟩,
    update (start smallBlocks fun _ => 0).stored 7 (filled 2).1⟩
  let dirty : TrackedLayer := ⟨⟨fun _ => 0, first.insert 8 (filled 3).1, first⟩,
    update cached.stored 8 (filled 3).1⟩
  have hdeferred : Safe (start smallBlocks fun _ => 0) (.writeDeferred 7 (filled 2)) :=
    fun hfull => absurd hfull (by decide)
  have hinsert : Safe cached (.insertDirty 8 (filled 3)) := fun hfull => absurd hfull (by decide)
  have hflush : Safe dirty (.flush true : Op smallBlocks) := by
    intro run hrun _
    obtain rfl : run = [(7, (filled 2).1), (8, (filled 3).1)] := mem_singleton.mp hrun
    refine ⟨?_, ?_⟩
    · rintro _ ⟨⟩
      rfl
    · intro e he
      rcases mem_pair.mp he with rfl | rfl
      · exact .inr rfl
      · exact .inl rfl
  have hdirty : Visits step Safe (start smallBlocks fun _ => 0) dirty :=
    .next (.next .start hdeferred rfl) hinsert rfl
  refine ⟨_, rfl, fun blk hblk => (read_of_visits (.next hdirty hflush rfl)).1 blk ?_⟩
  revert blk
  decide

/-- A block is read, two adjacent blocks are written, and all is flushed. -/
def staleRead : List (Op smallBlocks) :=
  [.read 5, .insertDirty 5 (filled 1), .insertDirty 6 (filled 1), .flush true]

/-- The batch goes to the device only, and the read finds the copy cached before it. -/
theorem read_stale_after_batch : ¬ ∀ (g : Geometry) (disk : Storage) (t : TrackedLayer),
      Visits (step (g := g)) (fun _ _ => True) (start g disk) t →
        (∀ blk, blk * g.blockSize < usizeLimit →
          ∃ layer, t.layer.readFsBlock g blk = .ok (t.stored blk, layer)) ∧
          (∀ b buf, t.layer.dirtyBlocks.get? b = some buf → buf.length = g.blockSize) ∧
          ∀ b buf, t.layer.metaCache.get? b = some buf → buf.length = g.blockSize := by
  intro hall
  obtain ⟨t, hrun, hhead, hstored⟩ := exists_ok (run step (start smallBlocks fun _ => 0) staleRead)
    (fun t => (t.layer.readFsBlock smallBlocks 5).toOption.bind (fun r => r.1.head?) = some 0 ∧
      (t.stored 5).head? = some 1) (by decide +kernel)
  have hreads := (hall smallBlocks _ t (Visits.of_run .start (fun _ _ _ => trivial) hrun)).1
  obtain ⟨layer, hread⟩ := hreads 5 (by decide)
  rw [hread] at hhead
  exact absurd (hhead.symm.trans hstored) (by decide)

end TrackedLayer

end Petra.Ext4
