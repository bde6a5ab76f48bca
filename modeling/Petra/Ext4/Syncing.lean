import Petra.Ext4.Coherence

/-! # Syncing

A sync collects the dirty blocks, clears them and writes them, each in a section of its own.
Between its sections other threads enter dirty blocks, and the device may fail any write.
-/

namespace Petra.Ext4

open Base Function BlockLayer List SortedMap

variable {g : Geometry}

/-- A call that flushes. An `fsync` also writes the blocks of the descriptor table, none for a
data sync or a clean table, and flushes the device. -/
inductive SyncCall (g : Geometry)
  | flushDirtyBlocks (syncAll : Bool)
  | fsync (table : List (Nat × g.Block))

/-- What a call has still to do: `write_fs_block` for one block, whose error is returned or
dropped; the rest of it, when the block has left the dirty blocks; a batch; the device's flush. -/
inductive SyncJob
  | single (e : Nat × Bytes) (returns : Bool)
  | store (e : Nat × Bytes) (returns : Bool)
  | batch (run : List (Nat × Bytes))
  | flush

/-- Where a call is. -/
inductive SyncPhase (g : Geometry)
  | collect (call : SyncCall g)
  | clear (call : SyncCall g) (toFlush : List (Nat × Bytes))
  | work (jobs : List SyncJob)
  | returned (ok : Bool)

namespace SyncCall

def syncAll : SyncCall g → Bool
  | .flushDirtyBlocks syncAll => syncAll
  | .fsync _ => true

def table : SyncCall g → List (Nat × Bytes)
  | .flushDirtyBlocks _ => []
  | .fsync table => table.map fun e => (e.1, e.2.1)

def jobOf : List (Nat × Bytes) → SyncJob
  | [e] => .single e false
  | run => .batch run

def jobs (call : SyncCall g) (toFlush : List (Nat × Bytes)) : List SyncJob :=
  (runs toFlush).map jobOf ++ call.table.map (.single · true) ++
    match call with
    | .flushDirtyBlocks _ => []
    | .fsync _ => [.flush]

end SyncCall

variable (g) in
/-- The next section of a call. A write reaches the device iff `ok`. -/
def advance (l : BlockLayer) (ok : Bool) : SyncPhase g → Except Panic (BlockLayer × SyncPhase g)
  | .collect call =>
    if l.dirtyBlocks.entries = [] then .ok (l, .work (call.jobs []))
    else if call.syncAll then .ok (l, .clear call (l.toFlush true))
    else .ok ({ l with dirtyBlocks := l.leftDirty false }, .work (call.jobs (l.toFlush false)))
  | .clear call toFlush => .ok ({ l with dirtyBlocks := .empty }, .work (call.jobs toFlush))
  | .work [] => .ok (l, .returned true)
  | .work (.single e returns :: jobs) =>
    .ok ({ l with dirtyBlocks := l.dirtyBlocks.erase e.1 }, .work (.store e returns :: jobs))
  | .work (.store e returns :: jobs) => do
    let metaCache := cachePut l.metaCache e.1 e.2
    let disk ← g.writeFsBlocks l.disk e.1 e.2
    .ok ({ l with metaCache, disk := if ok then disk else l.disk },
      if ok || !returns then .work jobs else .returned false)
  | .work (.batch run :: jobs) => do
    let id ← mulUsize (run.headD (0, [])).1 (g.blockSize / g.devBlockSize)
    let disk := g.writeBlocks l.disk id (run.map Prod.snd).flatten
    .ok ({ l with disk := if ok then disk else l.disk }, .work jobs)
  | .work (.flush :: jobs) => .ok (l, if ok then .work jobs else .returned false)
  | .returned ok => .ok (l, .returned ok)

/-- One call beside other threads. It is remembered which blocks were dirty when the call
began, which have been entered since, and for which a write of the call has failed. -/
structure Syncing (g : Geometry) where
  layer : BlockLayer
  call : SyncPhase g
  others : Nat → SyncPhase g
  began : SortedMap Nat Bytes
  entered : SortedMap Nat Bytes
  failed : List Nat

inductive SyncOp (g : Geometry)
  | next (ok : Bool)
  | other (t : Nat) (ok : Bool)
  | insert (t blk : Nat) (buf : g.Block)

def SyncJob.entries : SyncJob → List (Nat × Bytes)
  | .single e _ | .store e _ => [e]
  | .batch run => run
  | .flush => []

namespace Syncing

def start (layer : BlockLayer) (call : SyncCall g) : Syncing g :=
  ⟨layer, .collect call, fun _ => .returned true, .empty, .empty, []⟩

/-- The blocks whose write fails if the next section fails. -/
def writes : SyncPhase g → List Nat
  | .work (.store e _ :: _) => [e.1]
  | .work (.batch run :: _) => run.map Prod.fst
  | _ => []

def step (s : Syncing g) : SyncOp g → Except Panic (Syncing g)
  | .next ok => do
    let (layer, call) ← advance g s.layer ok s.call
    let failed := if ok then s.failed else writes s.call ++ s.failed
    match s.call with
    | .collect _ => .ok { s with
        layer, call, failed, began := s.layer.dirtyBlocks, entered := .empty }
    | _ => .ok { s with layer, call, failed }
  | .other t ok => do
    let (layer, phase) ← advance g s.layer ok (s.others t)
    .ok { s with layer, others := update s.others t phase }
  | .insert t blk buf =>
    match s.others t with
    | .returned _ =>
      let dirtyBlocks := s.layer.dirtyBlocks.insert blk buf.1
      let metaCache := cachePut s.layer.metaCache blk buf.1
      -- a thread that finds too many dirty blocks flushes before it goes on
      let phase := if dirtyLimit ≤ dirtyBlocks.length then
        .collect (.flushDirtyBlocks false) else .returned true
      .ok { s with
        layer := { s.layer with dirtyBlocks, metaCache }
        entered := s.entered.insert blk buf.1
        others := update s.others t phase }
    | _ => .ok s

/-- If the call returns without error, what was dirty is on the device, and what has been
entered or could not be written is still dirty. -/
def Durable (s : Syncing g) : Prop :=
  s.call = .returned true →
    (∀ b d, s.began.get? b = some d → g.blockAt s.layer.disk b = d) ∧
    (∀ b d, s.entered.get? b = some d → s.layer.dirtyBlocks.get? b = some d) ∧
    ∀ b ∈ s.failed, (s.layer.dirtyBlocks.get? b).isSome

/-! ### Quiet syncs -/

/-- No section to come removes the block from the dirty blocks. -/
def Spares (blk : Nat) : SyncPhase g → Prop
  | .clear _ _ => False
  | .work jobs => ∀ e returns, .single e returns ∈ jobs → e.1 ≠ blk
  | _ => True

/-- No write fails, no other call flushes, the blocks of the table are not dirty, and no block is
entered that the call removes from the dirty blocks. -/
def Quiet (s : Syncing g) : SyncOp g → Prop
  | .next ok => ok = true ∧ ∀ call, s.call = .collect call →
    ((s.layer.dirtyBlocks.entries ++ call.table).map Prod.fst).Nodup
  | .other _ _ => False
  | .insert _ blk buf =>
    (s.layer.dirtyBlocks.insert blk buf.1).length < dirtyLimit ∧ Spares blk s.call

/-- The blocks that a call has still to write. -/
def pending : SyncPhase g → List (Nat × Bytes)
  | .clear call toFlush => toFlush ++ call.table
  | .work jobs => jobs.flatMap SyncJob.entries
  | _ => []

variable {began entered : SortedMap Nat Bytes} {l l' : BlockLayer} {disk : Storage}
  {run rest : List (Nat × Bytes)} {call : SyncCall g} {phase phase' : SyncPhase g}

/-- A block that was dirty is still to be written, or on the device for good. -/
def Kept (g : Geometry) (began : SortedMap Nat Bytes) (pending : List (Nat × Bytes))
    (disk : Storage) : Prop :=
  ∀ b d, began.get? b = some d →
    (b, d) ∈ pending ∨ b ∉ pending.map Prod.fst ∧ g.blockAt disk b = d

theorem Kept.write (h : Kept g began (run ++ rest) disk)
    (hnodup : ((run ++ rest).map Prod.fst).Nodup) (hlen : ∀ e ∈ run, e.2.length = g.blockSize) :
    Kept g began rest (writeEach g disk run) := by
  intro b d hb
  rw [map_append, nodup_append] at hnodup
  obtain ⟨hrun, _, hapart⟩ := hnodup
  rcases h b d hb with hmem | ⟨hout, hdisk⟩
  · rcases mem_append.mp hmem with hmem | hmem
    · refine .inr ⟨fun hrest => ?_, blockAt_writeEach_mem disk hlen hrun hmem⟩
      exact hapart b (mem_map_of_mem hmem) b hrest rfl
    · exact .inl hmem
  · rw [map_append, mem_append, not_or] at hout
    refine .inr ⟨hout.2, (blockAt_writeEach_other disk hlen ?_).trans hdisk⟩
    intro e he heq
    exact hout.1 (heq ▸ mem_map_of_mem he)

/-- What holds between the sections of a quiet sync. -/
structure Accounted (g : Geometry) (began entered : SortedMap Nat Bytes) (l : BlockLayer)
    (phase : SyncPhase g) : Prop where
  dirty : ∀ b d, l.dirtyBlocks.get? b = some d → d.length = g.blockSize
  sized : ∀ e ∈ pending phase, e.2.length = g.blockSize
  nodup : ((pending phase).map Prod.fst).Nodup
  consecutive : ∀ jobs, phase = .work jobs → ∀ run, .batch run ∈ jobs → Consecutive run
  kept : Kept g began (pending phase) l.disk
  entered : ∀ b d, entered.get? b = some d →
    l.dirtyBlocks.get? b = some d ∧ Spares b phase
  all : ∀ call, phase = .collect call → call.syncAll = true

/-! ### Sections -/

theorem length_table (call : SyncCall g) : ∀ e ∈ call.table, e.2.length = g.blockSize := by
  cases call with
  | flushDirtyBlocks syncAll => exact nofun
  | fsync table =>
    intro e he
    obtain ⟨e, _, rfl⟩ := mem_map.mp he
    exact e.2.2

theorem entries_jobOf (run : List (Nat × Bytes)) : (SyncCall.jobOf run).entries = run := by
  unfold SyncCall.jobOf
  split <;> rfl

theorem pending_jobs (call : SyncCall g) (toFlush : List (Nat × Bytes)) :
    pending (g := g) (.work (call.jobs toFlush)) = toFlush ++ call.table := by
  have hruns : ((runs toFlush).map SyncCall.jobOf).flatMap SyncJob.entries = toFlush := by
    rw [flatMap_map, funext entries_jobOf, flatMap_id', runs_flatten]
  have htable : (call.table.map (SyncJob.single · true)).flatMap SyncJob.entries = call.table := by
    rw [flatMap_map]
    exact flatMap_singleton' _
  cases call <;> simp [pending, SyncCall.jobs, hruns, htable, SyncJob.entries]

/-- The call goes to work on what it has collected. -/
theorem Accounted.work {toFlush : List (Nat × Bytes)}
    (hdirty : ∀ b d, l.dirtyBlocks.get? b = some d → d.length = g.blockSize)
    (hsized : ∀ e ∈ toFlush ++ call.table, e.2.length = g.blockSize)
    (hnodup : ((toFlush ++ call.table).map Prod.fst).Nodup)
    (hkept : Kept g began (toFlush ++ call.table) l.disk) (hentered : ∀ b, entered.get? b = none) :
    Accounted g began entered l (.work (call.jobs toFlush)) := by
  rw [← pending_jobs] at hsized hnodup hkept
  refine ⟨hdirty, hsized, hnodup, ?_, hkept, ?_, nofun⟩
  · rintro _ ⟨⟩ run hrun
    simp only [SyncCall.jobs, mem_append, mem_map] at hrun
    rcases hrun with (⟨r, hr, hrun⟩ | ⟨_, _, ⟨⟩⟩) | hrun
    · unfold SyncCall.jobOf at hrun
      split at hrun <;> cases hrun
      exact runs_consecutive _ _ hr
    · cases call <;> simp at hrun
  · intro b d hb
    rw [hentered] at hb
    cases hb

/-- A job of a quiet sync that leaves the dirty blocks alone. -/
theorem Accounted.done {job : SyncJob} {jobs : List SyncJob}
    (h : Accounted g began entered l (.work (job :: jobs)))
    (hdirty : l'.dirtyBlocks = l.dirtyBlocks)
    (hkept : Kept g began (jobs.flatMap SyncJob.entries) l'.disk) :
    Accounted g began entered l' (.work jobs) := by
  have hnodup := h.nodup
  rw [pending, flatMap_cons, map_append] at hnodup
  refine ⟨hdirty ▸ h.dirty, fun e he => h.sized e (mem_append_right _ he),
    hnodup.of_append_right, ?_, hkept, fun b d hb => ?_, nofun⟩
  · rintro _ ⟨⟩ run hrun
    exact h.consecutive _ rfl run (.tail _ hrun)
  · obtain ⟨hget, hspares⟩ := h.entered b d hb
    exact ⟨hdirty ▸ hget, fun e returns he => hspares e returns (.tail _ he)⟩

theorem writeBlocks_batch (hdvd : g.devBlockSize ∣ g.blockSize) {id : Nat}
    (hid : mulUsize (run.headD (0, [])).1 (g.blockSize / g.devBlockSize) = .ok id)
    (hrun : Consecutive run) (hlen : ∀ e ∈ run, e.2.length = g.blockSize) :
    g.writeBlocks disk id (run.map Prod.snd).flatten = writeEach g disk run := by
  cases run with
  | nil => simp [Geometry.writeBlocks, writeEach]
  | cons e run =>
    rw [← write_flatten disk hrun hlen, Geometry.writeBlocks, mulUsize_eq_ok hid, Nat.mul_assoc,
      Nat.div_mul_cancel hdvd]
    rfl

theorem Accounted.next (h : Accounted g began entered l phase)
    (hdvd : g.devBlockSize ∣ g.blockSize) (hphase : ∀ call, phase ≠ .collect call)
    (hrun : advance g l true phase = .ok (l', phase')) : Accounted g began entered l' phase' := by
  cases phase with
  | collect call => exact absurd rfl (hphase call)
  | clear call toFlush =>
    cases hrun
    refine .work nofun h.sized h.nodup h.kept fun b => ?_
    cases hb : entered.get? b with
    | none => rfl
    | some d => exact (h.entered b d hb).2.elim
  | returned ok =>
    cases hrun
    exact h
  | work jobs =>
    match jobs, hrun with
    | [], hrun =>
      cases hrun
      exact ⟨h.dirty, h.sized, h.nodup, nofun, h.kept,
        fun b d hb => ⟨(h.entered b d hb).1, trivial⟩, nofun⟩
    | .single e returns :: jobs, hrun =>
      cases hrun
      refine ⟨fun b d hb => ?_, h.sized, h.nodup, ?_, h.kept, fun b d hb => ?_, nofun⟩
      · rw [get?_erase] at hb
        split_ifs at hb
        exact h.dirty b d hb
      · rintro _ ⟨⟩ run hrun
        exact h.consecutive _ rfl run (by simpa using hrun)
      · obtain ⟨hget, hspares⟩ := h.entered b d hb
        rw [get?_erase, if_neg (hspares e returns (.head _)).symm]
        exact ⟨hget, fun e' returns' he =>
          hspares e' returns' (mem_cons_of_mem _ (by simpa using he))⟩
    | .store e returns :: jobs, hrun =>
      obtain ⟨disk, hwrite, hrun⟩ := ok_of_bind hrun
      cases hrun
      have hlen := h.sized e (.head _)
      have hkept : Kept g began ([e] ++ jobs.flatMap SyncJob.entries) l.disk := h.kept
      refine h.done rfl ?_
      rw [Geometry.writeFsBlocks_eq_ok hlen hwrite]
      exact hkept.write h.nodup (by simpa using hlen)
    | .batch run :: jobs, hrun =>
      obtain ⟨id, hid, hrun⟩ := ok_of_bind hrun
      cases hrun
      have hlen : ∀ e ∈ run, e.2.length = g.blockSize :=
        fun e he => h.sized e (mem_append_left _ he)
      refine h.done rfl ?_
      rw [writeBlocks_batch hdvd hid (h.consecutive _ rfl run (.head _)) hlen]
      exact h.kept.write h.nodup hlen
    | .flush :: jobs, hrun =>
      cases hrun
      exact h.done rfl h.kept

theorem Accounted.collect (h : Accounted g began entered l (.collect call))
    (hnodup : ((l.dirtyBlocks.entries ++ call.table).map Prod.fst).Nodup)
    (hrun : advance g l true (.collect call) = .ok (l', phase')) :
    Accounted g l.dirtyBlocks .empty l' phase' := by
  have hsized : ∀ e ∈ l.dirtyBlocks.entries ++ call.table, e.2.length = g.blockSize := by
    intro e he
    rcases mem_append.mp he with he | he
    · exact h.dirty e.1 e.2 (get?_eq_some.mpr he)
    · exact length_table call e he
  have hkept : Kept g l.dirtyBlocks (l.dirtyBlocks.entries ++ call.table) l.disk :=
    fun b d hb => .inl (mem_append_left _ (get?_eq_some.mp hb))
  dsimp only [advance] at hrun
  rw [if_pos (h.all call rfl)] at hrun
  split_ifs at hrun with hempty <;> cases hrun
  · rw [hempty] at hnodup hsized hkept
    exact .work h.dirty hsized hnodup hkept fun _ => rfl
  · exact ⟨h.dirty, hsized, hnodup, nofun, hkept, nofun, nofun⟩

theorem Accounted.insert {blk : Nat} {buf : g.Block} (h : Accounted g began entered l phase)
    (hspares : Spares blk phase) {cache : SortedMap Nat Bytes} :
    Accounted g began (entered.insert blk buf.1)
      { l with dirtyBlocks := l.dirtyBlocks.insert blk buf.1, metaCache := cache } phase := by
  refine { h with dirty := fun b d hb => ?_, entered := fun b d hb => ?_ }
  · rw [get?_insert] at hb
    split_ifs at hb
    · cases hb
      exact buf.2
    · exact h.dirty b d hb
  · rw [get?_insert] at hb ⊢
    split_ifs at hb ⊢ with hblk
    · exact ⟨hb, hblk ▸ hspares⟩
    · exact h.entered b d hb

/-- A quiet sync is durable. -/
theorem durable_of_visits {layer : BlockLayer} {s : Syncing g} (hdvd : g.devBlockSize ∣ g.blockSize)
    (hlayer : ∀ b d, layer.dirtyBlocks.get? b = some d → d.length = g.blockSize)
    (hcall : call.syncAll = true) (hrun : Visits step Quiet (start layer call) s) : s.Durable := by
  have hinv : Accounted g s.began s.entered s.layer s.call ∧ s.failed = [] := by
    refine hrun.invariant
      (I := fun s => Accounted g s.began s.entered s.layer s.call ∧ s.failed = [])
      ⟨⟨hlayer, nofun, .nil, nofun, nofun, nofun, ?_⟩, rfl⟩ ?_
    · rintro _ ⟨⟩
      exact hcall
    rintro s op s' ⟨h, hfailed⟩ hop hstep
    match op, hop with
    | .next ok, hop =>
      obtain ⟨rfl, hnodup⟩ := hop
      obtain ⟨⟨layer, phase⟩, hadvance, hstep⟩ := ok_of_bind hstep
      dsimp only at hstep
      split at hstep
      next call hphase =>
        cases hstep
        rw [hphase] at h hadvance
        exact ⟨h.collect (hnodup call hphase) hadvance, hfailed⟩
      next hphase =>
        cases hstep
        exact ⟨h.next hdvd hphase hadvance, hfailed⟩
    | .insert t blk buf, hop =>
      dsimp only [step] at hstep
      split at hstep <;> cases hstep
      · exact ⟨h.insert hop.2, hfailed⟩
      · exact ⟨h, hfailed⟩
  intro hreturned
  obtain ⟨h, hfailed⟩ := hinv
  rw [hreturned] at h
  refine ⟨fun b d hb => ?_, fun b d hb => (h.entered b d hb).1, by rw [hfailed]; exact nofun⟩
  exact ((h.kept b d hb).resolve_left nofun).2

open TrackedLayer (smallBlocks filled)

/-- One block is dirty. -/
def oneDirty : BlockLayer := ⟨fun _ => 0, SortedMap.empty.insert 7 (filled 2).1, .empty⟩

/-- So are its neighbour and another block. -/
def threeDirty : BlockLayer :=
  { oneDirty with
    dirtyBlocks := (oneDirty.dirtyBlocks.insert 8 (filled 2).1).insert 20 (filled 2).1 }

/-- A block of the batch is entered again before the batch is written. -/
theorem durable_meanwhile : ∃ s : Syncing smallBlocks, s.call = .returned true ∧
    s.began.get? 7 = some (filled 2).1 ∧ s.entered.get? 7 = some (filled 3).1 ∧ s.Durable := by
  have hstart : Quiet (g := smallBlocks) (start threeDirty (.flushDirtyBlocks true)) (.next true) := by
    refine ⟨rfl, ?_⟩
    rintro _ ⟨⟩
    exact (by decide : [7, 8, 20].Nodup)
  have hquiet : ∀ s : Syncing smallBlocks, (∀ call, s.call ≠ .collect call) → s.Quiet (.next true) :=
    fun s hs => ⟨rfl, fun call hcall => absurd hcall (hs call)⟩
  have hsized : ∀ b d, threeDirty.dirtyBlocks.get? b = some d → d.length = smallBlocks.blockSize := by
    intro b d hb
    simp only [threeDirty, oneDirty, get?_insert] at hb
    split_ifs at hb <;> cases hb <;> exact (filled 2).2
  have henter : ∀ s : Syncing smallBlocks, (s.layer.dirtyBlocks.insert 7 (filled 3).1).length <
      dirtyLimit → Spares 7 s.call → s.Quiet (.insert 0 7 (filled 3)) := fun _ hlen hspares =>
    ⟨hlen, hspares⟩
  have hspares : Spares (g := smallBlocks) 7 (.work [.batch [(7, (filled 2).1), (8, (filled 2).1)],
      .single (20, (filled 2).1) false]) := by
    simp [Spares]
  -- collected and cleared; entered; then the batch is written, and the third block removed and stored
  exact ⟨_, rfl, rfl, rfl, durable_of_visits (by decide) hsized rfl
    (.next (.next (.next (.next (.next (.next (.next .start hstart rfl) (hquiet _ nofun) rfl)
      (henter _ (by decide) hspares) rfl) (hquiet _ nofun) rfl) (hquiet _ nofun) rfl)
      (hquiet _ nofun) rfl) (hquiet _ nofun) rfl)⟩

/-- The write of the block fails. -/
theorem failedWrite_lost : ∃ s : Syncing smallBlocks,
    Visits step (fun _ _ => True) (start oneDirty (.flushDirtyBlocks true)) s ∧ ¬ s.Durable := by
  refine ⟨_, .of_run .start (fun _ _ _ => trivial) (show run step _
    [.next true, .next true, .next true, .next false, .next true] = _ from rfl), fun h => ?_⟩
  exact absurd ((h rfl).2.2 7 (.head _)) (by decide)

end Syncing

end Petra.Ext4
