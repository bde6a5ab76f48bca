import Petra.Sched.FairShare

/-! # What the sums of the fair class should be

The comments at the fields say that the sums are over all fair tasks, queued or running. A task
is taken off both sums when it is taken out of the queue to run.
-/

namespace Petra.Sched

open Base List EevdfRunQueue

/-- The operations on a run queue whose parameters stay the same. -/
inductive AccountOp
  | place (entry : SchedEntry) (isNew : Bool)
  /-- `pick_next`, and `install` of what it returns. -/
  | switch (now : Nat) (yielding : Bool)
  | startIdling (now fresh : Nat)
  | charge (now : Nat)
  | dequeueCurrent
  | dequeue (task : Nat)

namespace RqState

variable {s s' : RqState} {ents : Entities}

def account (s : RqState) : AccountOp → Except Panic RqState
  | .place entry isNew => .ok (s.place { entry with isIdle := false } isNew)
  | .switch now yielding =>
    match s.pickNext yielding with
    | none => .ok s
    | some next => s.install now next true
  | .startIdling now fresh => s.startIdling now fresh
  | .charge now => .ok (s.charge now)
  | .dequeueCurrent => do .ok (← s.dequeueCurrent).2
  | .dequeue task => do
    let (_, eevdf, ents) ← s.rq.eevdf.dequeue s.ents task
    .ok ⟨ents, { s.rq with eevdf := eevdf }⟩

/-- The fair tasks of the run queue, the running one first. -/
def fairTasks (s : RqState) : List SchedEntry :=
  (s.rq.current.toList.filter fun c => !(c.isIdle || s.isRt c)) ++ s.rq.eevdf.queued.values

/-- The comments at `sum_weight` and `sum_offset_weighted` hold. -/
def Accounted (s : RqState) : Prop :=
  s.rq.eevdf.sumWeight = (s.fairTasks.map fun e => (s.ents e.task).fair.weight).sum ∧
    (s.rq.eevdf.sumOffsetWeighted : Int) = (s.fairTasks.map fun e =>
      ((s.ents e.task).fair.vruntime - s.rq.eevdf.minVruntime : Int) *
        (s.ents e.task).fair.weight).sum
deriving Decidable

/-- Tasks are placed once and without saturation, and only real-time tasks are switched to. -/
def Unfair (s : RqState) : AccountOp → Prop
  | .place entry isNew => entry.task ∉ s.rq.tasks ∧
      (s.isRt entry = true ∨ s.rq.eevdf.Exact (s.ents entry.task).fair isNew)
  | .switch _ yielding => ∀ next ∈ s.pickNext yielding, s.isRt next = true
  | _ => True

instance (q : EevdfRunQueue) (e : EevdfEntity) (isNew : Bool) : Decidable (q.Exact e isNew) :=
  decidable_of_iff (q.placedVruntime e isNew < 2 ^ 64 ∧ q.sumWeight + e.weight ≤ u64Max ∧
      q.sumOffsetWeighted + ((q.placedVruntime e isNew).toNat -
        q.floorFor (q.placedVruntime e isNew).toNat) * e.weight ≤ u64Max)
    ⟨fun h => ⟨h.1, h.2.1, h.2.2⟩, fun h => ⟨h.vruntime, h.weight, h.offset⟩⟩

instance (s : RqState) : (op : AccountOp) → Decidable (s.Unfair op)
  | .place entry isNew => inferInstanceAs (Decidable (entry.task ∉ s.rq.tasks ∧
      (s.isRt entry = true ∨ s.rq.eevdf.Exact (s.ents entry.task).fair isNew)))
  | .switch _ yielding =>
    inferInstanceAs (Decidable (∀ next ∈ s.pickNext yielding, s.isRt next = true))
  | .startIdling _ _ => .isTrue trivial
  | .charge _ => .isTrue trivial
  | .dequeueCurrent => .isTrue trivial
  | .dequeue _ => .isTrue trivial

/-! ### The invariant -/

structure Sums (s : RqState) : Prop where
  filed : Filed s
  noFair : s.NoFairRuns
  balanced : s.rq.eevdf.Balanced s.ents

theorem sums_new (hseq : Function.Injective fun t => (ents t).seq)
    (cpu : Option Nat) : Sums ⟨ents, .new cpu⟩ where
  filed := .new hseq cpu
  noFair := ⟨rfl, nofun⟩
  balanced := ⟨rfl, fun _ he => (not_mem_nil he).elim, rfl, rfl, Nat.zero_le _⟩

/-- A step that does not touch the fair class. -/
theorem Sums.same (h : s.Sums) (hfiled : Filed s') (hsame : SameFair s s' ∧ s'.NoFairRuns) :
    s'.Sums := by
  refine ⟨hfiled, hsame.2, ?_⟩
  rw [hsame.1.eevdf]
  exact h.balanced.congr (fun e _ => by rw [hsame.1.fair]) (fun e _ => by rw [hsame.1.fair])

theorem Sums.place (h : s.Sums) {entry : SchedEntry} {isNew : Bool} (hidle : entry.isIdle = false)
    (hnew : entry.task ∉ s.rq.tasks)
    (hexact : s.isRt entry = true ∨ s.rq.eevdf.Exact (s.ents entry.task).fair isNew) :
    (s.place entry isNew).Sums := by
  refine ⟨(h.filed.place entry isNew hidle hnew).1, h.noFair.place entry isNew, ?_⟩
  unfold RqState.place
  split_ifs with hclass
  · exact h.balanced
  have hqueue : entry.task ∉ s.rq.queuedTasks := fun hmem => hnew (mem_append_right _ hmem)
  obtain ⟨vruntime, hents⟩ := Filed.place_ents s.rq.eevdf s.ents entry isNew
  have hmid : Queued (s.rq.eevdf.place s.ents entry isNew).2 s.rq := by
    rw [hents]
    exact h.filed.queued.modify entry.task _ (fun e => rfl) fun hmem => absurd hmem hqueue
  refine h.balanced.place isNew hmid.keyed hmid.seq ?_ (hexact.resolve_left hclass)
  intro hmem
  apply hqueue
  rw [RunQueue.queuedTasks, RunQueue.queuedEntries, map_append]
  exact mem_append_right _ hmem

theorem Sums.dequeue (h : s.Sums) {task : Nat} {out : Option SchedEntry} {q : EevdfRunQueue}
    (hrun : s.rq.eevdf.dequeue s.ents task = .ok (out, q, ents)) :
    Sums ⟨ents, { s.rq with eevdf := q }⟩ := by
  have hbalanced := h.balanced.dequeue hrun
  rcases dequeue_spec hrun with ⟨hq, hents⟩ | ⟨key, entry, lag, hget, hq, hents⟩
  · rw [hq, hents]
    exact h
  obtain ⟨hqueued, hcurrent⟩ := queued_unaccount
    { s.rq.eevdf with queued := s.rq.eevdf.queued.erase key } s.ents entry.task
  rw [← hq] at hqueued hcurrent
  have hperm : s.rq.eevdf.queued.values.Perm (entry :: q.queued.values) := by
    rw [hqueued]
    exact (SortedMap.perm_erase hget).map Prod.snd
  have hkeyed : q.Keyed s.ents := by
    intro kv hkv
    rw [hqueued] at hkv
    exact h.filed.queued.keyed kv (SortedMap.mem_erase.mp hkv).2
  obtain ⟨hout, htasks⟩ := h.filed.queued.of_perm { s.rq with eevdf := q } h.filed.queued.rt hkeyed
    (fun e he => he) (fun e he => hperm.mem_iff.mpr (.tail _ he))
    ((hperm.append_left _).trans perm_middle)
  -- The lag plays no part in where a task is filed.
  have hend : Queued ents { s.rq with eevdf := q } := by
    rw [hents]
    exact hout.modify entry.task _ (fun _ => rfl) fun _ => ⟨rfl, rfl, rfl⟩
  refine ⟨⟨hend, ?_, ?_⟩, ⟨hcurrent.trans h.noFair.eevdf, ?_⟩, hbalanced⟩
  · intro t ht hmem
    exact h.filed.apart t ht (htasks.mem_iff.mpr (.tail _ hmem))
  · intro e c he
    rw [show q.current = none from hcurrent.trans h.noFair.eevdf] at he
    cases he
  intro c hc
  rcases h.noFair.current c hc with hidle | hrt
  · exact .inl hidle
  right
  dsimp only
  rw [hents, Entities.modify]
  split_ifs
  · exact hrt
  · exact hrt

theorem Sums.account (h : s.Sums) {op : AccountOp} (hop : s.Unfair op)
    (hstep : s.account op = .ok s') : s'.Sums := by
  cases op with
  | place entry isNew =>
    cases hstep
    exact h.place rfl hop.1 hop.2
  | switch now yielding =>
    cases hpick : s.pickNext yielding with
    | none =>
      simp only [RqState.account, hpick] at hstep
      cases hstep
      exact h
    | some next =>
      simp only [RqState.account, hpick] at hstep
      obtain ⟨s'', hrun, hfiled, -⟩ := h.filed.install now (h.filed.mem_of_pickNext hpick)
      rw [hrun] at hstep
      cases hstep
      exact h.same hfiled
        (h.noFair.install (by simpa using ⟨h.filed.queued.rt, hop next hpick⟩) hrun)
  | startIdling now fresh =>
    obtain ⟨s'', hrun, hfiled, -⟩ := h.filed.startIdling now fresh
    change s.startIdling now fresh = .ok s' at hstep
    rw [hrun] at hstep
    cases hstep
    exact h.same hfiled (h.noFair.startIdling hrun)
  | charge now =>
    cases hstep
    refine h.same (h.filed.charge now).1 ?_
    rw [h.noFair.charge]
    exact ⟨.of_eq rfl rfl, h.noFair.eevdf, h.noFair.current⟩
  | dequeueCurrent =>
    obtain ⟨⟨out, s''⟩, hrun, hstep⟩ := ok_of_bind hstep
    cases hstep
    exact h.same (h.filed.dequeueCurrent hrun).1 (h.noFair.dequeueCurrent hrun)
  | dequeue task =>
    obtain ⟨⟨out, q, ents⟩, hrun, hstep⟩ := ok_of_bind hstep
    cases hstep
    exact h.dequeue hrun

theorem Sums.accounted (h : s.Sums) : s.Accounted := by
  have htasks : s.fairTasks = s.rq.eevdf.queued.values := by
    unfold fairTasks
    cases hc : s.rq.current with
    | none => rfl
    | some c =>
      have hnot : (c.isIdle || s.isRt c) = true := by
        simpa [NotFair, isRt] using h.noFair.current c hc
      rw [Option.toList_some, filter_cons_of_neg (by simp [hnot]), filter_nil,
        nil_append]
  refine ⟨?_, ?_⟩
  · rw [htasks]
    exact h.balanced.weight
  · rw [htasks, h.balanced.offset, offsets, Nat.cast_list_sum, map_map]
    refine congrArg sum (map_congr_left fun e he => ?_)
    have hfloor := h.balanced.floor e he
    simp [Nat.cast_sub hfloor]

/-- As long as no fair task is switched to, the sums are those of the fair tasks. -/
theorem accounted_of_visits {ents : Entities} {cpu : Option Nat}
    (hseq : Function.Injective fun t => (ents t).seq)
    (h : Visits account Unfair ⟨ents, .new cpu⟩ s) : s.Accounted :=
  (h.invariant (sums_new hseq cpu) fun _ _ _ hs hop hstep => hs.account hop hstep).accounted

/-- Fair tasks come and go while the real-time task runs. -/
def rtRuns : List AccountOp :=
  [.place ⟨0, 1, false⟩ true, .place ⟨1, 1, false⟩ true, .place ⟨2, 1, false⟩ true,
    .switch 2 false, .charge 3, .dequeue 0]

/-- One fair task comes and runs. -/
def fairRuns : List AccountOp := [.place ⟨0, 1, false⟩ true, .switch 2 false]

theorem accounted_rtRuns : ∃ s, Visits account Unfair ⟨mixedEntities, .new none⟩ s ∧
      (s.fairTasks = [⟨1, 1, false⟩] ∧ s.rq.eevdf.sumWeight = 1024) ∧ s.Accounted := by
  obtain ⟨s, hvisits, hend⟩ := exists_visits account Unfair ⟨mixedEntities, .new none⟩ rtRuns
    (fun s => s.fairTasks = [⟨1, 1, false⟩] ∧ s.rq.eevdf.sumWeight = 1024) (by decide)
  exact ⟨s, hvisits, hend, accounted_of_visits mixedEntities_seq hvisits⟩

/-- The task that runs is missing from the sum of the weights. -/
theorem not_accounted_fairRuns : ∃ s, run account ⟨freshEntities, .new none⟩ fairRuns = .ok s ∧
      (s.fairTasks = [⟨0, 1, false⟩] ∧ s.rq.eevdf.sumWeight = 0) ∧ ¬ s.Accounted := by
  exact exists_ok _ _ (by decide)

end RqState

end Petra.Sched
