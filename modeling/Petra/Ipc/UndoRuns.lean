import Petra.Ipc.UndoBooks

/-! # Undo over whole runs

The end of a process takes back what the process has added. That is so in every run in which no
record leaves the range of an adjustment, no semaphore is set while the end of a process has
still to apply a record to it, and no process goes on operating after its end.
-/

namespace Petra.Ipc.Sem

open Base Function

namespace SemState

variable {s s' : SemState} {call pid set num : Nat} {semid : Int} {op : SemOp}

/-! ## Whole runs -/

theorem Books.attempted (h : s.Books) {ops : List SemBuf}
    (hcall : s.calls call = .ready pid set ops) (hpid : pid ∉ s.exiting)
    (hfits : Fits (s.sets set).semid (s.undo pid) ops)
    (hstep : s.attempt call pid set ops = .ok s') : s'.Books := by
  obtain ⟨hlt, hops⟩ := h.ready call pid set ops hcall
  unfold attempt at hstep
  by_cases hdestroyed : (s.sets set).destroyed = true
  · rw [if_pos hdestroyed] at hstep
    cases hstep
    exact h.returned _
  rw [if_neg hdestroyed] at hstep
  split at hstep
  · cases hstep
  · cases hstep
    exact h.returned _
  · obtain ⟨t, hexecute, rfl⟩ := exists_of_observed hstep
    exact (h.executed hlt (by simpa using hdestroyed) hops hpid hfits hexecute).returned _
  · split_ifs at hstep
    · cases hstep
      exact h.returned _
    · cases hstep
      exact h

theorem Books.step (h : s.Books) (hun : s.Orderly op)
    (hstep : step s op = .ok s') : s'.Books := by
  cases op <;> dsimp only [step] at hstep
  case create semid perm nsems =>
    split_ifs at hstep with hfree
    cases hstep
    exact h.created hfree.2
  case look call pid cred semid req =>
    split at hstep
    · by_cases hlong : req.tooLong = true
      · rw [if_pos hlong] at hstep
        cases hstep
        exact h.returned _
      rw [if_neg hlong] at hstep
      split at hstep
      · cases hstep
        exact h.returned _
      next set hset =>
        cases hstep
        refine h.setCall ?_ nofun
        intro pid' cred' semid' set' req' heq
        cases heq
        obtain ⟨hlt, hsemid, -⟩ := h.registered semid set hset
        exact ⟨hlt, hsemid⟩
    · cases hstep
  case check call =>
    split at hstep
    next pid cred semid set ops hcall =>
      split at hstep
      · cases hstep
        exact h.returned _
      next hcheck =>
        cases hstep
        refine h.setCall nofun ?_
        intro pid' set' ops' heq
        cases heq
        refine ⟨(h.held call _ _ _ _ _ hcall).1, ?_⟩
        unfold checkOps at hcheck
        split_ifs at hcheck with _ hops <;> simpa using hops
    · cases hstep
  case attempt call =>
    dsimp only [Orderly] at hun
    split at hstep
    next pid set ops hcall =>
      rw [hcall] at hun
      cases hattempt : s.attempt call pid set ops with
      | error e =>
        rw [hattempt] at hstep
        cases hstep
      | ok t =>
        rw [hattempt] at hstep
        cases hstep
        exact h.attempted hcall hun.1 hun.2 hattempt
    · cases hstep
  case cancel call e =>
    split at hstep
    · cases hstep
      exact h.returned _
    · cases hstep
  case control call =>
    dsimp only [Orderly] at hun
    split at hstep
    next pid cred semid set req hcall =>
      rw [hcall] at hun
      obtain ⟨hlt, hsemid⟩ := h.held call pid cred semid set req hcall
      split at hstep
      · cases hstep
      · cases hstep
        exact h.returned _
      next t hcontrol =>
        cases hstep
        exact (h.controlled hlt hsemid (h.settled hun) (controlled_control hcontrol)).returned _
    · cases hstep
  case exit pid =>
    split_ifs at hstep with hpid
    cases hstep
    exact h.exited hpid
  case lookExit pid =>
    split at hstep
    next key adj rest happlying hpending =>
      split at hstep
      next hnone =>
        -- No record names a set that is gone.
        refine absurd ?_ (h.gone _ hnone pid (ofLex key).2).2
        unfold Awaits outstanding
        rw [happlying, hpending]
        exact (.head _)
      next set hset =>
        cases hstep
        exact h.looked happlying hpending hset
    · cases hstep
  case applyExit pid =>
    split at hstep
    next key adj set happlying =>
      cases hstep
      exact h.applied happlying
    · cases hstep
  case respawn pid =>
    split_ifs at hstep with hpid
    cases hstep
    exact h.respawned hpid.2

theorem books_initial : initial.Books where
  registered := nofun
  live := fun _ h => absurd h (Nat.not_lt_zero _)
  held := nofun
  ready := nofun
  quiet := fun _ _ => rfl
  taken := nofun
  distinct := fun _ => List.nodup_nil
  nonzero := fun _ => ⟨nofun, nofun⟩
  found := nofun
  gone := fun _ _ _ _ => ⟨rfl, nofun⟩
  sum := nofun
  bounds := fun _ _ _ _ => rfl
  fresh := fun _ _ _ _ => rfl

theorem books_of_visits (h : Visits step Orderly initial s) : s.Books :=
  h.invariant (I := Books) books_initial fun _ _ _ hs hun hstep => hs.step hun hstep

/-! ## What is taken back -/

/-- A value within its range. -/
def limited (val : Int) : Nat := (max 0 (min val semvmx)).toNat

/-- What the sections of an end do to values and to the records of other processes, and what
records a `semctl` leaves. -/
def Effect (s s' : SemState) : SemOp → Prop
  | .exit pid | .lookExit pid => s'.sets = s.sets ∧ ∀ pid', pid' ≠ pid → s'.undo pid' = s.undo pid'
  | .applyExit pid =>
    ∃ key adj set, s.applying pid = some (key, adj, set) ∧
      s.registry (ofLex key).1 = some set ∧ s'.undo = s.undo ∧
      ∀ set' num, (s'.sets set').val num =
        if set' = set ∧ num = (ofLex key).2 then
          limited ((s.sets set).val num - s.net pid set num)
        else (s.sets set').val num
  | .control call =>
    ∀ pid cred semid set req, s.calls call = .held pid cred semid set req →
      s'.calls call = .returned (.ok ()) → ∀ pid' key, resets semid req key →
        (s'.undo pid').get? key = none ∧ ¬s'.Awaits pid' key
  | _ => True

theorem val_setVal {set : SemSet} {val pid num : Nat} (hnum : num < set.nsems) (num' : Nat) :
    (set.setVal num val pid).val num' = if num' = num then val else set.val num' := by
  unfold SemSet.nsems at hnum
  unfold SemSet.val SemSet.setVal
  rw [List.getElem?_set]
  by_cases heq : num' = num
  · subst heq
    rw [if_pos rfl, if_pos rfl, if_pos hnum]
    rfl
  · rw [if_neg (Ne.symm heq), if_neg heq]

theorem Books.effect_apply (h : s.Books) {key : UndoKey} {adj : Int}
    (happlying : s.applying pid = some (key, adj, set)) :
    s.Effect (s.applyRecord pid key adj set) (.applyExit pid) := by
  obtain ⟨hadj, hne, hlive, hnum⟩ := h.applying_eq happlying
  refine ⟨key, adj, set, happlying, h.found pid key adj set happlying, ?_, ?_⟩
  · unfold applyRecord
    dsimp only
    split_ifs <;> rfl
  intro set' num
  unfold applyRecord
  rw [if_neg (by simp [hne, hlive, hnum])]
  dsimp only [setSet]
  by_cases hset : set' = set
  · rw [hset, update_self, val_setVal hnum]
    by_cases hkey : num = (ofLex key).2
    · rw [if_pos hkey, if_pos ⟨rfl, hkey⟩, hkey, hadj]
      rfl
    · rw [if_neg hkey, if_neg (fun h => hkey h.2)]
  · rw [update_of_ne hset, if_neg (fun h => hset h.1)]

theorem effect_controlled {req : Request} (hsettled : s.Settled semid req)
    (h : Controlled s semid set req s') {key : UndoKey} (hkey : resets semid req key) :
    (s'.undo pid).get? key = none ∧ ¬s'.Awaits pid key := by
  have hawaits := fun hmem : s.Awaits pid key => hsettled pid key hmem hkey
  cases h with
  | @setVal semnum val newSet hnum hlive hsemid hdestroyed hnsems =>
    refine ⟨?_, hawaits⟩
    change ((s.undo pid).clear semid (some semnum.toNat)).get? key = none
    have heq : key = undoKey semid semnum.toNat := hkey
    rw [Undos.get?_clear, heq, if_pos ⟨rfl, by simp⟩]
  | setAll hlive hsemid hdestroyed hnsems | rmid hlive =>
    refine ⟨?_, hawaits⟩
    change ((s.undo pid).clear semid none).get? key = none
    rw [Undos.get?_clear, if_pos ⟨hkey, rfl⟩]

theorem Books.effect (h : s.Books) (hun : s.Orderly op)
    (hstep : SemState.step s op = .ok s') : s.Effect s' op := by
  cases op <;> dsimp only [SemState.step] at hstep
  case create | look | check | attempt | cancel | respawn => trivial
  case control call =>
    intro pid cred semid set req hcall hreturned pid' key hkey
    dsimp only [Orderly] at hun
    rw [hcall] at hstep hun
    dsimp only at hstep hun
    split at hstep
    · cases hstep
    · cases hstep
      dsimp only [SemState.setCall] at hreturned
      rw [update_self] at hreturned
      cases hreturned
    next t hcontrol =>
      cases hstep
      exact effect_controlled (h.settled hun) (controlled_control hcontrol) hkey
  case exit pid =>
    split_ifs at hstep
    cases hstep
    exact ⟨rfl, fun pid' hne => update_of_ne hne ..⟩
  case lookExit pid =>
    split at hstep
    · split at hstep <;>
      · cases hstep
        exact ⟨rfl, fun _ _ => rfl⟩
    · cases hstep
  case applyExit pid =>
    split at hstep
    next key adj set happlying =>
      cases hstep
      exact h.effect_apply happlying
    · cases hstep

/-- In every run in which records stay in range, a semaphore is set when no end awaits it, and
processes operate before their end: the records of a process are what it has added, none names
a removed set, none is left after the end, an end takes back exactly what the process has added,
and touches no other process's records. -/
theorem undone_of_visits (h : Visits SemState.step Orderly initial s) :
    (∀ pid, pid ∉ s.exiting → ∀ semid set, s.registry semid = some set → ∀ num,
      (s.undo pid).adjustment semid num = -s.net pid set num) ∧
    (∀ semid, s.registry semid = none → ∀ pid num, (s.undo pid).get? (undoKey semid num) = none) ∧
    (∀ pid ∈ s.exiting, s.undo pid = .empty) ∧
    (∀ pid ∈ s.exiting, s.outstanding pid = [] → ∀ semid set, s.registry semid = some set →
      ∀ num, s.net pid set num = 0) ∧
    ∀ op s', s.Orderly op → SemState.step s op = .ok s' → s.Effect s' op := by
  have hbooks := books_of_visits h
  refine ⟨?_, fun semid hnone pid num => (hbooks.gone semid hnone pid num).1, hbooks.taken, ?_,
    fun op s' hun hstep => hbooks.effect hun hstep⟩
  · intro pid hpid semid set hset num
    have hsum := hbooks.sum semid set hset pid num
    unfold owed at hsum
    rw [hbooks.quiet pid hpid] at hsum
    rw [← hsum]
    exact (Int.add_zero _).symm
  · intro pid hpid hout semid set hset num
    have hsum := hbooks.sum semid set hset pid num
    unfold owed at hsum
    rw [hbooks.taken pid hpid, hout] at hsum
    exact Int.neg_eq_zero.mp hsum.symm

/-- One operation on semaphore 0 with `SEM_UNDO`. -/
def undoOp (semOp : Int) : Request := .semop [⟨0, semOp, semUndo⟩]

/-- A call of root up to its first attempt. -/
def callSemop (call pid : Nat) (semOp : Int) : List SemOp :=
  [.look call pid ⟨0, 0⟩ 3 (undoOp semOp), .check call, .attempt call]

def setOfOne : SemOp := .create 3 (.new 7 ⟨0, 0⟩ 0o600) 1

/-- Process 1 adds 5, process 2 takes 2. The end of process 1 would leave -2, which is limited
to 0, and the record of process 2 stays. -/
theorem undone_limited : ∃ s, Visits SemState.step Orderly initial s ∧
    (s.sets 0).val 0 = 0 ∧ (s.undo 2).adjustment 3 0 = 2 ∧ 1 ∈ s.exiting ∧ s.undo 1 = .empty := by
  obtain ⟨s, hs, hval, hadj, hmem⟩ := exists_visits SemState.step Orderly initial
    ([setOfOne] ++ callSemop 0 1 5 ++ callSemop 1 2 (-2) ++ [.exit 1, .lookExit 1, .applyExit 1])
    (fun s => (s.sets 0).val 0 = 0 ∧ (s.undo 2).adjustment 3 0 = 2 ∧ 1 ∈ s.exiting) (by decide)
  exact ⟨s, hs, hval, hadj, hmem, (undone_of_visits hs).2.2.1 1 hmem⟩

/-- A process adds 20000 and ends: 3616 is left. And where a semaphore is set to 9 after the end
of a process has taken its record of 5 out, the record is applied to the new value. -/
theorem not_undone : (Base.run SemState.step initial
      ([setOfOne] ++ callSemop 0 1 20000 ++ [.exit 1, .lookExit 1, .applyExit 1])).map
      (fun s => ((s.sets 0).val 0, s.net 1 0 0)) = .ok (3616, 0) ∧ (Base.run SemState.step initial
      ([setOfOne] ++ callSemop 0 1 5 ++ [.exit 1, .look 1 2 ⟨0, 0⟩ 3 (.setVal 0 9), .control 1,
        .lookExit 1, .applyExit 1])).map (fun s => (s.sets 0).val 0) = .ok 4 := by
  constructor <;> decide

end SemState

end Petra.Ipc.Sem
