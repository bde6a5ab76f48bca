import Petra.Base.Run
import Petra.Kernel

/-! # Credentials

A call that changes identifiers reads the credentials of its process, edits a copy, and stores the
copy in a step of its own. The user and the group identifiers follow the same rules.
-/

namespace Petra.Proc

open Base Function

structure Ids where
  real : Nat
  eff : Nat
  saved : Nat
  fs : Nat
  deriving DecidableEq

structure Ucred where
  uid : Ids
  gid : Ids
  groups : List Nat

/-- `IdColumns`: the identifiers that a call edits. -/
inductive IdColumns
  | uid
  | gid

def Ucred.ids (c : Ucred) : IdColumns → Ids
  | .uid => c.uid
  | .gid => c.gid

def Ucred.withIds (c : Ucred) (ids : Ids) : IdColumns → Ucred
  | .uid => { c with uid := ids }
  | .gid => { c with gid := ids }

def Ucred.isSuperuser (c : Ucred) : Bool := c.uid.eff == 0

/-- The effective identifier is that of the filesystem, too. -/
def Ids.setEff (ids : Ids) (v : Nat) : Ids := { ids with eff := v, fs := v }

def noChange : Nat := 2 ^ 32 - 1

def ngroupsMax : Nat := 65536

/-- The real and the effective identifier are set where they are given. -/
def Ids.edit (old : Ids) (r e : Nat) : Ids :=
  let new := if r ≠ noChange then { old with real := r } else old
  if e ≠ noChange then new.setEff e else new

inductive Transition
  | single (v : Nat)
  | re (r e : Nat)
  | res (r e s : Nat)
  | fs (v : Nat)

/-- The new identifiers, none where the call succeeds and stores nothing. -/
def Transition.run (isRoot : Bool) (old : Ids) : Transition → Except Errno (Option Ids)
  | .single v =>
    if isRoot = true then .ok (some ⟨v, v, v, v⟩)
    else if v = old.real ∨ v = old.saved then .ok (some (old.setEff v))
    else .error .EPERM
  | .re r e =>
    if r ≠ noChange ∧ ¬(isRoot = true ∨ r = old.real ∨ r = old.eff) then .error .EPERM
    else if e ≠ noChange ∧ ¬(isRoot = true ∨ e = old.real ∨ e = old.eff ∨ e = old.saved) then
      .error .EPERM
    else
      let new := old.edit r e
      if (r ≠ noChange ∨ (e ≠ noChange ∧ e ≠ old.real)) ∧ (isRoot = true ∨ e ≠ noChange) then
        .ok (some { new with saved := new.eff })
      else .ok (some new)
  | .res r e s =>
    let isAllowed := fun id =>
      id = noChange ∨ isRoot = true ∨ id = old.real ∨ id = old.eff ∨ id = old.saved
    if ¬isAllowed r ∨ ¬isAllowed e ∨ ¬isAllowed s then .error .EPERM
    else
      let new := old.edit r e
      .ok (some (if s ≠ noChange then { new with saved := s } else new))
  | .fs v =>
    if isRoot = true ∨ v = old.real ∨ v = old.eff ∨ v = old.saved ∨ v = old.fs then
      .ok (some { old with fs := v })
    else .ok none

inductive CredCall
  | ids (columns : IdColumns) (transition : Transition)
  /-- `setgroups`, with what reading the list gives. -/
  | groups (size : Nat) (list : Except Errno (List Nat))

def CredCall.run (old : Ucred) : CredCall → Except Errno (Option Ucred)
  | .ids columns transition => do
    let new ← transition.run old.isSuperuser (old.ids columns)
    .ok (new.map fun ids => old.withIds ids columns)
  | .groups size list =>
    if old.isSuperuser = false then .error .EPERM
    else if size > ngroupsMax then .error .EINVAL
    else list.map fun groups => some { old with groups := groups }

/-- The credentials of a process, and the calls of its threads with what they have read. -/
structure CredSystem where
  cred : Ucred
  calls : Nat → Option (CredCall × Ucred)

inductive CredOp
  | read (t : Nat) (call : CredCall)
  | store (t : Nat)

namespace CredSystem

def step (s : CredSystem) : CredOp → Except Unit CredSystem
  | .read t call =>
    match s.calls t with
    | some _ => .error ()
    | none => .ok { s with calls := update s.calls t (some (call, s.cred)) }
  | .store t =>
    match s.calls t with
    | none => .error ()
    | some (call, old) =>
      .ok {
        cred := match call.run old with
          | .ok (some new) => new
          | _ => s.cred
        calls := update s.calls t none }

end CredSystem

/-- No identifier is that of the superuser. -/
structure Ids.Dropped (ids : Ids) : Prop where
  real : ids.real ≠ 0
  eff : ids.eff ≠ 0
  saved : ids.saved ≠ 0
  fs : ids.fs ≠ 0

namespace Ids.Dropped

variable {ids new : Ids} (h : ids.Dropped)

include h

theorem setEff {v : Nat} (hv : v ≠ 0) : (ids.setEff v).Dropped := ⟨h.real, hv, h.saved, hv⟩

theorem edit {r e : Nat} (hr : r ≠ noChange → r ≠ 0) (he : e ≠ noChange → e ≠ 0) :
    (ids.edit r e).Dropped := by
  unfold Ids.edit
  split_ifs with hreal heff heff
  · exact ⟨hr hreal, he heff, h.saved, he heff⟩
  · exact { h with real := hr hreal }
  · exact h.setEff (he heff)
  · exact h

/-- Without privilege every identifier comes from one that the process has. -/
theorem run {transition : Transition} (hrun : transition.run false ids = .ok (some new)) :
    new.Dropped := by
  have ⟨hreal, heff, hsaved, hfs⟩ := h
  cases transition <;> simp only [Transition.run, Bool.false_eq_true, if_false, false_or] at hrun
  case single v =>
    split at hrun <;> cases hrun
    exact h.setEff (by omega)
  case re r e =>
    split at hrun
    · cases hrun
    split at hrun
    · cases hrun
    have hnew := h.edit (r := r) (e := e) (by omega) (by omega)
    split at hrun <;> cases hrun
    · exact { hnew with saved := hnew.eff }
    · exact hnew
  case res r e s =>
    split at hrun <;> cases hrun
    next hallowed =>
      simp only [not_or] at hallowed
      have hnew := h.edit (r := r) (e := e) (by omega) (by omega)
      have hs : s ≠ noChange → s ≠ 0 := by omega
      split_ifs with hset
      · exact { hnew with saved := hs hset }
      · exact hnew
  case fs v =>
    split at hrun <;> cases hrun
    have hv : v ≠ 0 := by omega
    exact { h with fs := hv }

end Ids.Dropped

namespace CredSystem

variable {s s' start : CredSystem}

theorem dropped_run {old new : Ucred} (h : old.uid.Dropped) {call : CredCall}
    (hrun : call.run old = .ok (some new)) : new.uid.Dropped := by
  have hroot : old.isSuperuser = false := beq_false_of_ne h.eff
  cases call with
  | ids columns transition =>
    obtain ⟨ids, hids, hnew⟩ := ok_of_bind hrun
    rw [hroot] at hids
    cases ids <;> cases hnew
    cases columns with
    | uid => exact h.run hids
    | gid => exact h
  | groups size list => simp [CredCall.run, hroot] at hrun

/-- Neither the credentials nor those that the calls under way have read are the superuser's. -/
structure Dropped (s : CredSystem) : Prop where
  cred : s.cred.uid.Dropped
  calls : ∀ t read, s.calls t = some read → read.2.uid.Dropped

/-- Neither the credentials nor what a call has read of them has a zero user id. -/
theorem Dropped.step {op : CredOp} (h : s.Dropped) (hstep : s.step op = .ok s') : s'.Dropped := by
  cases op with
  | read t call =>
    simp only [CredSystem.step] at hstep
    split at hstep <;> cases hstep
    refine ⟨h.cred, ?_⟩
    intro u read hu
    rcases update_eq_cases hu with ⟨-, hnew⟩ | ⟨-, hold⟩
    · cases hnew
      exact h.cred
    · exact h.calls u read hold
  | store t =>
    simp only [CredSystem.step] at hstep
    split at hstep <;> cases hstep
    next call old hcall =>
      constructor
      · split
        next new hrun => exact dropped_run (h.calls t _ hcall) hrun
        next => exact h.cred
      · intro u read hu
        rcases update_eq_cases hu with ⟨-, hnew⟩ | ⟨-, hold⟩
        · cases hnew
        · exact h.calls u read hold

/-- A process that has given up the superuser's identifiers never has one again, unless a call
under way had read the credentials before. -/
theorem dropped_of_visits (h : Visits step (fun _ _ => True) start s) (hstart : start.Dropped) :
    s.cred.uid.Dropped :=
  (h.invariant hstart fun _ _ _ hs _ hstep => hs.step hstep).cred

/-- A process whose identifiers are all one. -/
def plain (id : Nat) : CredSystem := ⟨⟨⟨id, id, id, id⟩, ⟨id, id, id, id⟩, []⟩, fun _ => none⟩

/-- The superuser's identifiers are dropped. Two threads then try to get them back at the same
time. -/
theorem dropped_meanwhile :
    let drop : List CredOp :=
      [.read 1 (.ids .uid (.res 1000 1000 1000)), .store 1, .read 0 (.ids .uid (.re 0 noChange))]
    let later : List CredOp := [.read 1 (.ids .uid (.single 0)), .store 0, .store 1]
    ∃ start s, run step (plain 0) drop = .ok start ∧ run step start later = .ok s ∧
      s.cred.uid.Dropped := by
  intro drop later
  have hdropped : (⟨1000, 1000, 1000, 1000⟩ : Ids).Dropped := by constructor <;> decide
  have hstart : ∀ start, run step (plain 0) drop = .ok start → start.Dropped := by
    rintro _ ⟨⟩
    refine ⟨hdropped, fun t read hread => ?_⟩
    rcases update_eq_cases hread with ⟨-, hnew⟩ | ⟨-, hold⟩
    · cases hnew
      exact hdropped
    rcases update_eq_cases hold with ⟨-, hnone⟩ | ⟨hne, hold⟩
    · cases hnone
    · cases (update_of_ne hne ..).symm.trans hold
  obtain ⟨start, hdrop, s, hlater⟩ : ∃ start, run step (plain 0) drop = .ok start ∧
    ∃ s, run step start later = .ok s := ⟨_, rfl, _, rfl⟩
  exact ⟨start, s, hdrop, hlater,
    dropped_of_visits (.of_run .start (fun _ _ _ => trivial) hlater) (hstart start hdrop)⟩

/-- `setgid` reads the superuser's credentials, another thread drops all of them, and `setgid`
stores what it has read. -/
theorem regained_setgid :
    let calls : List CredOp := [.read 0 (.ids .gid (.single 100)),
      .read 1 (.ids .uid (.res 1000 1000 1000)), .store 1]
    (run step (plain 0) calls).map (·.cred.uid) = .ok ⟨1000, 1000, 1000, 1000⟩ ∧
    (run step (plain 0) (calls ++ [.store 0])).map (·.cred.uid) = .ok ⟨0, 0, 0, 0⟩ :=
  ⟨rfl, rfl⟩

end CredSystem

end Petra.Proc
