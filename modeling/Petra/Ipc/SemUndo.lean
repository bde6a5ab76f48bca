import Petra.Base.Run
import Petra.Base.SortedMap
import Petra.Ipc.Perm

/-! # Semaphore sets and their undo records

`semop` changes the values of a set under the lock of the set, and enters what is to be taken
back at the end of the process into a registry of its own, by process, set id and semaphore.
The end of a process takes its records out first, and then applies them one by one.
-/

namespace Petra.Ipc.Sem

open Base Function

def semvmx : Nat := 32767
def semaem : Int := 16384
def semopm : Nat := 32
def semUndo : Nat := 0x1000
def ipcNowait : Nat := 0o4000

structure Semaphore where
  val : Nat
  /-- The process of the last operation. -/
  pid : Nat
  deriving DecidableEq

/-- A set. `nsems` is the length of `sems`. -/
structure SemSet where
  semid : Int
  perm : IpcPerm
  sems : List Semaphore
  destroyed : Bool
  deriving DecidableEq

namespace SemSet

def nsems (set : SemSet) : Nat := set.sems.length

/-- The value of a semaphore of the set. -/
def val (set : SemSet) (num : Nat) : Nat := ((set.sems[num]?).map Semaphore.val).getD 0

def setVal (set : SemSet) (num val pid : Nat) : SemSet :=
  { set with sems := set.sems.set num ⟨val, pid⟩ }

end SemSet

structure SemBuf where
  semNum : Nat
  semOp : Int
  semFlg : Nat
  deriving DecidableEq

def SemBuf.undoes (op : SemBuf) : Bool := op.semFlg &&& semUndo != 0

/-! ## The undo registry -/

/-- A set id and the number of a semaphore. -/
abbrev UndoKey := Int ×ₗ Nat

def undoKey (semid : Int) (num : Nat) : UndoKey := toLex (semid, num)

/-- The records of one process. -/
abbrev Undos := SortedMap UndoKey Int

namespace Undos

def adjustment (u : Undos) (semid : Int) (num : Nat) : Int :=
  (u.get? (undoKey semid num)).getD 0

/-- `record_undo`. -/
def record (u : Undos) (semid : Int) (num : Nat) (semOp : Int) : Undos :=
  let newAdj := max (-semaem) (min (u.adjustment semid num - semOp) semaem)
  if newAdj = 0 then u.erase (undoKey semid num) else u.insert (undoKey semid num) newAdj

/-- `clear_undo_for_sem`, for the records of one process. -/
def clear (u : Undos) (semid : Int) : (num : Option Nat) → Undos
  | some num => u.erase (undoKey semid num)
  | none => u.filter fun key _ => (ofLex key).1 ≠ semid

end Undos

/-! ## Operations on a set -/

/-- Whether all operations can be done now. Each is compared with the values before all of
them. -/
def canExecuteOps (set : SemSet) : List SemBuf → Except Panic (Except Errno Bool)
  | [] => .ok (.ok true)
  | op :: rest =>
    if op.semOp > 0 then
      if set.val op.semNum + op.semOp > semvmx then .ok (.error .ERANGE)
      else canExecuteOps set rest
    else if op.semOp = 0 then
      if set.val op.semNum ≠ 0 then .ok (.ok false) else canExecuteOps set rest
    -- The smallest `i16` has no negation.
    else if op.semOp = -32768 then .error .overflow
    else if set.val op.semNum < -op.semOp then .ok (.ok false)
    else canExecuteOps set rest

/-- One operation on a `u16` value, and its record. -/
def applyOp (pid : Nat) (set : SemSet) (u : Undos) (op : SemBuf) : Except Panic (SemSet × Undos) :=
  let newVal := set.val op.semNum + op.semOp
  if newVal < 0 ∨ newVal > 65535 then .error .overflow
  else
    .ok (set.setVal op.semNum newVal.toNat pid,
      if op.undoes then u.record set.semid op.semNum op.semOp else u)

def applyOps (pid : Nat) (set : SemSet) (u : Undos) : List SemBuf → Except Panic (SemSet × Undos)
  | [] => .ok (set, u)
  | op :: rest => do
    let (set, u) ← applyOp pid set u op
    applyOps pid set u rest

/-- What the operations with `SEM_UNDO` add to a semaphore. -/
def contribution (num : Nat) : List SemBuf → Int
  | [] => 0
  | op :: rest => (if op.undoes ∧ op.semNum = num then op.semOp else 0) + contribution num rest

/-! ## The system -/

/-- What a call asks for. -/
inductive Request
  | semop (ops : List SemBuf)
  | setVal (semnum val : Int)
  /-- `values` is what can be read of the caller's array. -/
  | setAll (values : List Nat)
  | rmid
  deriving DecidableEq

/-- No operations, or too many. -/
def Request.tooLong : Request → Bool
  | .semop ops => ops.isEmpty || ops.length > semopm
  | _ => false

/-- Where a call is. Sets have numbers that they keep; a call holds on to its set. -/
inductive SemCall
  | idle
  | held (pid : Nat) (cred : Ucred) (semid : Int) (set : Nat) (req : Request)
  /-- A `semop` that has passed its checks. It may have found that it has to wait. -/
  | ready (pid set : Nat) (ops : List SemBuf)
  | returned (result : Except Errno Unit)
  deriving DecidableEq

structure SemState where
  registry : Int → Option Nat
  sets : Nat → SemSet
  /-- The number of the next set. -/
  next : Nat
  undo : Nat → Undos
  /-- The processes that have come to the end, until their pid is used again. -/
  exiting : List Nat
  /-- The records that the end of a process has taken out and not looked at. -/
  pending : Nat → List (UndoKey × Int)
  /-- The record that is being applied, with the set found for it. -/
  applying : Nat → Option (UndoKey × Int × Nat)
  calls : Nat → SemCall
  /-- History: what the `SEM_UNDO` operations of a process have added to a semaphore of a set
  since the last `SETVAL` or `SETALL`. -/
  net : (pid set num : Nat) → Int

/-- The sections of the calls. -/
inductive SemOp
  | create (semid : Int) (perm : IpcPerm) (nsems : Nat)
  | look (call pid : Nat) (cred : Ucred) (semid : Int) (req : Request)
  | check (call : Nat)
  | attempt (call : Nat)
  /-- A wait ends with a time-out or a signal. -/
  | cancel (call : Nat) (e : Errno)
  | control (call : Nat)
  | exit (pid : Nat)
  | lookExit (pid : Nat)
  | applyExit (pid : Nat)
  /-- The pid is given to a new process. -/
  | respawn (pid : Nat)

namespace SemState

variable (s : SemState)

def setCall (call : Nat) (c : SemCall) : SemState :=
  { s with calls := update s.calls call c }

/-- What the end of a process has still to apply. -/
def outstanding (pid : Nat) : List (UndoKey × Int) :=
  ((s.applying pid).map fun e => (e.1, e.2.1)).toList ++ s.pending pid

/-- The checks of `semop` under the lock. -/
def checkOps (set : SemSet) (cred : Ucred) (ops : List SemBuf) : Except Errno Unit :=
  if set.destroyed then .error .EIDRM
  else if ops.any fun op => op.semNum ≥ set.nsems then .error .EFBIG
  else if ops.any fun op => op.semOp ≠ 0 then set.perm.checkWritePermission cred
  else set.perm.checkReadPermission cred

/-- The operations of a call are done. -/
def execute (pid set : Nat) (ops : List SemBuf) : Except Panic SemState := do
  let (newSet, u) ← applyOps pid (s.sets set) (s.undo pid) ops
  .ok { s with
    sets := update s.sets set newSet
    undo := update s.undo pid u
    net := fun pid' set' num => s.net pid' set' num +
      if pid' = pid ∧ set' = set then contribution num ops else 0 }

/-- One attempt of `semop`. -/
def attempt (call pid set : Nat) (ops : List SemBuf) : Except Panic SemState :=
  if (s.sets set).destroyed then .ok (s.setCall call (.returned (.error .EIDRM)))
  else
    match canExecuteOps (s.sets set) ops with
    | .error e => .error e
    | .ok (.error e) => .ok (s.setCall call (.returned (.error e)))
    | .ok (.ok true) => (s.execute pid set ops).map fun s => s.setCall call (.returned (.ok ()))
    | .ok (.ok false) =>
      if ops.any fun op => op.semFlg &&& ipcNowait ≠ 0 then
        .ok (s.setCall call (.returned (.error .EAGAIN)))
      else .ok s

def clearUndoForSem (semid : Int) (num : Option Nat) : SemState :=
  { s with undo := fun pid => (s.undo pid).clear semid num }

/-- Forget what was added to a semaphore, or to all of a set. -/
def resetNet (set : Nat) (num : Option Nat) : SemState :=
  { s with net := fun pid set' num' =>
      if set' = set ∧ num.all (num' = ·) then 0 else s.net pid set' num' }

def setSet (set : Nat) (newSet : SemSet) : SemState :=
  { s with sets := update s.sets set newSet }

def semctlSetVal (pid : Nat) (cred : Ucred) (semid : Int) (set : Nat) (semnum val : Int) :
    Except Errno SemState :=
  if val < 0 ∨ val > semvmx then .error .ERANGE
  else if (s.sets set).destroyed then .error .EIDRM
  else
    match (s.sets set).perm.checkWritePermission cred with
    | .error e => .error e
    | .ok () =>
      if semnum < 0 ∨ semnum ≥ (s.sets set).nsems then .error .EINVAL
      else
        let num := semnum.toNat
        .ok (((s.setSet set ((s.sets set).setVal num val.toNat pid)).clearUndoForSem semid
          (some num)).resetNet set (some num))

def semctlSetall (pid : Nat) (cred : Ucred) (semid : Int) (set : Nat) (values : List Nat) :
    Except Errno SemState :=
  if (s.sets set).destroyed then .error .EIDRM
  else
    match (s.sets set).perm.checkWritePermission cred with
    | .error e => .error e
    | .ok () =>
      if values.length < (s.sets set).nsems then .error .EFAULT
      else if (values.take (s.sets set).nsems).any fun val => val > semvmx then .error .ERANGE
      else
        let sems := (values.take (s.sets set).nsems).map fun val => ⟨val, pid⟩
        .ok (((s.setSet set { s.sets set with sems := sems }).clearUndoForSem semid
          none).resetNet set none)

def semctlRmid (cred : Ucred) (semid : Int) (set : Nat) : Except Errno SemState :=
  if (s.sets set).destroyed then .error .EIDRM
  else
    match (s.sets set).perm.checkAdminPermission cred with
    | .error e => .error e
    | .ok () =>
      let s := s.setSet set { s.sets set with destroyed := true }
      let s := { s with registry := update s.registry semid none }
      .ok ((s.clearUndoForSem semid none).resetNet set none)

/-- The section of `semctl`. -/
def control (pid : Nat) (cred : Ucred) (semid : Int) (set : Nat) :
    Request → Option (Except Errno SemState)
  | .semop _ => none
  | .setVal semnum val => some (s.semctlSetVal pid cred semid set semnum val)
  | .setAll values => some (s.semctlSetall pid cred semid set values)
  | .rmid => some (s.semctlRmid cred semid set)

/-- Apply a record to the set that was found for it. -/
def applyRecord (pid : Nat) (key : UndoKey) (adj : Int) (set : Nat) : SemState :=
  let num := (ofLex key).2
  let old := s.sets set
  let s := { s with applying := update s.applying pid none }
  if adj = 0 ∨ old.destroyed ∨ num ≥ old.nsems then s
  else
    { s.setSet set (old.setVal num (max 0 (min (old.val num + adj) semvmx)).toNat pid) with
      net := fun pid' set' num' =>
        if pid' = pid ∧ set' = set ∧ num' = num then 0 else s.net pid' set' num' }

/-- One section of a call, or of the end of a process. A section that cannot be taken now is
not a step, and a panic ends the run. -/
def step : SemOp → Except Unit SemState
  | .create semid perm nsems =>
    if 0 < semid ∧ s.registry semid = none then
      .ok { s with
        registry := update s.registry semid (some s.next)
        sets := update s.sets s.next ⟨semid, perm, List.replicate nsems ⟨0, 0⟩, false⟩
        next := s.next + 1 }
    else .error ()
  | .look call pid cred semid req =>
    match s.calls call with
    | .idle =>
      if req.tooLong then .ok (s.setCall call (.returned (.error .E2BIG)))
      else
        match s.registry semid with
        | none => .ok (s.setCall call (.returned (.error .EINVAL)))
        | some set => .ok (s.setCall call (.held pid cred semid set req))
    | _ => .error ()
  | .check call =>
    match s.calls call with
    | .held pid cred _ set (.semop ops) =>
      match checkOps (s.sets set) cred ops with
      | .error e => .ok (s.setCall call (.returned (.error e)))
      | .ok () => .ok (s.setCall call (.ready pid set ops))
    | _ => .error ()
  | .attempt call =>
    match s.calls call with
    | .ready pid set ops => (s.attempt call pid set ops).mapError fun _ => ()
    | _ => .error ()
  | .cancel call e =>
    match s.calls call with
    | .ready _ _ _ => .ok (s.setCall call (.returned (.error e)))
    | _ => .error ()
  | .control call =>
    match s.calls call with
    | .held pid cred semid set req =>
      match s.control pid cred semid set req with
      | none => .error ()
      | some (.error e) => .ok (s.setCall call (.returned (.error e)))
      | some (.ok s') => .ok (s'.setCall call (.returned (.ok ())))
    | _ => .error ()
  | .exit pid =>
    if pid ∈ s.exiting then .error ()
    else
      .ok { s with
        exiting := pid :: s.exiting
        pending := update s.pending pid (s.undo pid).entries
        undo := update s.undo pid .empty }
  | .lookExit pid =>
    match s.applying pid, s.pending pid with
    | none, (key, adj) :: rest =>
      let s := { s with pending := update s.pending pid rest }
      match s.registry (ofLex key).1 with
      | none => .ok s
      | some set =>
        .ok { s with applying := update s.applying pid (some (key, adj, set)) }
    | _, _ => .error ()
  | .applyExit pid =>
    match s.applying pid with
    | some (key, adj, set) => .ok (s.applyRecord pid key adj set)
    | none => .error ()
  | .respawn pid =>
    if pid ∈ s.exiting ∧ s.outstanding pid = [] then
      .ok { s with exiting := s.exiting.filter (· ≠ pid) }
    else .error ()

def initial : SemState where
  registry := fun _ => none
  sets := fun _ => ⟨0, ⟨0, 0, 0, 0, 0, 0⟩, [], true⟩
  next := 0
  undo := fun _ => .empty
  exiting := []
  pending := fun _ => []
  applying := fun _ => none
  calls := fun _ => .idle
  net := fun _ _ _ => 0

end SemState

end Petra.Ipc.Sem
