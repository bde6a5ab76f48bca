import Petra.Base.Run
import Petra.Base.SortedMap
import Petra.Ipc.Perm
import Petra.Vm.Abi

/-! # Shared memory attachments

A segment counts its attachments. Each process has a table of its own attachments by address.
`shmat` enters a record and raises the count, `shmdt` and the end of a process drop records and
lower the count, and whoever finds a marked segment without attachments releases it.
-/

namespace Petra.Ipc.Shm

open Base Vm Function

def shmRdonly : Nat := 0o10000
def shmRnd : Nat := 0o20000
def shmRemap : Nat := 0o40000
def shmmin : Nat := 1
def shmmax : Nat := 1024 * 1024 * 1024
def shmlba : Nat := 4096

structure ShmSegment where
  perm : IpcPerm
  size : Nat
  nattch : Nat
  markedForDeletion : Bool
  deriving DecidableEq

structure ShmAttachment where
  shmid : Int
  addr : Nat
  size : Nat
  readonly : Bool
  deriving DecidableEq

/-- Whether a page lies in a range of whole pages. -/
def covers (addr size page : Nat) : Bool :=
  addr / pageSize ≤ page && page < addr / pageSize + size / pageSize

def ShmAttachment.covers (att : ShmAttachment) (page : Nat) : Bool :=
  Shm.covers att.addr att.size page

structure ShmState where
  registry : Int → Option ShmSegment
  procs : Finset Nat
  attachments : Nat → SortedMap Nat ShmAttachment
  /-- The address space of each process. -/
  space : Nat → Nat
  nextSpace : Nat
  /-- The pages of each address space that are mapped. -/
  mapped : Nat → Nat → Bool
  /-- History: the segments that have left the registry, as they were then. -/
  released : List ShmSegment
  /-- History: some count was lowered below 0. -/
  underflow : Bool

/-- How `shmat` asks for its address. -/
inductive MapMode
  | anywhere
  | noReplace
  | replace
  deriving DecidableEq

/-- The calls. `chosen` is the address that `mmap_backed` picks when it is free to, and
`refused` the error of a refusal for lack of memory. -/
inductive ShmOp
  | create (shmid : Int) (size : Nat) (perm : IpcPerm)
  | shmat (pid : Nat) (shmid : Int) (shmaddr shmflg : Nat) (cred : Ucred) (chosen : Nat)
      (refused : Option Errno)
  | shmdt (pid shmaddr : Nat)
  | rmid (shmid : Int) (cred : Ucred)
  /-- With `share` the child runs in the address space of its parent, as for `CLONE_VM`. -/
  | fork (parent child : Nat) (share : Bool)
  /-- The new program has the pages of `image`. -/
  | exec (pid : Nat) (image : Nat → Bool)
  | exit (pid : Nat)

namespace ShmState

variable (s : ShmState)

def free (pid addr size : Nat) : Bool :=
  (List.range (size / pageSize)).all fun i => !s.mapped (s.space pid) (addr / pageSize + i)

/-- Where `mmap_backed` maps a segment, and `none` where it would not choose the address. -/
def mmapBacked (pid target size : Nat) (mode : MapMode) (chosen : Nat)
    (refused : Option Errno) : Option (Except Errno Nat) :=
  match refused with
  | some e => some (.error e)
  | none =>
    match mode with
    | .replace =>
      if target + size ≤ vmarCapAddr then some (.ok target) else some (.error .ENOMEM)
    | .noReplace =>
      if target + size > vmarCapAddr then some (.error .ENOMEM)
      else if s.free pid target size then some (.ok target)
      else some (.error .EEXIST)
    | .anywhere =>
      if chosen % pageSize = 0 ∧ s.free pid chosen size then some (.ok chosen) else none

/-- The address and the mode that `shmat` derives from its arguments. -/
def attachAddr (shmaddr shmflg : Nat) : Except Errno (Nat × MapMode) :=
  let mode : MapMode := if shmflg &&& shmRemap ≠ 0 then .replace else .noReplace
  let target := if shmflg &&& shmRnd ≠ 0 then shmaddr - shmaddr % shmlba else shmaddr
  if shmaddr = 0 then .ok (0, .anywhere)
  else if target % pageSize ≠ 0 then .error .EINVAL
  else if target < vmarLowestAddr ∨ target ≥ vmarCapAddr then .error .EINVAL
  else .ok (target, mode)

def checkAttach (seg : ShmSegment) (shmflg : Nat) (cred : Ucred) : Except Errno Unit := do
  seg.perm.checkReadPermission cred
  if shmflg &&& shmRdonly = 0 then seg.perm.checkWritePermission cred

def setSegment (shmid : Int) (seg : ShmSegment) : ShmState :=
  { s with registry := update s.registry shmid (some seg) }

def release (shmid : Int) (seg : ShmSegment) : ShmState :=
  { s with registry := update s.registry shmid none, released := seg :: s.released }

/-- `nattch.fetch_add(1)`. There are never so many records that it wraps. -/
def countAttach (shmid : Int) : ShmState :=
  match s.registry shmid with
  | none => s
  | some seg => s.setSegment shmid { seg with nattch := seg.nattch + 1 }

/-- `nattch.fetch_sub(1)`, and the release of a marked segment that has lost its last
attachment. -/
def countDetach (shmid : Int) : ShmState :=
  match s.registry shmid with
  | none => s
  | some seg =>
    let s := { s with underflow := s.underflow || seg.nattch = 0 }
    let after :=
      { seg with nattch := if seg.nattch = 0 then usizeLimit - 1 else seg.nattch - 1 }
    if seg.nattch ≤ 1 ∧ seg.markedForDeletion then s.release shmid after
    else s.setSegment shmid after

def setAttachments (pid : Nat) (m : SortedMap Nat ShmAttachment) : ShmState :=
  { s with attachments := update s.attachments pid m }

def mapPages (pid addr size : Nat) : ShmState :=
  { s with mapped := update s.mapped (s.space pid) fun page =>
      covers addr size page || s.mapped (s.space pid) page }

def unmapPages (pid addr size : Nat) : ShmState :=
  { s with mapped := update s.mapped (s.space pid) fun page =>
      !covers addr size page && s.mapped (s.space pid) page }

/-- The record is entered, and the count raised. -/
def attach (pid : Nat) (att : ShmAttachment) : ShmState :=
  ((s.mapPages pid att.addr att.size).setAttachments pid
    ((s.attachments pid).insert att.addr att)).countAttach att.shmid

def shmAt (pid : Nat) (shmid : Int) (shmaddr shmflg : Nat) (cred : Ucred)
    (chosen : Nat) (refused : Option Errno) : Option ShmState :=
  match s.registry shmid with
  | none => some s
  | some seg =>
    match checkAttach seg shmflg cred, attachAddr shmaddr shmflg with
    | .ok (), .ok (target, mode) =>
      match s.mmapBacked pid target seg.size mode chosen refused with
      | none => none
      | some (.error _) => some s
      | some (.ok addr) =>
        some (s.attach pid ⟨shmid, addr, seg.size, shmflg &&& shmRdonly ≠ 0⟩)
    | _, _ => some s

def shmDt (pid shmaddr : Nat) : ShmState :=
  if shmaddr % pageSize ≠ 0 then s
  else
    match (s.attachments pid).get? shmaddr with
    | none => s
    | some att =>
      ((s.setAttachments pid ((s.attachments pid).erase shmaddr)).unmapPages pid att.addr
        att.size).countDetach att.shmid

def shmRmid (shmid : Int) (cred : Ucred) : ShmState :=
  match s.registry shmid with
  | none => s
  | some seg =>
    match seg.perm.checkAdminPermission cred with
    | .error _ => s
    | .ok () =>
      let seg := { seg with markedForDeletion := true }
      if seg.nattch = 0 then s.release shmid seg else s.setSegment shmid seg

def onProcFork (parent child : Nat) : ShmState :=
  ((s.attachments parent).values.foldl (fun s att => s.countAttach att.shmid) s).setAttachments
    child (s.attachments parent)

def onProcExit (pid : Nat) : ShmState :=
  (s.attachments pid).values.foldl (fun s att => s.countDetach att.shmid)
    (s.setAttachments pid .empty)

/-- A process gets an address space of its own. -/
def newSpace (pid : Nat) (pages : Nat → Bool) : ShmState :=
  { s with
    space := update s.space pid s.nextSpace
    nextSpace := s.nextSpace + 1
    mapped := update s.mapped s.nextSpace pages }

/-- The address space of a child: that of its parent, or a copy. -/
def forkSpace (parent child : Nat) (share : Bool) : ShmState :=
  if share then { s with space := update s.space child (s.space parent) }
  else s.newSpace child (s.mapped (s.space parent))

/-- One call. A call that fails changes nothing. -/
def step : ShmOp → Except Unit ShmState
  | .create shmid size perm =>
    if 0 < shmid ∧ s.registry shmid = none ∧ shmmin ≤ size ∧ size ≤ shmmax then
      let size := (size + (pageSize - 1)) / pageSize * pageSize
      .ok (s.setSegment shmid ⟨perm, size, 0, false⟩)
    else .error ()
  | .shmat pid shmid shmaddr shmflg cred chosen refused =>
    if pid ∈ s.procs then
      match s.shmAt pid shmid shmaddr shmflg cred chosen refused with
      | some s => .ok s
      | none => .error ()
    else .error ()
  | .shmdt pid shmaddr => if pid ∈ s.procs then .ok (s.shmDt pid shmaddr) else .error ()
  | .rmid shmid cred => .ok (s.shmRmid shmid cred)
  | .fork parent child share =>
    if parent ∈ s.procs ∧ child ∉ s.procs then
      -- The records are copied, whether the address space is or not.
      .ok { (s.forkSpace parent child share).onProcFork parent child with
        procs := insert child s.procs }
    else .error ()
  | .exec pid image =>
    if pid ∈ s.procs then
      -- The records are cleared, and the counts stay.
      .ok ((s.setAttachments pid .empty).newSpace pid image)
    else .error ()
  | .exit pid =>
    if pid ∈ s.procs then .ok { s.onProcExit pid with procs := s.procs.erase pid }
    else .error ()

/-- One process, without attachments. -/
def initial : ShmState where
  registry := fun _ => none
  procs := {1}
  attachments := fun _ => .empty
  space := fun _ => 0
  nextSpace := 1
  mapped := fun _ _ => false
  released := []
  underflow := false

/-- The records of all processes that name a segment. -/
def records (shmid : Int) : Nat :=
  ∑ pid ∈ s.procs, (s.attachments pid).values.countP (·.shmid = shmid)

end ShmState

end Petra.Ipc.Shm
