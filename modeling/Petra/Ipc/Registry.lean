import Petra.Base.Run
import Petra.Base.SortedMap
import Petra.Ipc.Perm
import Petra.Vm.Abi

/-! # The registries of System V objects

Each family of objects has a table of its objects by id and a table of ids by key, under two
locks. A `get` call looks its key up in one section and creates the object in a later one. A
removal takes the key out of the key table, whatever object it names by then.
-/

namespace Petra.Ipc

open Base Vm Function

/-- Semaphore sets, message queues and shared memory segments. -/
inductive Family
  | sem
  | msg
  | shm
  deriving DecidableEq

def semmsl : Nat := 32000
def semmni : Nat := 32000
def msgmni : Nat := 32000
def shmmin : Nat := 1
def shmmax : Nat := 1024 * 1024 * 1024
def shmmni : Nat := 4096

def ipcCreat : Nat := 0o1000
def ipcExcl : Nat := 0o2000

/-- The most objects of a family. -/
def Family.limit : Family → Nat
  | .sem => semmni
  | .msg => msgmni
  | .shm => shmmni

/-- An object of one of the families. A set and a segment keep their key next to the
permissions too; no copy of it ever changes. -/
structure IpcObject where
  perm : IpcPerm
  /-- `nsems` of a set, `size` of a segment. -/
  extent : Nat
  /-- `destroyed`, `is_deleted` or `marked_for_deletion`. -/
  removed : Bool
  nattch : Nat
  deriving DecidableEq

def IpcObject.key (o : IpcObject) : Int := o.perm.key

/-- The arguments of a `get` call. `extent` is `nsems` or `size`. -/
structure GetArgs where
  key : Int
  extent : Int
  flg : Nat
  cred : Ucred
  deriving DecidableEq

namespace GetArgs

def creates (a : GetArgs) : Bool := a.flg &&& ipcCreat != 0

/-- `IPC_CREAT` and `IPC_EXCL`. -/
def exclusive (a : GetArgs) : Bool := a.creates && a.flg &&& ipcExcl != 0

end GetArgs

/-- What a `get` call does after it has looked its key up. -/
inductive GetNext
  | fail (e : Errno)
  | existing (id : Int)
  | create
  deriving DecidableEq

/-- `sem_get` up to its second section. -/
def semGet (a : GetArgs) (found : Option Int) : GetNext :=
  if a.extent < 0 ∨ a.extent > semmsl then .fail .EINVAL
  else if a.key = ipcPrivate then
    if a.extent = 0 then .fail .EINVAL else .create
  else
    match found with
    | some semid => if a.exclusive then .fail .EEXIST else .existing semid
    | none =>
      if !a.creates then .fail .ENOENT
      else if a.extent = 0 then .fail .EINVAL
      else .create

/-- `msg_get` up to its second section. A private key is looked up as well, and never found. -/
def msgGet (a : GetArgs) (found : Option Int) : GetNext :=
  match found with
  | some msqid => if a.exclusive then .fail .EEXIST else .existing msqid
  | none => if !a.creates then .fail .ENOENT else .create

/-- `shm_get` up to its second section. -/
def shmGet (a : GetArgs) (found : Option Int) : GetNext :=
  if a.key = ipcPrivate then
    if a.extent < shmmin ∨ a.extent > shmmax then .fail .EINVAL else .create
  else
    match found with
    | some shmid => if a.exclusive then .fail .EEXIST else .existing shmid
    | none =>
      if !a.creates then .fail .ENOENT
      else if a.extent < shmmin ∨ a.extent > shmmax then .fail .EINVAL
      else .create

def Family.get : Family → GetArgs → Option Int → GetNext
  | .sem => semGet
  | .msg => msgGet
  | .shm => shmGet

/-- What a `get` call checks on an object that exists. -/
def Family.checkExisting (F : Family) (o : IpcObject) (a : GetArgs) : Except Errno Unit :=
  match F with
  | .sem => do
    if o.removed then .error .EIDRM
    o.perm.checkReadPermission a.cred
    if a.extent > 0 ∧ a.extent > o.extent then .error .EINVAL
  | .msg => do
    if o.removed then .error .EIDRM
    o.perm.checkReadPermission a.cred
  | .shm => do
    if a.extent > o.extent then .error .EINVAL
    if !o.perm.checkPerm a.cred (a.flg &&& ipcModeMask) then .error .EACCES

/-- The object a `get` call makes. -/
def Family.make (F : Family) (a : GetArgs) : IpcObject where
  perm := .new a.key a.cred a.flg
  extent :=
    match F with
    | .shm => (a.extent.toNat + (pageSize - 1)) / pageSize * pageSize
    | _ => a.extent.toNat
  removed := false
  nattch := 0

/-- Where a call is. Object numbers are what a call that has looked an object up holds on to;
an object keeps its number when its id is taken away or given to another object. -/
inductive IpcCall
  | idle
  | found (a : GetArgs) (id : Int)
  | held (a : GetArgs) (id : Int) (obj : Nat)
  | creating (a : GetArgs)
  /-- `IPC_RMID`, with its object. -/
  | removing (cred : Ucred) (id : Int) (obj : Nat)
  /-- `IPC_RMID` of a segment, between the mark and the look at `nattch`. -/
  | marked (id : Int) (obj : Nat)
  | attaching (obj : Nat)
  | detaching (id : Int) (obj : Nat)
  /-- A segment was seen marked and without attachments. -/
  | reaping (id : Int) (obj : Nat)
  | returned (result : Except Errno Int)
  deriving DecidableEq

/-- The registry of one family, its objects and the calls. -/
structure IpcState where
  objects : SortedMap Int Nat
  keys : Int → Option Int
  heap : Nat → IpcObject
  /-- The number of the next object. -/
  next : Nat
  calls : Nat → IpcCall
  /-- History: how many calls with `IPC_CREAT` and `IPC_EXCL` have succeeded for a key since
  an object with this key was last removed. -/
  exclusives : Int → Nat

/-- The sections of the calls. -/
inductive IpcOp
  | look (call : Nat) (a : GetArgs)
  | get (call : Nat)
  | check (call : Nat)
  /-- `id` is what `alloc_ipc_id` picks. `pages` says whether a segment gets its pages. -/
  | create (call : Nat) (id : Int) (pages : Bool)
  | lookRemoval (call : Nat) (id : Int) (cred : Ucred)
  | remove (call : Nat)
  | loadNattch (call : Nat)
  | lookAttach (call : Nat) (id : Int)
  | lookDetach (call : Nat) (id : Int)
  | countAttach (call : Nat)
  | countDetach (call : Nat)
  | reap (call : Nat)
  | forkAttach (id : Int)
  | exitDetach (id : Int)

namespace IpcState

variable (s : IpcState)

def setCall (call : Nat) (c : IpcCall) : IpcState :=
  { s with calls := update s.calls call c }

def setObject (obj : Nat) (o : IpcObject) : IpcState :=
  { s with heap := update s.heap obj o }

def bindKey (key id : Int) : IpcState :=
  if key = ipcPrivate then s else { s with keys := update s.keys key (some id) }

def unbindKey (key : Int) : IpcState :=
  if key = ipcPrivate then s
  else
    { s with
      keys := update s.keys key none
      exclusives := update s.exclusives key 0 }

/-- A new object under an id and, unless its key is private, under its key. -/
def insertObject (id : Int) (o : IpcObject) : IpcState :=
  bindKey
    { s with
      objects := s.objects.insert id s.next
      heap := update s.heap s.next o
      next := s.next + 1 }
    o.key id

/-- Take the id and the key out of the tables. -/
def removeObject (id key : Int) : IpcState :=
  unbindKey { s with objects := s.objects.erase id } key

/-- Count a creation that was to be exclusive. -/
def countExclusive (a : GetArgs) : IpcState :=
  if a.exclusive then
    { s with exclusives := update s.exclusives a.key (s.exclusives a.key + 1) }
  else s

/-- A `get` call returns the object it has found, if it may. -/
def checked (F : Family) (s : IpcState) (call : Nat) (a : GetArgs) (id : Int) (obj : Nat) :
    IpcState :=
  s.setCall call (.returned ((F.checkExisting (s.heap obj) a).map fun _ => id))

/-- The section of a `get` call that creates its object. -/
def create (F : Family) (s : IpcState) (call : Nat) (a : GetArgs) (id : Int) (pages : Bool) :
    IpcState :=
  if s.objects.length ≥ F.limit then s.setCall call (.returned (.error .ENOSPC))
  else if F = .shm ∧ !pages then s.setCall call (.returned (.error .ENOMEM))
  else ((s.insertObject id (F.make a)).countExclusive a).setCall call (.returned (.ok id))

/-- The section of `IPC_RMID` that removes a set or a queue, or marks a segment. The lock of a
segment's permissions, which `IPC_RMID` keeps to its end, is left out. -/
def remove (F : Family) (s : IpcState) (call : Nat) (cred : Ucred) (id : Int) (obj : Nat) :
    IpcState :=
  let o := s.heap obj
  if F ≠ .shm ∧ o.removed then s.setCall call (.returned (.error .EIDRM))
  else
    match o.perm.checkAdminPermission cred with
    | .error e => s.setCall call (.returned (.error e))
    | .ok () =>
      let s := s.setObject obj { o with removed := true }
      if F = .shm then s.setCall call (.marked id obj)
      else (s.removeObject id o.key).setCall call (.returned (.ok 0))

/-- `nattch.fetch_sub(1)`. -/
def decrement (obj : Nat) : IpcState :=
  s.setObject obj { s.heap obj with
    nattch := ((s.heap obj).nattch + (usizeLimit - 1)) % usizeLimit }

def increment (obj : Nat) : IpcState :=
  s.setObject obj { s.heap obj with nattch := ((s.heap obj).nattch + 1) % usizeLimit }

/-- The attachment that was dropped was the last one, and the segment is marked. -/
def lastDetached (obj : Nat) : Bool :=
  (s.heap obj).nattch ≤ 1 && (s.heap obj).removed

/-- One section of a call. A section that its call cannot take now is not a step. -/
def step (F : Family) (s : IpcState) : IpcOp → Except Unit IpcState
  | .look call a =>
    match s.calls call with
    | .idle =>
      match F.get a (s.keys a.key) with
      | .fail e => .ok (s.setCall call (.returned (.error e)))
      | .existing id => .ok (s.setCall call (.found a id))
      | .create => .ok (s.setCall call (.creating a))
    | _ => .error ()
  | .get call =>
    match s.calls call with
    | .found a id =>
      match s.objects.get? id with
      | none => .ok (s.setCall call (.returned (.error .ENOENT)))
      | some obj =>
        -- `shm_get` keeps the lock of the registry for its checks.
        if F = .shm then .ok (s.checked F call a id obj)
        else .ok (s.setCall call (.held a id obj))
    | _ => .error ()
  | .check call =>
    match s.calls call with
    | .held a id obj => .ok (s.checked F call a id obj)
    | _ => .error ()
  | .create call id pages =>
    match s.calls call with
    | .creating a =>
      -- `alloc_ipc_id` gives a positive id that the registry does not have.
      if 0 < id ∧ s.objects.get? id = none then .ok (s.create F call a id pages)
      else .error ()
    | _ => .error ()
  | .lookRemoval call id cred =>
    match s.calls call with
    | .idle =>
      match s.objects.get? id with
      | none => .ok (s.setCall call (.returned (.error .EINVAL)))
      | some obj => .ok (s.setCall call (.removing cred id obj))
    | _ => .error ()
  | .remove call =>
    match s.calls call with
    | .removing cred id obj => .ok (s.remove F call cred id obj)
    | _ => .error ()
  | .loadNattch call =>
    match F, s.calls call with
    | .shm, .marked id obj =>
      if (s.heap obj).nattch = 0 then .ok (s.setCall call (.reaping id obj))
      else .ok (s.setCall call (.returned (.ok 0)))
    | _, _ => .error ()
  | .lookAttach call id =>
    match F, s.calls call with
    | .shm, .idle =>
      match s.objects.get? id with
      | none => .ok (s.setCall call (.returned (.error .EINVAL)))
      | some obj => .ok (s.setCall call (.attaching obj))
    | _, _ => .error ()
  | .countAttach call =>
    match F, s.calls call with
    | .shm, .attaching obj => .ok ((s.increment obj).setCall call (.returned (.ok 0)))
    | _, _ => .error ()
  | .lookDetach call id =>
    match F, s.calls call with
    | .shm, .idle =>
      match s.objects.get? id with
      | none => .ok (s.setCall call (.returned (.ok 0)))
      | some obj => .ok (s.setCall call (.detaching id obj))
    | _, _ => .error ()
  | .countDetach call =>
    match F, s.calls call with
    | .shm, .detaching id obj =>
      .ok ((s.decrement obj).setCall call
        (if s.lastDetached obj then .reaping id obj else .returned (.ok 0)))
    | _, _ => .error ()
  | .reap call =>
    match F, s.calls call with
    | .shm, .reaping id obj =>
      .ok ((s.removeObject id (s.heap obj).key).setCall call (.returned (.ok 0)))
    | _, _ => .error ()
  | .forkAttach id =>
    match F, s.objects.get? id with
    | .shm, some obj => .ok (s.increment obj)
    | _, _ => .error ()
  | .exitDetach id =>
    match F, s.objects.get? id with
    | .shm, some obj =>
      -- `on_proc_exit` holds the lock of the registry for all of this.
      if s.lastDetached obj then .ok ((s.decrement obj).removeObject id (s.heap obj).key)
      else .ok (s.decrement obj)
    | _, _ => .error ()

def initial : IpcState where
  objects := .empty
  keys := fun _ => none
  heap := fun _ => ⟨⟨0, 0, 0, 0, 0, 0⟩, 0, false, 0⟩
  next := 0
  calls := fun _ => .idle
  exclusives := fun _ => 0

end IpcState

end Petra.Ipc
