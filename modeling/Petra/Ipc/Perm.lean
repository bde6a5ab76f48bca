import Petra.Kernel

/-! # Permissions of System V objects -/

namespace Petra.Ipc

/-- Effective user and group. -/
structure Ucred where
  crUid : Nat
  crGid : Nat
  deriving DecidableEq

def Ucred.isRoot (cred : Ucred) : Bool := cred.crUid = 0

/-- The key of objects that nobody can look up. -/
def ipcPrivate : Int := 0

def ipcModeMask : Nat := 0o777

def ipcR : Nat := 0o4
def ipcW : Nat := 0o2

structure IpcPerm where
  key : Int
  uid : Nat
  gid : Nat
  cuid : Nat
  cgid : Nat
  mode : Nat
  deriving DecidableEq

namespace IpcPerm

def new (key : Int) (cred : Ucred) (mode : Nat) : IpcPerm where
  key := key
  uid := cred.crUid
  gid := cred.crGid
  cuid := cred.crUid
  cgid := cred.crGid
  mode := mode &&& ipcModeMask

/-- The three bits that count for `cred`. -/
def granted (perm : IpcPerm) (cred : Ucred) : Nat :=
  if cred.crUid = perm.uid ∨ cred.crUid = perm.cuid then (perm.mode >>> 6) &&& 0o7
  else if cred.crGid = perm.gid ∨ cred.crGid = perm.cgid then (perm.mode >>> 3) &&& 0o7
  else perm.mode &&& 0o7

def checkPerm (perm : IpcPerm) (cred : Ucred) (reqMode : Nat) : Bool :=
  cred.isRoot || perm.granted cred &&& reqMode == reqMode

def checkReadPermission (perm : IpcPerm) (cred : Ucred) : Except Errno Unit :=
  if perm.checkPerm cred ipcR then .ok () else .error .EACCES

def checkWritePermission (perm : IpcPerm) (cred : Ucred) : Except Errno Unit :=
  if perm.checkPerm cred ipcW then .ok () else .error .EACCES

/-- Root, the owner and the creator may remove an object and change its owner. -/
def checkAdminPermission (perm : IpcPerm) (cred : Ucred) : Except Errno Unit :=
  if cred.isRoot ∨ cred.crUid = perm.uid ∨ cred.crUid = perm.cuid then .ok ()
  else .error .EPERM

end IpcPerm

end Petra.Ipc
