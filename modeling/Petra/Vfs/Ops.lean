import Petra.Vfs.Lookup

/-! # Operations on the name space

An operation finds the directory it works in, lets the driver change the directory, and then
patches the cached entry of the name by hand. What the caller may do and whether the driver
fails are left open.
-/

namespace Petra.Vfs

open Base Function

/-! ### What the drivers do

As in ext4, only an empty directory can be removed or replaced. The drivers in memory do not ask. -/

/-- What the drivers differ in when two names of one inode meet in a rename. -/
structure Driver where
  /-- Two dentries of one inode share its object. Two that ext4 looked up do not. -/
  sameArc : Bool
  /-- A rename onto a name of the same inode leaves both names, as ext4 does. -/
  keepsLinks : Bool

/-- One object stands for each inode, and a rename moves every name. -/
def Driver.single : Driver := ⟨true, false⟩

namespace Nodes

def setEntry (n : Nodes) (dir : Nat) (name : Name) (ino : Nat) : Nodes :=
  { n with
    entries := update n.entries dir
      ((name, ino) :: (n.entries dir).filter fun e => e.1 ≠ name) }

def removeEntry (n : Nodes) (dir : Nat) (name : Name) : Nodes :=
  { n with
    entries := update n.entries dir
      ((n.entries dir).filter fun e => e.1 ≠ name) }

/-- A new inode of the given kind, not yet in a directory. -/
def alloc (n : Nodes) (kind : Kind) : Nodes :=
  { n with
    kind := update n.kind n.nextIno kind
    entries := update n.entries n.nextIno []
    nextIno := n.nextIno + 1 }

/-- `create`, `mkdir`, `mknod` and `symlink`. -/
def create (n : Nodes) (dir : Nat) (name : Name) (kind : Kind) : Except Errno (Nat × Nodes) :=
  if n.isDir dir then .ok (n.nextIno, (n.alloc kind).setEntry dir name n.nextIno)
  else .error .EPERM

def unlink (n : Nodes) (dir : Nat) (name : Name) : Except Errno (Unit × Nodes) :=
  if n.isDir dir then
    match n.entry dir name with
    | none => .error .ENOENT
    | some ino => if n.isDir ino then .error .EISDIR else .ok ((), n.removeEntry dir name)
  else .error .EPERM

def rmdir (n : Nodes) (dir : Nat) (name : Name) : Except Errno (Unit × Nodes) :=
  if n.isDir dir then
    match n.entry dir name with
    | none => .error .ENOENT
    | some ino =>
      if !n.isDir ino then .error .ENOTDIR
      else if n.entries ino ≠ [] then .error .ENOTEMPTY
      else .ok ((), n.removeEntry dir name)
  else .error .EPERM

def rename (n : Nodes) (keepsLinks : Bool) (oldDir : Nat) (oldName : Name) (newDir : Nat)
    (newName : Name) : Except Errno (Unit × Nodes) :=
  if n.isDir oldDir && n.isDir newDir then
    match n.entry oldDir oldName with
    | none => .error .ENOENT
    | some ino =>
      if keepsLinks ∧ n.entry newDir newName = some ino then .ok ((), n)
      else if (n.entry newDir newName).any fun dst => n.isDir dst && n.entries dst ≠ [] then
        .error .ENOTEMPTY
      else .ok ((), (n.removeEntry oldDir oldName).setEntry newDir newName ino)
  else .error .EPERM

def link (n : Nodes) (dir : Nat) (name : Name) (ino : Nat) : Except Errno (Unit × Nodes) :=
  if n.isDir dir then .ok ((), n.setEntry dir name ino) else .error .EPERM

end Nodes

/-! ### Splitting a path -/

def nameMax : Nat := 255

def trimSlashes (path : List Char) : List Char := (path.reverse.dropWhile fun c => c = '/').reverse

/-- The directory part of a path and its last component. -/
def splitParent (path : List Char) : Except Errno (List Char × Name) :=
  let trimmed := trimSlashes path
  if trimmed = [] then .error (if path = [] then .ENOENT else .EBUSY)
  else
    let name := (trimmed.reverse.takeWhile fun c => c ≠ '/').reverse
    let before := trimmed.take (trimmed.length - name.length)
    let dir := if before.length ≤ 1 then before else before.dropLast
    if name = dot ∨ name = dotDot then .error .EINVAL
    else if nameMax < (name.map Char.utf8Size).sum then .error .ENAMETOOLONG
    else .ok (dir, name)

/-! ### The operations -/

/-- The answers of `check_permission` on a directory that is to be changed, and of
`check_sticky`. -/
structure Access where
  modify : Nat → Bool
  sticky : Nat → Nat → Bool

/-- A caller who may do anything. -/
def Access.full : Access := ⟨fun _ => true, fun _ _ => true⟩

/-- The type bits of a mode. -/
inductive NodeType
  | file
  | fifo
  | socket
  | char
  | block
  | other
  deriving DecidableEq

def NodeType.isDevice (type : NodeType) : Bool := type = .char || type = .block

/-- A system call, with the root directory of its caller. -/
abbrev Op (α : Type) := Call Panic Errno Dcache α

namespace Dcache

def lookupAt (root start : PathNode) (path : List Char) (flags : LookupFlags) : Op PathNode :=
  fun v => .ok (v.lookup root start path flags)

def inodeAt (d : Nat) : Op Nat := do
  let v ← Call.get
  match v.getInode d with
  | some ino => pure ino
  | none => Call.fail .ENOENT

/-- Let the driver work, unless it fails. -/
def drive {α : Type} (fault : Option Errno) (work : Nodes → Except Errno (α × Nodes)) : Op α := do
  let v ← Call.get
  match fault with
  | some e => Call.fail e
  | none =>
    match work v.nodes with
    | .error e => Call.fail e
    | .ok (a, nodes) => do
      Call.set { v with nodes := nodes }
      pure a

def directoryAt (root start : PathNode) (dir : List Char) : Op PathNode :=
  if dir = [] then pure start else lookupAt root start dir ⟨false, true⟩

def parentForModifyAt (root start : PathNode) (path : List Char) (access : Access) :
    Op (PathNode × Nat × Name) := do
  let split ← Call.orFail (splitParent path)
  let parent ← directoryAt root start split.1
  let ino ← inodeAt parent.dentry
  Call.check (access.modify ino) .EACCES
  pure (parent, ino, split.2)

def existsIn (parent : PathNode) (ino : Nat) (name : Name) : Op Bool := do
  let v ← Call.get
  if (v.lookupChild parent.dentry name).any fun c => (v.getInode c).isSome then pure true
  else
    match v.nodes.lookup ino name with
    | .ok _ => pure true
    | .error .ENOENT => pure false
    | .error e => Call.fail e

/-- Point the cached entry of a name at an inode or at none, and forget what is below it if
`clear` is set. -/
def patch (v : Dcache) (d : Nat) (name : Name) (ino : Option Nat) (clear : Bool) : Dcache :=
  match v.lookupChild d name with
  | some c => if clear then (v.setInode c ino).clearChildren c else v.setInode c ino
  | none => v.newChild d name ino

def cacheEntry (d : Nat) (name : Name) (ino : Option Nat) (clear : Bool) : Op Unit := do
  let v ← Call.get
  Call.set (v.patch d name ino clear)

/-- The part that `create_at`, `mkdir_at`, `mknod_at` and `symlink_at` have in common. -/
def makeAt (root start : PathNode) (path : List Char) (kind : Kind) (access : Access)
    (fault : Option Errno) : Op Nat := do
  let found ← parentForModifyAt root start path access
  let exist ← existsIn found.1 found.2.1 found.2.2
  Call.check (!exist) .EEXIST
  let ino ← drive fault fun n => n.create found.2.1 found.2.2 kind
  cacheEntry found.1.dentry found.2.2 (some ino) false
  pure ino

/-- The last component of a path as it is written. -/
def lastOf (path : List Char) : Name :=
  ((trimSlashes path).reverse.takeWhile fun c => c ≠ '/').reverse

def createAt (root start : PathNode) (path : List Char) (access : Access)
    (fault : Option Errno) : Op Nat := do
  Call.check (path ≠ []) .ENOENT
  Call.check (trimSlashes path ≠ []) .EISDIR
  Call.check (lastOf path ≠ dot && lastOf path ≠ dotDot) .EISDIR
  makeAt root start path .other access fault

def mkdirAt (root start : PathNode) (path : List Char) (access : Access)
    (fault : Option Errno) : Op Nat := do
  Call.check (path ≠ []) .ENOENT
  Call.check (trimSlashes path ≠ []) .EEXIST
  if lastOf path = dot ∨ lastOf path = dotDot then
    let _ ← lookupAt root start path ⟨false, true⟩
    Call.fail .EEXIST
  else makeAt root start path .dir access fault

def symlinkAt (target : List Char) (root start : PathNode) (path : List Char) (access : Access)
    (fault : Option Errno) : Op Nat := do
  Call.check (target ≠ []) .ENOENT
  makeAt root start path (.symlink target) access fault

def mknodAt (type : NodeType) (superuser : Bool) (root start : PathNode) (path : List Char)
    (access : Access) (fault : Option Errno) : Op Nat := do
  Call.check (type ≠ .other) .EINVAL
  Call.check (!(type.isDevice && !superuser)) .EPERM
  makeAt root start path .other access fault

/-- `lookup_nofollow_at`, and the inode of what it finds. -/
def targetAt (root start : PathNode) (path : List Char) : Op (PathNode × Nat) := do
  let node ← lookupAt root start path ⟨true, false⟩
  let ino ← inodeAt node.dentry
  pure (node, ino)

def unlinkAt (root start : PathNode) (path : List Char) (access : Access)
    (fault : Option Errno) : Op Unit := do
  Call.check (path ≠ []) .ENOENT
  Call.check (trimSlashes path ≠ []) .EISDIR
  Call.check (lastOf path ≠ dot && lastOf path ≠ dotDot) .EISDIR
  let found ← parentForModifyAt root start path access
  let target ← targetAt root start path
  let v ← Call.get
  Call.check (!v.nodes.isDir target.2) .EISDIR
  Call.check (access.sticky found.2.1 target.2) .EPERM
  drive fault fun n => n.unlink found.2.1 found.2.2
  cacheEntry found.1.dentry found.2.2 none false

def rmdirAt (root start : PathNode) (path : List Char) (access : Access)
    (fault : Option Errno) : Op Unit := do
  let found ← parentForModifyAt root start path access
  let v ← Call.get
  Call.check (!(v.lookupChild found.1.dentry found.2.2).any fun c => (v.dentry c).mounts ≠ [])
    .EBUSY
  let target ← targetAt root start path
  let v ← Call.get
  Call.check (v.nodes.isDir target.2) .ENOTDIR
  Call.check (access.sticky found.2.1 target.2) .EPERM
  drive fault fun n => n.rmdir found.2.1 found.2.2
  cacheEntry found.1.dentry found.2.2 none true

/-- `follow` stands for `AT_SYMLINK_FOLLOW`. -/
def linkAt (root oldStart : PathNode) (old : List Char) (newStart : PathNode) (new : List Char)
    (follow : Bool) (access : Access) (fault : Option Errno) : Op Unit := do
  let node ← lookupAt root oldStart old ⟨!follow, false⟩
  let ino ← inodeAt node.dentry
  let v ← Call.get
  Call.check (!v.nodes.isDir ino) .EPERM
  let found ← parentForModifyAt root newStart new access
  Call.check (found.1.mount = node.mount) .EXDEV
  let exist ← existsIn found.1 found.2.1 found.2.2
  Call.check (!exist) .EEXIST
  drive fault fun n => n.link found.2.1 found.2.2 ino
  cacheEntry found.1.dentry found.2.2 (some ino) false

/-- The dentries from `d` up. A parent is older than its child, so `d` bounds their number. -/
def ancestors (v : Dcache) : Nat → Nat → List Nat
  | 0, d => [d]
  | fuel + 1, d =>
    match v.parent d with
    | none => [d]
    | some p => d :: v.ancestors fuel p

/-- What `rename_at` asks of an existing destination; `true` if there is nothing to do. -/
def checkTarget (driver : Driver) (root start : PathNode) (path : List Char)
    (src : PathNode × Nat) (dir : Nat) (access : Access) : Op Bool := fun v =>
  match v.lookup root start path ⟨true, false⟩ with
  | (.error .ENOENT, v) => .ok (.ok false, v)
  | (.error e, v) => .ok (.error e, v)
  | (.ok node, v) =>
    match v.getInode node.dentry with
    | none => .ok (.error .ENOENT, v)
    | some dst =>
      if src.2 = dst ∧ (driver.sameArc ∨ src.1.dentry = node.dentry) then .ok (.ok true, v)
      else if v.nodes.isDir src.2 && !v.nodes.isDir dst then .ok (.error .ENOTDIR, v)
      else if !v.nodes.isDir src.2 && v.nodes.isDir dst then .ok (.error .EISDIR, v)
      else if (v.dentry node.dentry).mounts ≠ [] then .ok (.error .EBUSY, v)
      else if access.sticky dir dst then .ok (.ok false, v)
      else .ok (.error .EPERM, v)

def renameAt (driver : Driver) (root oldStart : PathNode) (old : List Char) (newStart : PathNode)
    (new : List Char) (access : Access) (fault : Option Errno) : Op Unit := do
  let src ← parentForModifyAt root oldStart old access
  let dst ← parentForModifyAt root newStart new access
  Call.check (src.1.mount = dst.1.mount) .EXDEV
  let node ← targetAt root oldStart old
  Call.check (access.sticky src.2.1 node.2) .EPERM
  let done ← checkTarget driver root newStart new node dst.2.1 access
  if done then pure ()
  else do
    let v ← Call.get
    Call.check (!(v.nodes.isDir node.2 &&
      (v.ancestors dst.1.dentry dst.1.dentry).contains node.1.dentry)) .EINVAL
    drive fault fun n => n.rename driver.keepsLinks src.2.1 src.2.2 dst.2.1 dst.2.2
    cacheEntry src.1.dentry src.2.2 none true
    cacheEntry dst.1.dentry dst.2.2 (some node.2) true

end Dcache

end Petra.Vfs
