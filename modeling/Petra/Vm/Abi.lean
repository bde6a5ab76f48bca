import Petra.Kernel

/-! # Permissions and flag words of the memory system calls

The flag words are bit vectors of the width user space passes them in. Page
table flags belong to the hardware layer and are modelled by name.
-/

namespace Petra.Vm

def pageSize : Nat := 4096

/-- The exclusive upper bound of user addresses. -/
def maxUserspaceVaddr : Nat := 0x0000_8000_0000_0000 - pageSize

/-- The lowest address a mapping may occupy. -/
def vmarLowestAddr : Nat := 0x0010_0000

/-- The exclusive upper bound on mapping addresses. -/
def vmarCapAddr : Nat := maxUserspaceVaddr

/-- The headroom left above all mappings for the main stack. -/
def vmarStackReserve : Nat := 4096 * pageSize

/-- How far below a downward-growing mapping a fault may still grow it. -/
def stackGuardGap : Nat := 256 * pageSize

/-- The exclusive upper bound for `MAP_32BIT` requests. -/
def map32bitHighLimit : Nat := 0x8000_0000

/-! ## Permissions -/

/-- The permissions in force in bits 0 to 2, their ceiling in bits 3 to 5. -/
abbrev VmPerms := BitVec 8

namespace VmPerms

def READ : VmPerms := 1
def WRITE : VmPerms := 2
def EXEC : VmPerms := 4
def GRANTED : VmPerms := 7
def ALL_MAY : VmPerms := 0x38
def FULL_CEILING : VmPerms := 0x38

def contains (self other : VmPerms) : Bool := self &&& other == other

/-- The permissions currently in force. -/
def granted (self : VmPerms) : VmPerms := self &&& GRANTED

/-- Raise the ceiling to match the granted permissions. -/
def withCeiling (self : VmPerms) : VmPerms := self ||| (self.granted <<< 3)

/-- The granted permissions under the maximum ceiling. -/
def withFullCeiling (self : VmPerms) : VmPerms := self.granted ||| FULL_CEILING

/-- Replace the permissions in force, leaving the ceiling untouched. -/
def withGranted (self granted : VmPerms) : VmPerms := (self &&& ALL_MAY) ||| granted.granted

/-- The ceiling, shifted down to permission bits. -/
def may (self : VmPerms) : VmPerms := (self &&& ALL_MAY) >>> 3

def allows (self perms : VmPerms) : Bool := self.may.contains perms

/-- Whether the permissions in force stay within the ceiling. -/
def check (self : VmPerms) : Except Errno Unit :=
  if self.allows self.granted then .ok () else .error .EACCES

end VmPerms

/-- The page table flags of one entry. -/
structure PageFlags where
  r : Bool
  w : Bool
  x : Bool
  accessed : Bool
  dirty : Bool
  deriving DecidableEq, Repr

/-- The page table flags that permissions imply. -/
def PageFlags.ofPerms (perms : VmPerms) : PageFlags where
  r := perms.granted.contains .READ
  w := perms.granted.contains .WRITE
  x := perms.granted.contains .EXEC
  accessed := false
  dirty := false

/-- The permissions that page table flags grant. -/
def VmPerms.ofFlags (flags : PageFlags) : VmPerms :=
  (if flags.r then READ else 0) ||| (if flags.w then WRITE else 0) |||
    (if flags.x then EXEC else 0)

/-! ## Flag words -/

/-- The `flags` argument of `mmap(2)`. -/
abbrev MmapFlags := BitVec 32

namespace MmapFlags

def SHARED : MmapFlags := 0x1
def PRIVATE : MmapFlags := 0x2
def FIXED : MmapFlags := 0x10
def ANONYMOUS : MmapFlags := 0x20
def MAP_32BIT : MmapFlags := 0x40
def GROWSDOWN : MmapFlags := 0x100
def LOCKED : MmapFlags := 0x2000
def POPULATE : MmapFlags := 0x8000
def FIXED_NOREPLACE : MmapFlags := 0x10_0000

def contains (self other : MmapFlags) : Bool := self &&& other == other

/-- Reject the combinations Linux also rejects. -/
def validate (self : MmapFlags) : Except Errno Unit :=
  if self.contains SHARED && self.contains PRIVATE then .error .EINVAL
  else if self.contains FIXED && self.contains FIXED_NOREPLACE then .error .EINVAL
  else .ok ()

def isShared (self : MmapFlags) : Bool := self.contains SHARED
def growsDown (self : MmapFlags) : Bool := self.contains GROWSDOWN
def isLocked (self : MmapFlags) : Bool := self.contains LOCKED

end MmapFlags

/-- The `advice` argument of `madvise(2)`. -/
inductive MadviseAdvice
  | normal | random | sequential | willNeed | dontNeed | free | dontFork | doFork
  | mergeable | unmergeable | hugePage | noHugePage | dontNeedCold | wipeOnFork | keepOnFork
  deriving DecidableEq, Repr

/-- Whether the advice asks for the pages to be dropped. -/
def MadviseAdvice.dropsPages : MadviseAdvice → Bool
  | .dontNeed | .free | .dontNeedCold => true
  | _ => false

/-- The `flags` argument of `mremap(2)`. -/
abbrev MremapFlags := BitVec 32

namespace MremapFlags

def MAYMOVE : MremapFlags := 1
def FIXED : MremapFlags := 2
def DONTUNMAP : MremapFlags := 4

def contains (self other : MremapFlags) : Bool := self &&& other == other

end MremapFlags

end Petra.Vm
