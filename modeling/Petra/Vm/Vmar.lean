import Petra.Vm.Carve

/-! # Address spaces

An address space is its records, the running total of mapped bytes, the page table
and the address space limit. The operations below are the ones system calls make on
one address space; pages are brought in elsewhere.
-/

namespace Petra.Vm

open Base

/-- A physical page. -/
abbrev Frame := Nat

/-- A page table entry. -/
structure Pte where
  frame : Frame
  flags : PageFlags
  deriving DecidableEq, Repr

/-- The page table of an address space, by page address. -/
abbrev VmSpace := SortedMap Nat Pte

/-- Remove the entries of a range. -/
def VmSpace.unmap (vmSpace : VmSpace) (range : Range) : VmSpace :=
  vmSpace.filter (fun p _ => ¬ range.Mem p)

/-- Change the flags of the entries of a range. -/
def VmSpace.protect (vmSpace : VmSpace) (range : Range) (f : PageFlags → PageFlags) : VmSpace :=
  vmSpace.mapValues (fun p pte => if range.Mem p then { pte with flags := f pte.flags } else pte)

/-- The entries of a range, in ascending order. -/
def VmSpace.pagesIn (vmSpace : VmSpace) (range : Range) : List (Nat × Pte) :=
  vmSpace.entries.filter (fun e => range.Mem e.1)

namespace VmMapping

/-- The record a new mapping starts as. -/
def new (start len : Nat) (len_pos : 0 < len) (perms : VmPerms) (shared growsDown : Bool)
    (backing : Option Backing) (backingOffset : Nat) : VmMapping :=
  { start, len, len_pos, perms, shared, growsDown, locked := false, dontFork := false,
    wipeOnFork := false, backing, backingOffset }

/-- Remove the page table entries of the record. -/
def unmap (m : VmMapping) (vmSpace : VmSpace) : VmSpace := vmSpace.unmap m.range

/-- The flags `protect` gives an entry. A private page loses its write bit, so that the
next write faults and can copy the page. -/
def protectFlags (perms : VmPerms) (shared : Bool) (flags : PageFlags) : PageFlags :=
  let new := PageFlags.ofPerms perms
  { new with w := new.w && shared, accessed := flags.accessed, dirty := flags.dirty }

/-- Apply permissions to the page table entries of the record. -/
def protect (m : VmMapping) (vmSpace : VmSpace) (perms : VmPerms) : VmSpace :=
  vmSpace.protect m.range (protectFlags perms m.shared)

end VmMapping

/-- The address space of a process. A limit of zero is no limit. -/
structure Vmar where
  mappings : Mappings
  totalVm : Nat
  aslrOffset : Nat
  vmSpace : VmSpace
  maxAddrSpace : Nat
  deriving DecidableEq

/-- Why an operation on an address space stops the kernel. The updates of the running
total are told apart from the rest. -/
inductive VmarPanic
  | kernel (p : Panic)
  | totalVm
  deriving DecidableEq, Repr

/-- A call on one address space. -/
abbrev VmCall (α : Type) : Type := Call VmarPanic Errno Vmar α

/-- The value of a computation that panics for a reason other than the running total. -/
def orPanic {σ α : Type} (r : Except Panic α) : Call VmarPanic Errno σ α :=
  Call.orAbort (r.mapError .kernel)

/-- The smallest multiple of the page size not below `n`, if it fits. -/
def checkedNextPage (n : Nat) : Option Nat :=
  let up := (n + (pageSize - 1)) / pageSize * pageSize
  if up < usizeLimit then some up else none

namespace Vmar

/-- A fresh address space. The offset is the random one `mmap` starts searching at. -/
def new (aslrOffset : Nat) : Vmar := ⟨.empty, 0, aslrOffset, .empty, 0⟩

/-- Fail if the address space would end up holding more than its limit. -/
def checkTotalFits (v : Vmar) (total : Nat) : Except Errno Unit :=
  if v.maxAddrSpace ≠ 0 ∧ total > v.maxAddrSpace then .error .ENOMEM else .ok ()

/-- Fail if mapping `extra` more bytes would exceed the limit. -/
def checkFitsAddrSpace (v : Vmar) (extra : Nat) : Except Errno Unit :=
  v.checkTotalFits (min (v.totalVm + extra) (usizeLimit - 1))

/-- The running total with `old` bytes replaced by `new`. -/
def resizedTotal (total old new : Nat) : VmCall Nat := do
  Call.assert (old ≤ total) .totalVm
  orPanic (addUsize (total - old) new)

/-- The high address limit for an ordinary mapping. -/
def defaultHighLimit (v : Vmar) : Nat := vmarCapAddr - vmarStackReserve - v.aslrOffset

/-! ### Searching for room -/

/-- A region inside a hole, as high in it as the alignment allows. -/
def takeFromHole (hole : Range) (size align : Nat) : Option Range :=
  if size ≤ hole.stop ∧ align ≠ 0 then
    let start := (hole.stop - size) / align * align
    if start ≥ hole.start then some ⟨start, start + size⟩ else none
  else none

/-- A region between two addresses, if there is a hole between them at all. -/
def takeBetween (holeStart holeEnd size : Nat) : Option Range :=
  if holeStart < holeEnd then takeFromHole ⟨holeStart, holeEnd⟩ size pageSize else none

/-- Search the holes below `ceiling` between the records, which are given from high
addresses to low ones. -/
def searchHoles (size : Nat) : Nat → List VmMapping → Option Range
  | ceiling, [] => takeBetween vmarLowestAddr ceiling size
  | ceiling, m :: rest =>
    if m.start ≥ ceiling then searchHoles size ceiling rest
    else
      match takeBetween (max m.stop vmarLowestAddr) ceiling size with
      | some region => some region
      | none =>
        if m.start ≤ vmarLowestAddr then none
        else searchHoles size (min m.start ceiling) rest

/-- A free region below `highLimit`, searched from high addresses to low ones. -/
def findFreeRegion (mappings : Mappings) (size highLimit : Nat) : Option Range :=
  if highLimit ≤ vmarLowestAddr ∨ size > highLimit - vmarLowestAddr then none
  else searchHoles size highLimit mappings.iter.reverse

/-- The start of a free region, or `ENOMEM`. -/
def freeStart (mappings : Mappings) (size highLimit : Nat) : VmCall Nat :=
  match findFreeRegion mappings size highLimit with
  | some region => pure region.start
  | none => Call.fail .ENOMEM

/-! ### Carving -/

/-- Carve the records and take what was dropped off the running total. -/
def carve (range : Range) (op : Mappings.CarveOp VmSpace) : VmCall CarveOutcome := do
  let v ← Call.get
  let (mappings, outcome, vmSpace) ← orPanic (v.mappings.carve range op v.vmSpace)
  Call.assert (outcome.dropped ≤ v.totalVm) .totalVm
  Call.set { v with mappings, vmSpace, totalVm := v.totalVm - outcome.dropped }
  pure outcome

/-- Remove the mappings that intersect a range. -/
def unmapRange (range : Range) : VmCall Unit := do
  let _ ← carve range (fun vmSpace piece _ => .ok (none, piece.unmap vmSpace))
  pure ()

/-- Drop the page table entries of a range, keeping the mappings. -/
def unmapPagesOnly (range : Range) : VmCall CarveOutcome :=
  carve range (fun vmSpace piece _ => .ok (some piece, piece.unmap vmSpace))

/-- Change the records of a range without touching their pages. -/
def alter (range : Range) (f : VmMapping → VmMapping) : VmCall Unit := do
  let _ ← carve range (fun vmSpace piece _ => .ok (some (f piece), vmSpace))
  pure ()

/-- Extend the record above `page` downwards so that it covers `page`. -/
def growDownwards (page : Nat) : VmCall (Option VmMapping) := do
  let v ← Call.get
  if page < vmarLowestAddr then pure none
  else
    match v.mappings.next page with
    | none => pure none
    | some above =>
      let gap := above.start - page
      if gap > stackGuardGap then pure none
      else
        match v.checkFitsAddrSpace gap with
        | .error _ => pure none
        | .ok () => do
          let (grown, mappings) ← orPanic (v.mappings.growDownwards page)
          match grown with
          | none => do
            Call.set { v with mappings }
            pure none
          | some record => do
            let total ← orPanic (addUsize v.totalVm gap)
            Call.set { v with mappings, totalVm := total }
            pure (some record)

/-- The mapping covering a faulting address, grown downwards to reach it if need be. -/
def growForFault (address : Nat) : VmCall (Option VmMapping) := do
  let v ← Call.get
  match v.mappings.get address with
  | some m => pure (some m)
  | none => growDownwards (address - address % pageSize)

/-! ### mmap, munmap, mprotect, madvise, mlock -/

/-- Where a new mapping goes. -/
def placeMapping (v : Vmar) (addr len : Nat) (flags : MmapFlags) : VmCall Nat := do
  if flags.contains .FIXED then pure addr
  else if flags.contains .FIXED_NOREPLACE then do
    let stop ← orPanic (addUsize addr len)
    let taken ← orPanic (v.mappings.countOverlap ⟨addr, stop⟩)
    Call.check (taken == 0) .EEXIST
    pure addr
  else do
    let searchHigh :=
      if flags.contains .MAP_32BIT then min map32bitHighLimit v.defaultHighLimit
      else v.defaultHighLimit
    if addr = 0 then freeStart v.mappings len searchHigh
    else do
      let hint : Range := ⟨addr, ← orPanic (addUsize addr len)⟩
      if isMappableRange hint then do
        let taken ← orPanic (v.mappings.countOverlap hint)
        if taken = 0 then pure addr else freeStart v.mappings len searchHigh
      else freeStart v.mappings len searchHigh

/-- The checks `mmap` makes on its arguments. Returns the rounded length and the
permissions of the record. -/
def checkMmap (backing : Option Backing) (addr len : Nat) (prot : VmPerms) (flags : MmapFlags)
    (offset : Nat) : Except Errno (Nat × VmPerms) := do
  if len = 0 then .error .EINVAL
  let some len := checkedNextPage len | .error .ENOMEM
  if addr % pageSize ≠ 0 then .error .EINVAL
  if offset % pageSize ≠ 0 then .error .EINVAL
  flags.validate
  if prot ≠ prot.granted then .error .EINVAL
  let perms :=
    if backing.isNone || !flags.isShared then prot.withFullCeiling else prot.withCeiling
  perms.check
  match backing with
  | none => .ok (len, perms)
  | some object =>
    if usizeLimit ≤ offset + len then .error .EOVERFLOW
    else if offset + len > object.size then .error .EINVAL
    else .ok (len, perms)

/-- The record `mmap` puts in. -/
def newMapping (start len : Nat) (perms : VmPerms) (flags : MmapFlags)
    (backing : Option Backing) (offset : Nat) : Except Errno VmMapping :=
  if hpos : 0 < len then
    .ok { VmMapping.new start len hpos perms flags.isShared flags.growsDown backing offset with
      locked := flags.isLocked }
  else .error .EINVAL

/-- Put a record in and add its length to the running total. -/
def addRecord (m : VmMapping) : VmCall Unit := do
  let v ← Call.get
  let total ← orPanic (addUsize v.totalVm m.len)
  let mappings ← orPanic (v.mappings.insert m)
  Call.set { v with mappings, totalVm := total }

/-- The part of `mmap` that runs under the lock. Returns the mapped range. -/
def mmapLocked (backing : Option Backing) (addr len : Nat) (prot : VmPerms) (flags : MmapFlags)
    (offset : Nat) : VmCall Range := do
  let (len, perms) ← Call.orFail (checkMmap backing addr len prot flags offset)
  let v ← Call.get
  let start ← placeMapping v addr len flags
  let range : Range := ⟨start, ← orPanic (addUsize start len)⟩
  Call.check (isMappableRange range) .ENOMEM
  Call.orFail (if flags.contains .FIXED then .ok () else v.checkFitsAddrSpace len)
  unmapRange range
  let m ← Call.orFail (newMapping start len perms flags backing offset)
  addRecord m
  pure range

/-- Release the mappings that intersect a range. -/
def munmap (range : Range) : VmCall Unit := do
  Call.orFail (checkPageAlignedRange range)
  Call.check (range.start < range.stop) .EINVAL
  unmapRange range

/-- The checks of `mprotect`, the last one under the read lock. -/
def mprotectCheck (prot : VmPerms) (range : Range) : VmCall Unit := do
  Call.orFail (checkPageAlignedRange range)
  Call.check (prot = prot.granted) .EINVAL
  Call.check (isMappableRange range) .EFAULT
  let found ← orPanic ((← Call.get).mappings.iterRange range)
  Call.check (found.all (fun m => m.perms.allows prot)) .EACCES

/-- What `mprotect` does under the write lock. -/
def mprotectApply (prot : VmPerms) (range : Range) : VmCall Unit := do
  let outcome ← carve range (fun vmSpace piece _ =>
    let piece := { piece with perms := piece.perms.withGranted prot }
    .ok (some piece, piece.protect vmSpace piece.perms))
  Call.check (range.len ≤ outcome.mapped) .ENOMEM

/-- Replace the permissions in force over a range. -/
def mprotect (prot : VmPerms) (range : Range) : VmCall Unit := do
  mprotectCheck prot range
  mprotectApply prot range

/-- What `madvise` does to one address space, apart from `MADV_WILLNEED`. -/
def madvise (advice : MadviseAdvice) (range : Range) : VmCall Unit := do
  Call.orFail (checkPageAlignedRange range)
  match advice with
  | .dontFork => alter range (fun piece => { piece with dontFork := true })
  | .doFork => alter range (fun piece => { piece with dontFork := false })
  | .wipeOnFork => alter range (fun piece => { piece with wipeOnFork := true })
  | .keepOnFork => alter range (fun piece => { piece with wipeOnFork := false })
  | .hugePage | .noHugePage | .mergeable | .unmergeable => pure ()
  | _ =>
    if advice.dropsPages then do
      Call.check (isMappableRange range) .EFAULT
      let outcome ← unmapPagesOnly range
      Call.check (range.len ≤ outcome.mapped) .ENOMEM
    else pure ()

/-- Mark a range as locked into memory or unlocked. -/
def mlockRange (range : Range) (locked : Bool) : VmCall Unit := do
  Call.check (isMappableRange range) .ENOMEM
  alter range (fun piece => { piece with locked })

/-! ### mremap -/

/-- Round a size up to whole pages. -/
def pageAlignedSize (size : Nat) : Except Errno Nat :=
  if size = 0 then .error .EINVAL
  else match checkedNextPage size with
    | some size => .ok size
    | none => .error .ENOMEM

/-- Move the page table entries of one range to another of the same length. -/
def movePt (vmSpace : VmSpace) (old new : Range) : Except Panic VmSpace :=
  if old.len = new.len ∧ isIntersected old new = false then
    .ok ((vmSpace.pagesIn old).foldl
      (fun s e => (s.erase e.1).insert (new.start + (e.1 - old.start)) e.2) vmSpace)
  else .error .assertion

/-- Enter the page table entries of one range at another place as well. -/
def copyPt (vmSpace : VmSpace) (old : Range) (newStart : Nat) : VmSpace :=
  (vmSpace.pagesIn old).foldl (fun s e => s.insert (newStart + (e.1 - old.start)) e.2) vmSpace

/-- The record operation of a move: shift each piece and enlarge the last one. -/
def movePiece (moved : Range) (newStart growBy : Nat) : Mappings.CarveOp VmSpace :=
  fun vmSpace piece sub => do
    let delta := sub.start - moved.start
    let piece ← piece.relocate (← addUsize newStart delta)
    let piece ← piece.rebase delta
    if piece.stop = newStart + moved.len then .ok (some (← piece.enlarge growBy), vmSpace)
    else .ok (some piece, vmSpace)

/-- Map the pages of a range at a second place and keep the old one. -/
def remapKeepOld (oldRange : Range) (newStart newSize : Nat) : VmCall Nat := do
  let v ← Call.get
  match v.mappings.get oldRange.start with
  | none => Call.fail .EFAULT
  | some source => do
    Call.check (oldRange.stop ≤ source.stop) .EFAULT
    let newRange : Range := ⟨newStart, ← orPanic (addUsize newStart newSize)⟩
    Call.check (isMappableRange newRange) .ENOMEM
    let total ← orPanic (addUsize v.totalVm newSize)
    Call.orFail (v.checkTotalFits total)
    unmapRange newRange
    let w ← Call.get
    let m ← orPanic (source.relocate newStart)
    let m ← orPanic (m.enlarge (newSize - oldRange.len))
    let mappings ← orPanic (w.mappings.insert m)
    Call.set { w with mappings, vmSpace := copyPt w.vmSpace oldRange newStart, totalVm := total }
    pure newStart

/-- Grow the record that ends the old range in place. `none` if there is no room for it. -/
def growInPlace (before : Nat) (oldRange : Range) (newSize : Nat) : VmCall (Option Nat) := do
  let v ← Call.get
  let grow : Range := ⟨oldRange.stop, ← orPanic (addUsize oldRange.start newSize)⟩
  if isMappableRange grow then do
    let taken ← orPanic (v.mappings.countOverlap grow)
    if taken = 0 then
      match v.mappings.get (oldRange.stop - 1) with
      | none => pure none
      | some last => do
        let total ← resizedTotal before oldRange.len newSize
        Call.orFail (v.checkTotalFits total)
        match v.mappings.remove last.start with
        | (none, _) => Call.abort (.kernel .assertion)
        | (some m, rest) => do
          let m ← orPanic (m.enlarge (newSize - oldRange.len))
          let mappings ← orPanic (rest.insert m)
          Call.set { v with mappings, totalVm := total }
          pure (some oldRange.start)
    else pure none
  else pure none

/-- Move the first `kept` bytes of the old range to `newStart` and grow them there. -/
def moveMapping (before : Nat) (oldRange : Range) (kept newStart newSize : Nat) : VmCall Nat := do
  let newRange : Range := ⟨newStart, ← orPanic (addUsize newStart newSize)⟩
  let total ← resizedTotal before oldRange.len newSize
  Call.orFail ((← Call.get).checkTotalFits total)
  unmapRange newRange
  let moved : Range := ⟨oldRange.start, oldRange.start + kept⟩
  let v ← Call.get
  let vmSpace ← orPanic (movePt v.vmSpace moved ⟨newStart, newStart + kept⟩)
  Call.set { v with vmSpace }
  let _ ← carve moved (movePiece moved newStart (newSize - kept))
  let v ← Call.get
  Call.set { v with totalVm := total }
  pure newStart

/-- Unmap what a shrinking call gives up. -/
def shrinkTail (oldRange : Range) (newSize : Nat) : VmCall Unit :=
  if newSize < oldRange.len then unmapRange ⟨oldRange.start + newSize, oldRange.stop⟩
  else pure ()

/-- Grow the old range in place, or move it to a free region. -/
def growOrMove (before : Nat) (oldRange : Range) (newSize : Nat) : VmCall Nat := do
  match ← growInPlace before oldRange newSize with
  | some start => pure start
  | none => do
    let v ← Call.get
    let newStart ← freeStart v.mappings newSize v.defaultHighLimit
    moveMapping before oldRange (min oldRange.len newSize) newStart newSize

/-- Resize or move the old range, giving up the old place. -/
def remapRange (oldRange : Range) (newSize : Nat) (newAddr : Option Nat) : VmCall Nat := do
  let v ← Call.get
  shrinkTail oldRange newSize
  match newAddr with
  | some newStart =>
    moveMapping v.totalVm oldRange (min oldRange.len newSize) newStart newSize
  | none =>
    if newSize ≤ oldRange.len then do
      let total ← resizedTotal v.totalVm oldRange.len newSize
      let w ← Call.get
      Call.set { w with totalVm := total }
      pure oldRange.start
    else growOrMove v.totalVm oldRange newSize

/-- The sizes and the new address of an `mremap` call, once its arguments are accepted. -/
def checkMremap (oldAddr oldSize newSize : Nat) (flags : MremapFlags) (newAddr : Option Nat) :
    Except Errno (Nat × Nat × Option Nat) := do
  let oldSize ← pageAlignedSize oldSize
  let newSize ← pageAlignedSize newSize
  if oldAddr % pageSize ≠ 0 then .error .EINVAL
  if newAddr.any (fun a => a % pageSize ≠ 0) then .error .EINVAL
  let fixed := flags.contains .FIXED
  let keepOld := flags.contains .DONTUNMAP
  if fixed ∧ newAddr.isNone then .error .EINVAL
  if keepOld ∧ fixed then .error .EINVAL
  if ¬ flags.contains .MAYMOVE ∧ newSize > oldSize then .error .EINVAL
  if keepOld ∧ newSize < oldSize then .error .EINVAL
  .ok (oldSize, newSize, if fixed then newAddr else none)

/-- The check of a fixed new place against the old one. -/
def checkNewRange (oldRange : Range) (newSize : Nat) : Option Nat → VmCall Unit
  | none => pure ()
  | some newAddr => do
    let newRange : Range := ⟨newAddr, ← orPanic (addUsize newAddr newSize)⟩
    Call.check (isMappableRange newRange) .ENOMEM
    Call.check (!isIntersected oldRange newRange) .EINVAL

/-- What `mremap` has settled before it takes the write lock. -/
structure RemapPlan where
  oldRange : Range
  newSize : Nat
  newAddr : Option Nat
  keepOld : Bool
  deriving DecidableEq

/-- The checks of `mremap`. Whether the old range is mapped is looked up under the read lock. -/
def mremapCheck (oldAddr oldSize newSize : Nat) (flags : MremapFlags) (newAddr : Option Nat) :
    VmCall RemapPlan := do
  let (oldSize, newSize, newAddr) ←
    Call.orFail (checkMremap oldAddr oldSize newSize flags newAddr)
  let oldRange : Range := ⟨oldAddr, ← orPanic (addUsize oldAddr oldSize)⟩
  Call.check (isMappableRange oldRange) .EFAULT
  let full ← orPanic ((← Call.get).mappings.isFullyMapped oldRange)
  Call.check full .EFAULT
  checkNewRange oldRange newSize newAddr
  pure ⟨oldRange, newSize, newAddr, flags.contains .DONTUNMAP⟩

/-- What `mremap` does under the write lock. -/
def mremapApply (plan : RemapPlan) : VmCall Nat := do
  if plan.keepOld then
    match plan.newAddr with
    | some newStart => remapKeepOld plan.oldRange newStart plan.newSize
    | none => do
      let v ← Call.get
      let newStart ← freeStart v.mappings plan.newSize v.defaultHighLimit
      remapKeepOld plan.oldRange newStart plan.newSize
  else remapRange plan.oldRange plan.newSize plan.newAddr

/-- Move or resize the mapping at `oldAddr`. -/
def mremap (oldAddr oldSize newSize : Nat) (flags : MremapFlags) (newAddr : Option Nat) :
    VmCall Nat := do
  let plan ← mremapCheck oldAddr oldSize newSize flags newAddr
  mremapApply plan

/-- Resize the mapping that covers `addr..addr + oldSize` to `newSize` bytes. -/
def resizeMapping (addr oldSize newSize : Nat) : VmCall Unit := do
  let oldSize ← Call.orFail (pageAlignedSize oldSize)
  let newSize ← Call.orFail (pageAlignedSize newSize)
  let oldRange : Range := ⟨addr, ← orPanic (addUsize addr oldSize)⟩
  Call.orFail (checkPageAlignedRange oldRange)
  let newStop ← orPanic (addUsize addr newSize)
  Call.orFail (checkPageAlignedRange ⟨addr, newStop⟩)
  let v ← Call.get
  match v.mappings.get addr with
  | none => Call.fail .EFAULT
  | some owner => do
    Call.check (oldRange.stop ≤ owner.stop) .EFAULT
    if newSize = oldSize then pure ()
    else if newSize < oldSize then unmapRange ⟨addr + newSize, oldRange.stop⟩
    else do
      let grow : Range := ⟨oldRange.stop, newStop⟩
      Call.check (isMappableRange grow) .ENOMEM
      let taken ← orPanic (v.mappings.countOverlap grow)
      Call.check (taken == 0) .EFAULT
      let total ← orPanic (addUsize v.totalVm (newSize - oldSize))
      Call.orFail (v.checkTotalFits total)
      match v.mappings.remove owner.start with
      | (none, _) => Call.abort (.kernel .assertion)
      | (some m, rest) => do
        let m ← orPanic (m.enlarge (newSize - oldSize))
        let mappings ← orPanic (rest.insert m)
        Call.set { v with mappings, totalVm := total }

/-- Release every mapping and every page table entry. -/
def clear : VmCall Unit := do
  let v ← Call.get
  Call.set { v with mappings := .empty, vmSpace := v.vmSpace.unmap ⟨0, vmarCapAddr⟩, totalVm := 0 }

end Vmar

end Petra.Vm
