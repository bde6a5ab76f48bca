import Petra.Base.Run
import Petra.Vm.Vmar

/-! # Address spaces, frames and objects

The world is every address space, the pages of the objects that can be mapped, the
shared zero frame and the contents of the frames. A frame's reference count is the
number of places that hold it. Frames come from an allocator that only hands out frames
nobody holds.
-/

namespace Petra.Vm

open Base

/-- A place that holds a reference to a frame. -/
inductive Holder
  | pte (space page : Nat)
  | page (object offset : Nat)
  | zero
  deriving DecidableEq, Repr

structure World where
  spaces : SortedMap Nat Vmar
  /-- The objects that can be mapped, by identity. -/
  objects : SortedMap Nat Backing
  /-- The pages of objects that have been materialized, by object and offset. -/
  pages : SortedMap (Nat ×ₗ Nat) Frame
  zeroFrame : Option Frame
  mem : Frame → Nat → UInt8
  /-- Counts allocations, so that an allocator may answer differently each time. -/
  clock : Nat

namespace World

/-- Nothing mapped, nothing allocated. -/
def boot (mem : Frame → Nat → UInt8) : World := ⟨.empty, .empty, .empty, none, mem, 0⟩

/-- Every place that holds a frame. -/
def holders (w : World) : List (Holder × Frame) :=
  w.spaces.entries.flatMap (fun s =>
      s.2.vmSpace.entries.map (fun e => (Holder.pte s.1 e.1, e.2.frame))) ++
    w.pages.entries.map (fun e => (Holder.page (ofLex e.1).1 (ofLex e.1).2, e.2)) ++
    w.zeroFrame.toList.map (fun f => (Holder.zero, f))

/-- The reference count of a frame. -/
def refcount (w : World) (f : Frame) : Nat :=
  (w.holders.filter (fun h => h.2 = f)).length

end World

/-- What the kernel runs on: the frame allocator, and what reading a page of a file gives at
some time, by object, offset and place in the page. -/
structure Platform where
  alloc : World → Option Frame
  unused : ∀ w f, alloc w = some f → w.refcount f = 0
  faultIn : Nat → Nat → Nat → Nat → UInt8

/-- A call on the world. -/
abbrev WorldCall (α : Type) : Type := Call VmarPanic Errno World α

namespace World

variable (P : Platform)

/-- Run a call on one address space. -/
def onSpace {α : Type} (i : Nat) (call : VmCall α) : WorldCall α := fun w =>
  match w.spaces.get? i with
  | none => .ok (.error .EINVAL, w)
  | some v =>
    match call v with
    | .error p => .error p
    | .ok (r, v') => .ok (r, { w with spaces := w.spaces.insert i v' })

/-- The address space `i` itself. -/
def space (i : Nat) : WorldCall Vmar := do
  match (← Call.get).spaces.get? i with
  | some v => pure v
  | none => Call.fail .EINVAL

/-! ### Frames -/

def setMem (w : World) (f : Frame) (bytes : Nat → UInt8) : World :=
  { w with mem := fun g => if g = f then bytes else w.mem g }

/-- A zero-filled frame from the allocator. -/
def allocZeroedFrame : WorldCall Frame := do
  let w ← Call.get
  match P.alloc w with
  | none => Call.fail .ENOMEM
  | some f => do
    Call.set { w.setMem f (fun _ => 0) with clock := w.clock + 1 }
    pure f

/-- The shared zero frame, allocated on first use. -/
def getZeroFrame : WorldCall Frame := do
  match (← Call.get).zeroFrame with
  | some f => pure f
  | none => do
    let f ← allocZeroedFrame P
    let w ← Call.get
    Call.set { w with zeroFrame := some f }
    pure f

def isZeroFrame (w : World) (f : Frame) : Bool := w.zeroFrame = some f

/-- A private copy of a frame. -/
def copyFrame (f : Frame) : WorldCall Frame := do
  let copy ← allocZeroedFrame P
  let w ← Call.get
  Call.set (w.setMem copy (w.mem f))
  pure copy

/-- The page of an object at an offset, materialized on first use. -/
def frameAt (object : Backing) (offset : Nat) (bytes : World → Nat → UInt8) :
    WorldCall Frame := do
  Call.check (offset < object.size) .EINVAL
  match (← Call.get).pages.get? (toLex (object.ptr, offset)) with
  | some f => pure f
  | none => do
    let f ← allocZeroedFrame P
    let w ← Call.get
    let w := w.setMem f (bytes w)
    Call.set { w with pages := w.pages.insert (toLex (object.ptr, offset)) f }
    pure f

/-- The page that an object supplies at an offset. -/
def backingFrame (object : Backing) (offset : Nat) : WorldCall Frame :=
  match object.kind with
  | .file => frameAt P object offset (fun w => P.faultIn w.clock object.ptr offset)
  | .shm => frameAt P object offset (fun _ _ => 0)
  | .singleFrame => do
    match (← Call.get).pages.get? (toLex (object.ptr, 0)) with
    | some f => pure f
    | none => Call.abort (.kernel .assertion)

/-- The page that backs an offset into a mapping. -/
def obtainFrame (m : VmMapping) (offset : Nat) (isWrite : Bool) : WorldCall Frame :=
  match m.backing with
  | some object =>
    if m.isBacked offset then backingFrame P object (m.backingOffset + offset)
    else if !isWrite && !m.shared then getZeroFrame P else allocZeroedFrame P
  | none => if !isWrite && !m.shared then getZeroFrame P else allocZeroedFrame P

/-! ### Page faults -/

/-- Enter a page in the page table of an address space. -/
def mapPage (i page : Nat) (pte : Pte) : WorldCall Unit :=
  onSpace i (fun v => .ok (.ok (), { v with vmSpace := v.vmSpace.insert page pte }))

/-- The flags that a fault on a mapping installs. -/
def faultProperty (m : VmMapping) (writable isWrite : Bool) : PageFlags :=
  let flags := PageFlags.ofPerms m.perms
  { flags with w := flags.w && writable, accessed := true, dirty := isWrite }

/-- The flags of an entry after a fault on it. -/
def touched (flags : PageFlags) (isWrite : Bool) : PageFlags :=
  { flags with w := flags.w || isWrite, dirty := flags.dirty || isWrite, accessed := true }

/-- A copy of a shared page: fresh zeroes if the page is the zero frame. -/
def privateCopy (f : Frame) : WorldCall Frame := do
  if (← Call.get).isZeroFrame f then allocZeroedFrame P else copyFrame P f

/-- Whether a page that the mapping would share must be copied before it is written. The
caller's own handles on the frame are not holders. -/
def mustCopy (w : World) (m : VmMapping) (f : Frame) (handles : Nat) : Bool :=
  m.isCow && (decide (w.refcount f + handles > 1) || w.isZeroFrame f)

/-- Resolve a fault on a page that is in the page table. -/
def presentFault (i : Nat) (m : VmMapping) (page : Nat) (pte : Pte) (required : VmPerms) :
    WorldCall Unit := do
  let isWrite := required.contains .WRITE
  if (VmPerms.ofFlags pte.flags).contains required then pure ()
  else if (← Call.get).mustCopy m pte.frame 0 then do
    let copy ← privateCopy P pte.frame
    mapPage i page ⟨copy, touched pte.flags isWrite⟩
  else mapPage i page ⟨pte.frame, touched pte.flags isWrite⟩

/-- Resolve a fault on a page that is not in the page table. -/
def absentFault (i : Nat) (m : VmMapping) (page : Nat) (required : VmPerms) : WorldCall Unit := do
  let isWrite := required.contains .WRITE
  let frame ← obtainFrame P m (page - m.start) isWrite
  let copying := (← Call.get).mustCopy m frame 1
  if isWrite && copying then do
    let copy ← privateCopy P frame
    mapPage i page ⟨copy, faultProperty m true true⟩
  else mapPage i page ⟨frame, faultProperty m (!copying) isWrite⟩

/-- Resolve a fault on a known mapping. -/
def handleMappingFault (i : Nat) (m : VmMapping) (address : Nat) (required : VmPerms)
    (provoked : Bool) : WorldCall Unit := do
  let allowed := if provoked then m.perms.may else m.perms.granted
  Call.check (allowed.contains required) .EACCES
  let page := address - address % pageSize
  match (← space i).vmSpace.get? page with
  | some pte => presentFault P i m page pte required
  | none => absentFault P i m page required

/-- Resolve a page fault. -/
def handlePageFault (i address : Nat) (required : VmPerms) (provoked : Bool) :
    WorldCall Unit := do
  match ← onSpace i (Vmar.growForFault address) with
  | none => Call.fail .EFAULT
  | some m => handleMappingFault P i m address required provoked

/-! ### Populating -/

/-- Fault in one page of a mapping, unless it is there already. -/
def populatePage (i : Nat) (m : VmMapping) (page : Nat) : WorldCall Unit := do
  let isWrite := m.perms.granted.contains .WRITE
  match (← space i).vmSpace.get? page with
  | some _ => pure ()
  | none => do
    let frame ← obtainFrame P m (page - m.start) isWrite
    let copying := (← Call.get).mustCopy m frame 1
    mapPage i page ⟨frame, faultProperty m (!copying) isWrite⟩

def populatePages (i : Nat) (m : VmMapping) : List Nat → WorldCall Unit
  | [] => pure ()
  | page :: pages => do
    populatePage P i m page
    populatePages i m pages

/-- The page addresses of a range. -/
def pageAddrs (range : Range) : List Nat :=
  (List.range ((range.len + (pageSize - 1)) / pageSize)).map (fun k => range.start + k * pageSize)

def populateMappings (i : Nat) (range : Range) : List VmMapping → WorldCall Unit
  | [] => pure ()
  | m :: rest => do
    populatePages P i m (pageAddrs (intersect range m.range))
    populateMappings i range rest

/-- Fault in every page of the mapped part of a range. -/
def populateRange (i : Nat) (range : Range) : WorldCall Unit := do
  Call.orFail (checkPageAlignedRange range)
  let found ← orPanic ((← space i).mappings.iterRange range)
  populateMappings P i range found

/-! ### fork -/

/-- What `fork` leaves of an entry on both sides: an entry of a private mapping loses its
write bit. -/
def sharedEntry (m : VmMapping) (pte : Pte) : Pte :=
  if m.isCow then { pte with flags := { pte.flags with w := false } } else pte

/-- Share the resident pages of a mapping with the child. -/
def sharePages (m : VmMapping) (src dst : VmSpace) : VmSpace × VmSpace :=
  let found := (src.filter (fun p _ => m.range.Mem p)).mapValues (fun _ pte => sharedEntry m pte)
  (if m.isCow then src.union found else src, dst.union found)

/-- Put a record of the parent into the child. -/
def inheritRecord (child : Vmar) (m : VmMapping) : Except Panic Vmar := do
  let total ← addUsize child.totalVm m.len
  let mappings ← child.mappings.insert m
  .ok { child with mappings, totalVm := total }

/-- What a child gets in place of a mapping that is wiped on fork. -/
def wiped (m : VmMapping) : VmMapping :=
  { m with wipeOnFork := false, shared := false, backing := none, backingOffset := 0 }

/-- Pass one mapping of the parent on to the child. -/
def forkMapping (m : VmMapping) (parentPages : VmSpace) (child : Vmar) :
    Except Panic (VmSpace × Vmar) := do
  if m.dontFork then .ok (parentPages, child)
  else if m.wipeOnFork then .ok (parentPages, ← inheritRecord child (wiped m))
  else do
    let child ← inheritRecord child m
    let (parentPages, childPages) := sharePages m parentPages child.vmSpace
    .ok (parentPages, { child with vmSpace := childPages })

def forkMappings : List VmMapping → VmSpace → Vmar → Except Panic (VmSpace × Vmar)
  | [], parentPages, child => .ok (parentPages, child)
  | m :: rest, parentPages, child => do
    let (parentPages, child) ← forkMapping m parentPages child
    forkMappings rest parentPages child

/-- An identity no address space has yet. -/
def freshSpace (w : World) : Nat :=
  match w.spaces.entries.getLast? with
  | none => 0
  | some e => e.1 + 1

/-- Create an address space that starts out as an image of `i`. -/
def forkFrom (i : Nat) : WorldCall Nat := do
  let parent ← space i
  let child := { Vmar.new parent.aslrOffset with maxAddrSpace := parent.maxAddrSpace }
  let (parentPages, child) ←
    orPanic (forkMappings parent.mappings.iter parent.vmSpace child)
  let w ← Call.get
  let spaces := w.spaces.insert i { parent with vmSpace := parentPages }
  Call.set { w with spaces := spaces.insert w.freshSpace child }
  pure w.freshSpace

/-! ### Other operations -/

/-- An identity no object has yet. -/
def freshObject (w : World) : Nat :=
  match w.objects.entries.getLast? with
  | none => 0
  | some e => e.1 + 1

/-- Create an object that can be mapped. -/
def newObject (kind : BackingKind) (size : Nat) : WorldCall Backing := do
  Call.check (size ≠ 0) .EINVAL
  let w ← Call.get
  let object : Backing := ⟨w.freshObject, kind, size⟩
  Call.set { w with objects := w.objects.insert object.ptr object }
  pure object

/-- The frame of a single-frame object: the shared zero frame or a fresh one. -/
def chosenFrame (zero : Bool) : WorldCall Frame :=
  if zero then getZeroFrame P else allocZeroedFrame P

/-- Create an object of one frame, which it holds from the start. -/
def singleFrame (zero : Bool) : WorldCall Backing := do
  let f ← chosenFrame P zero
  let object ← newObject .singleFrame pageSize
  let w ← Call.get
  Call.set { w with pages := w.pages.insert (toLex (object.ptr, 0)) f }
  pure object

/-- Whether a record of some address space refers to an object. -/
def isMapped (w : World) (object : Nat) : Bool :=
  w.spaces.values.any (fun v => v.mappings.iter.any (fun m => m.backing.any (fun b => b.ptr = object)))

/-- Let go of an object that nothing maps. Its pages go with it. -/
def dropObject (object : Nat) : WorldCall Unit := do
  let w ← Call.get
  if w.isMapped object then pure ()
  else Call.set { w with
    objects := w.objects.erase object
    pages := w.pages.filter (fun k _ => (ofLex k).1 ≠ object) }

/-- The body of `mmap`. -/
def mmapInner (i : Nat) (backing : Option Backing) (addr len : Nat) (prot : VmPerms)
    (flags : MmapFlags) (offset : Nat) : WorldCall Unit := do
  let range ← onSpace i (Vmar.mmapLocked backing addr len prot flags offset)
  if flags.contains .POPULATE then populateRange P i range else pure ()

/-- Map anonymous memory. A shared mapping gets an object of its own. -/
def mmapAnonymous (i addr len : Nat) (prot : VmPerms) (flags : MmapFlags) : WorldCall Unit := do
  if flags.isShared then do
    let object ← newObject .shm len
    mmapInner P i (some object) addr len prot flags 0
  else mmapInner P i none addr len prot flags 0

/-- Map an object. -/
def mmapBacked (i object addr len : Nat) (prot : VmPerms) (flags : MmapFlags) (offset : Nat) :
    WorldCall Unit := do
  match (← Call.get).objects.get? object with
  | none => Call.fail .EINVAL
  | some object => mmapInner P i (some object) addr len prot flags offset

/-- Give the kernel a hint about a range. Populating in advance may fail silently. -/
def madvise (i : Nat) (advice : MadviseAdvice) (range : Range) : WorldCall Unit :=
  match advice with
  | .willNeed => do
    Call.orFail (checkPageAlignedRange range)
    fun w => match populateRange P i range w with
      | .error p => .error p
      | .ok (_, w') => .ok (.ok (), w')
  | _ => onSpace i (Vmar.madvise advice range)

/-- The pages a reclaim pass may take from an address space: clean pages of unlocked private
anonymous memory that nobody else holds. -/
def reclaimable (w : World) (v : Vmar) (budget : Nat) : List Nat :=
  ((v.mappings.iter.filter (fun m => !m.shared && m.backing.isNone && !m.locked)).flatMap (fun m =>
    ((v.vmSpace.pagesIn m.range).filter
      (fun e => !e.2.flags.dirty && w.refcount e.2.frame == 1)).map Prod.fst)).take budget

/-- Take pages away from an address space. -/
def reclaim (i budget : Nat) : WorldCall Unit := do
  let w ← Call.get
  onSpace i (fun v => .ok (.ok (),
    { v with vmSpace := v.vmSpace.filter (fun p _ => p ∉ w.reclaimable v budget) }))

/-- A byte of an object. -/
def objectByte (w : World) (object : Backing) (offset k : Nat) : UInt8 :=
  match w.pages.get? (toLex (object.ptr, if object.kind = .singleFrame then 0 else offset)) with
  | some f => w.mem f k
  | none => if object.kind = .file then P.faultIn w.clock object.ptr offset k else 0

/-- The byte that a fault on a mapping would find. -/
def mappedByte (w : World) (m : VmMapping) (offset k : Nat) : UInt8 :=
  match m.backing with
  | none => 0
  | some object =>
    if m.isBacked offset then w.objectByte P object (m.backingOffset + offset) k else 0

/-- The byte an access by user code reads. A page that is not resident reads as the fault
finds it. -/
def load (w : World) (i addr : Nat) : Option UInt8 :=
  match w.spaces.get? i with
  | none => none
  | some v =>
    let page := addr - addr % pageSize
    match v.vmSpace.get? page with
    | some pte => some (w.mem pte.frame (addr % pageSize))
    | none =>
      (v.mappings.get addr).map (fun m => w.mappedByte P m (page - m.start) (addr % pageSize))

def writeByte (f : Frame) (k : Nat) (byte : UInt8) : WorldCall Unit := do
  let w ← Call.get
  Call.set (w.setMem f (fun j => if j = k then byte else w.mem f j))

/-- A store by user code. Without a writable entry it faults and changes nothing. -/
def store (i addr : Nat) (byte : UInt8) : WorldCall Unit := do
  match (← space i).vmSpace.get? (addr - addr % pageSize) with
  | none => Call.fail .EFAULT
  | some pte =>
    if pte.flags.w then writeByte pte.frame (addr % pageSize) byte else Call.fail .EFAULT

/-- The operations of the system. -/
inductive Op
  | newSpace (aslrOffset : Nat)
  | setMaxAddrSpace (space limit : Nat)
  | newFile (size : Nat)
  | newShm (size : Nat)
  | singleFrame (zero : Bool)
  | dropObject (object : Nat)
  | mmapAnonymous (space addr len : Nat) (prot : VmPerms) (flags : MmapFlags)
  | mmapBacked (space object addr len : Nat) (prot : VmPerms) (flags : MmapFlags) (offset : Nat)
  | munmap (space : Nat) (range : Range)
  | mprotect (space : Nat) (prot : VmPerms) (range : Range)
  | madvise (space : Nat) (advice : MadviseAdvice) (range : Range)
  | mlockRange (space : Nat) (range : Range) (locked : Bool)
  | mremap (space oldAddr oldSize newSize : Nat) (flags : MremapFlags) (newAddr : Option Nat)
  | resizeMapping (space addr oldSize newSize : Nat)
  | pageFault (space address : Nat) (required : VmPerms) (provoked : Bool)
  | populateRange (space : Nat) (range : Range)
  | forkFrom (space : Nat)
  | clear (space : Nat)
  | drop (space : Nat)
  | reclaim (space budget : Nat)
  | store (space addr : Nat) (byte : UInt8)
  deriving DecidableEq

/-- Forget what a call returned. -/
def ignoring {α : Type} (call : WorldCall α) : WorldCall Unit := do
  let _ ← call
  pure ()

def exec : Op → WorldCall Unit
  | .newSpace aslrOffset => do
    let w ← Call.get
    Call.set { w with spaces := w.spaces.insert w.freshSpace (.new aslrOffset) }
  | .setMaxAddrSpace i limit =>
    onSpace i (fun v => .ok (.ok (), { v with maxAddrSpace := limit }))
  | .newFile size => ignoring (newObject .file size)
  | .newShm size => ignoring (newObject .shm size)
  | .singleFrame zero => ignoring (singleFrame P zero)
  | .dropObject object => dropObject object
  | .mmapAnonymous i addr len prot flags => mmapAnonymous P i addr len prot flags
  | .mmapBacked i object addr len prot flags offset =>
    mmapBacked P i object addr len prot flags offset
  | .munmap i range => onSpace i (Vmar.munmap range)
  | .mprotect i prot range => onSpace i (Vmar.mprotect prot range)
  | .madvise i advice range => madvise P i advice range
  | .mlockRange i range locked => onSpace i (Vmar.mlockRange range locked)
  | .mremap i oldAddr oldSize newSize flags newAddr =>
    ignoring (onSpace i (Vmar.mremap oldAddr oldSize newSize flags newAddr))
  | .resizeMapping i addr oldSize newSize =>
    onSpace i (Vmar.resizeMapping addr oldSize newSize)
  | .pageFault i address required provoked => handlePageFault P i address required provoked
  | .populateRange i range => populateRange P i range
  | .forkFrom i => ignoring (forkFrom i)
  | .clear i => onSpace i Vmar.clear
  | .drop i => do
    let w ← Call.get
    Call.set { w with spaces := w.spaces.erase i }
  | .reclaim i budget => reclaim i budget
  | .store i addr byte => store i addr byte

/-- One step of the system. A call that fails leaves what it had changed by then. -/
def step (w : World) (op : Op) : Except VmarPanic World :=
  match exec P op w with
  | .error p => .error p
  | .ok (_, w') => .ok w'

end World

end Petra.Vm
