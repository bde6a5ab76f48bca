import Petra.Base.Run
import Petra.Kernel

/-! # Pipes

A pipe is a bounded queue of bytes between any number of read and write ends. A read takes what
is there in one section, a write goes on section by section until all its bytes are in the
queue. Each section holds the lock of the pipe.
-/

namespace Petra.Fs

open Base Function List

def pipeBuf : Nat := 4096
def pipeCapacity : Nat := 65536

structure PipeState where
  buf : List UInt8
  readers : Nat
  writers : Nat
  writersOpened : Bool
  deriving DecidableEq

inductive End
  | read
  | write
  | both
  deriving DecidableEq

def End.canRead : End → Bool
  | .read | .both => true
  | .write => false

def End.canWrite : End → Bool
  | .write | .both => true
  | .read => false

/-- An open end. `refs` counts its descriptors and the calls on it. -/
structure PipeEnd where
  kind : End
  nonblock : Bool
  refs : Nat
  deriving DecidableEq

/-- `IN` stands for `RDNORM` and `OUT` for `WRNORM` as well; they are always set together. -/
structure PollEvents where
  pollIn : Bool
  pollOut : Bool
  err : Bool
  hup : Bool
  deriving DecidableEq

namespace PipeState

/-- All write ends are closed, after there were some. -/
def eof (st : PipeState) : Bool := st.writers = 0 && st.writersOpened

/-- One attempt to read: the bytes and the pipe after it, or nothing yet. -/
def tryRead (st : PipeState) (len : Nat) : Option (List UInt8 × PipeState) :=
  if st.buf ≠ [] then
    let n := min len st.buf.length
    some (st.buf.take n, { st with buf := st.buf.drop n })
  else if st.eof then some ([], st)
  else none

/-- One attempt to write: how many bytes went in, or nothing yet. -/
def tryWrite (st : PipeState) (atomic : Bool) (rest : List UInt8) :
    Option (Except Errno (Nat × PipeState)) :=
  if st.readers = 0 then some (.error .EPIPE)
  else
    let free := pipeCapacity - st.buf.length
    let needed := if atomic then rest.length else 1
    if free ≥ needed then
      let n := min free rest.length
      some (.ok (n, { st with buf := st.buf ++ rest.take n }))
    else none

def poll (st : PipeState) (kind : End) : PollEvents where
  pollIn := kind.canRead && (!st.buf.isEmpty || st.eof)
  pollOut := kind.canWrite && st.readers ≠ 0 && pipeCapacity - st.buf.length > 0
  err := kind.canWrite && st.readers = 0
  hup := kind.canRead && st.eof || kind.canWrite && st.readers = 0

/-- The drop of an end. -/
def dropEnd (st : PipeState) (kind : End) : PipeState :=
  let readers := if kind.canRead then st.readers - 1 else st.readers
  let writers := if kind.canWrite then st.writers - 1 else st.writers
  { st with
    readers := readers
    writers := writers
    writersOpened := if readers = 0 ∧ writers = 0 then false else st.writersOpened }

def openEnd (st : PipeState) (kind : End) : PipeState :=
  { st with
    readers := if kind.canRead then st.readers + 1 else st.readers
    writers := if kind.canWrite then st.writers + 1 else st.writers
    writersOpened := if kind.canWrite then true else st.writersOpened }

end PipeState

/-- A whole read that does not wait. -/
def readNonblock (st : PipeState) (kind : End) (len : Nat) : Except Errno (List UInt8) :=
  if !kind.canRead then .error .EBADF
  else if len = 0 then .ok []
  else
    match st.tryRead len with
    | some (bytes, _) => .ok bytes
    | none => .error .EAGAIN

/-- The first section of a write that does not wait. -/
def writeNonblock (st : PipeState) (kind : End) (data : List UInt8) : Except Errno Nat :=
  if !kind.canWrite then .error .EBADF
  else if data = [] then .ok 0
  else
    match st.tryWrite (data.length ≤ pipeBuf) data with
    | some (.ok (n, _)) => .ok n
    | some (.error e) => .error e
    | none => .error .EAGAIN

/-- Where a call is. -/
inductive PipeCall
  | idle
  | reading (e len : Nat)
  | writing (e : Nat) (data : List UInt8) (written : Nat)
  | didRead (result : Except Errno (List UInt8))
  | didWrite (data : List UInt8) (result : Except Errno Nat)
  deriving DecidableEq

structure PipeSystem where
  pipe : PipeState
  ends : Nat → Option PipeEnd
  calls : Nat → PipeCall
  /-- History: the pieces that went in, with the calls that wrote them, in order. -/
  inserted : List (Nat × List UInt8)
  /-- History: what was taken out, with the calls that read it, in order. -/
  removed : List (Nat × List UInt8)

/-- The sections of the calls on one pipe. -/
inductive PipeOp
  | openEnd (e : Nat) (kind : End) (nonblock : Bool)
  | dup (e : Nat)
  | close (e : Nat)
  | startRead (call e len : Nat)
  | tryRead (call : Nat)
  | startWrite (call e : Nat) (data : List UInt8)
  | tryWrite (call : Nat)

namespace PipeSystem

def setCall (s : PipeSystem) (call : Nat) (c : PipeCall) : PipeSystem :=
  { s with calls := update s.calls call c }

/-- One reference more to an end. -/
def hold (s : PipeSystem) (e : Nat) : PipeSystem :=
  match s.ends e with
  | none => s
  | some p => { s with ends := update s.ends e (some { p with refs := p.refs + 1 }) }

/-- One reference less. The last one drops the end. -/
def letGo (s : PipeSystem) (e : Nat) : PipeSystem :=
  match s.ends e with
  | none => s
  | some p =>
    if p.refs ≤ 1 then
      { s with ends := update s.ends e none, pipe := s.pipe.dropEnd p.kind }
    else { s with ends := update s.ends e (some { p with refs := p.refs - 1 }) }

def nonblock (s : PipeSystem) (e : Nat) : Bool := ((s.ends e).map PipeEnd.nonblock).getD false

/-- A section of a read. A blocking read that finds nothing sleeps until the next one. -/
def readSection (s : PipeSystem) (call e len : Nat) : PipeSystem :=
  match s.pipe.tryRead len with
  | some (bytes, pipe) =>
    { s with pipe := pipe, removed := s.removed ++ [(call, bytes)] }.letGo e
      |>.setCall call (.didRead (.ok bytes))
  | none =>
    if s.nonblock e then (s.letGo e).setCall call (.didRead (.error .EAGAIN)) else s

/-- A section of a write. -/
def writeSection (s : PipeSystem) (call e : Nat) (data : List UInt8) (written : Nat) : PipeSystem :=
  match s.pipe.tryWrite (data.length ≤ pipeBuf) (data.drop written) with
  | some (.ok (n, pipe)) =>
    let s := { s with
      pipe := pipe
      inserted := s.inserted ++ [(call, (data.drop written).take n)] }
    if written + n < data.length then s.setCall call (.writing e data (written + n))
    else (s.letGo e).setCall call (.didWrite data (.ok (written + n)))
  | some (.error err) =>
    (s.letGo e).setCall call (.didWrite data (if written > 0 then .ok written else .error err))
  | none =>
    if s.nonblock e then
      (s.letGo e).setCall call
        (.didWrite data (if written > 0 then .ok written else .error .EAGAIN))
    else s

/-- One section of a call. A section that cannot be taken now is not a step. -/
def step (s : PipeSystem) : PipeOp → Except Unit PipeSystem
  | .openEnd e kind nonblock =>
    match s.ends e with
    | none =>
      .ok { s with
        ends := update s.ends e (some ⟨kind, nonblock, 1⟩)
        pipe := s.pipe.openEnd kind }
    | some _ => .error ()
  | .dup e => if (s.ends e).isSome then .ok (s.hold e) else .error ()
  | .close e => if (s.ends e).isSome then .ok (s.letGo e) else .error ()
  | .startRead call e len =>
    match s.calls call, s.ends e with
    | .idle, some p =>
      if !p.kind.canRead then .ok (s.setCall call (.didRead (.error .EBADF)))
      else if len = 0 then .ok (s.setCall call (.didRead (.ok [])))
      else .ok ((s.hold e).setCall call (.reading e len))
    | _, _ => .error ()
  | .tryRead call =>
    match s.calls call with
    | .reading e len => .ok (s.readSection call e len)
    | _ => .error ()
  | .startWrite call e data =>
    match s.calls call, s.ends e with
    | .idle, some p =>
      if !p.kind.canWrite then .ok (s.setCall call (.didWrite data (.error .EBADF)))
      else if data = [] then .ok (s.setCall call (.didWrite data (.ok 0)))
      else .ok ((s.hold e).setCall call (.writing e data 0))
    | _, _ => .error ()
  | .tryWrite call =>
    match s.calls call with
    | .writing e data written => .ok (s.writeSection call e data written)
    | _ => .error ()

/-- `create_pipe`: end 0 reads and end 1 writes. -/
def createPipe (nonblock : Bool) : PipeSystem where
  pipe := ⟨[], 1, 1, true⟩
  ends := fun e =>
    if e = 0 then some ⟨.read, nonblock, 1⟩ else if e = 1 then some ⟨.write, nonblock, 1⟩ else none
  calls := fun _ => .idle
  inserted := []
  removed := []

/-- The pipe of a FIFO that nobody has opened. -/
def fifo : PipeSystem where
  pipe := ⟨[], 0, 0, false⟩
  ends := fun _ => none
  calls := fun _ => .idle
  inserted := []
  removed := []

/-- The bytes of a history, in order. -/
def bytes (log : List (Nat × List UInt8)) : List UInt8 := log.flatMap Prod.snd

/-- What one call has in a history. -/
def pieces (log : List (Nat × List UInt8)) (call : Nat) : List (List UInt8) :=
  (log.filter fun e => e.1 = call).map Prod.snd

/-! ## What every run keeps -/

/-- What a call has put in and taken out so far, as pieces. -/
def CallHolds (put taken : List (List UInt8)) : PipeCall → Prop
  | .idle | .reading _ _ => put = [] ∧ taken = []
  | .writing _ data written =>
    taken = [] ∧ put.flatten = data.take written ∧ written < data.length ∧
      (data.length ≤ pipeBuf → put = [] ∧ written = 0)
  | .didRead result => put = [] ∧ taken.flatten = result.toOption.getD []
  | .didWrite data result =>
    taken = [] ∧ put.flatten = data.take (result.toOption.getD 0) ∧
      (data.length ≤ pipeBuf → put = [] ∨ put = [data])

/-- The bytes that went in are those that came out and those in the queue. -/
structure Flows (s : PipeSystem) : Prop where
  order : bytes s.inserted = bytes s.removed ++ s.pipe.buf
  capacity : s.pipe.buf.length ≤ pipeCapacity
  calls : ∀ call, CallHolds (pieces s.inserted call) (pieces s.removed call) (s.calls call)

variable {s s' : PipeSystem} {call e : Nat} {log : List (Nat × List UInt8)} {st st' : PipeState}
  {len : Nat} {kind : End}

section

variable (log : List (Nat × List UInt8)) (call : Nat) (piece : List UInt8)

theorem bytes_append : bytes (log ++ [(call, piece)]) = bytes log ++ piece := by
  unfold bytes
  rw [flatMap_append, flatMap_singleton]

theorem pieces_append_self : pieces (log ++ [(call, piece)]) call = pieces log call ++ [piece] := by
  unfold pieces
  simp

end

theorem pieces_append_of_ne {call' : Nat} (hne : call' ≠ call) (piece : List UInt8) :
    pieces (log ++ [(call, piece)]) call' = pieces log call' := by
  unfold pieces
  simp [Ne.symm hne]

/-- The bytes, the calls and the histories stay. -/
structure SameFlow (s s' : PipeSystem) : Prop where
  buf : s'.pipe.buf = s.pipe.buf
  calls : s'.calls = s.calls
  inserted : s'.inserted = s.inserted
  removed : s'.removed = s.removed

theorem sameFlow_hold (s : PipeSystem) (e : Nat) : s.SameFlow (s.hold e) := by
  unfold hold
  split <;> exact ⟨rfl, rfl, rfl, rfl⟩

theorem sameFlow_letGo (s : PipeSystem) (e : Nat) : s.SameFlow (s.letGo e) := by
  unfold letGo
  split
  · exact ⟨rfl, rfl, rfl, rfl⟩
  · split_ifs <;> exact ⟨rfl, rfl, rfl, rfl⟩

theorem SameFlow.setCall (h : s.SameFlow s') (call : Nat) (c : PipeCall) :
    (s.setCall call c).SameFlow (s'.setCall call c) :=
  { h with
    calls := by
      dsimp only [PipeSystem.setCall]
      rw [h.calls] }

/-- A step changes the histories of one call at most, and this call goes on to `c`. -/
structure Advances (s s' : PipeSystem) (call : Nat) (c : PipeCall) : Prop where
  calls : s'.calls = update s.calls call c
  inserted : ∀ call', call' ≠ call → pieces s'.inserted call' = pieces s.inserted call'
  removed : ∀ call', call' ≠ call → pieces s'.removed call' = pieces s.removed call'
  holds : CallHolds (pieces s'.inserted call) (pieces s'.removed call) c

namespace Flows

theorem of_same (h : s.Flows) (hsame : s.SameFlow s') : s'.Flows where
  order := by
    rw [hsame.inserted, hsame.removed, hsame.buf]
    exact h.order
  capacity := by
    rw [hsame.buf]
    exact h.capacity
  calls := fun call => by
    rw [hsame.calls, hsame.inserted, hsame.removed]
    exact h.calls call

variable {c : PipeCall}

theorem advance (h : s.Flows) (hadvances : s.Advances s' call c)
    (horder : bytes s'.inserted = bytes s'.removed ++ s'.pipe.buf)
    (hcapacity : s'.pipe.buf.length ≤ pipeCapacity) : s'.Flows where
  order := horder
  capacity := hcapacity
  calls := fun call' => by
    rw [hadvances.calls]
    by_cases heq : call' = call
    · rw [heq, update_self]
      exact hadvances.holds
    · rw [update_of_ne heq, hadvances.inserted call' heq, hadvances.removed call' heq]
      exact h.calls call'

variable (h : s.Flows) (hc : CallHolds (pieces s.inserted call) (pieces s.removed call) c)

include h hc

/-- A call goes on without bytes. -/
theorem setCall : (s.setCall call c).Flows :=
  h.advance ⟨rfl, fun _ _ => rfl, fun _ _ => rfl, hc⟩ h.order h.capacity

/-- A call returns without bytes, and lets go of its end. -/
theorem returns : ((s.letGo e).setCall call c).Flows :=
  (h.setCall hc).of_same ((sameFlow_letGo s e).setCall call c)

end Flows

theorem tryRead_split {taken : List UInt8}
    (h : st.tryRead len = some (taken, st')) : st.buf = taken ++ st'.buf := by
  unfold PipeState.tryRead at h
  split_ifs at h
  · cases h
    exact (take_append_drop _ _).symm
  · cases h
    rfl

/-- A write that goes in does so at the end, within the capacity, and a whole one at once. -/
theorem tryWrite_ok {atomic : Bool} {rest : List UInt8} {n : Nat}
    (h : st.tryWrite atomic rest = some (.ok (n, st'))) (hcapacity : st.buf.length ≤ pipeCapacity) :
    st'.buf = st.buf ++ rest.take n ∧ st'.buf.length ≤ pipeCapacity ∧ n ≤ rest.length ∧
      (atomic = true → n = rest.length) := by
  unfold PipeState.tryWrite at h
  dsimp only at h
  split_ifs at h with hreaders hatomic hroom hroom
  · cases h
  · cases h
    refine ⟨rfl, ?_, Nat.min_le_right _ _, fun _ => Nat.min_eq_right hroom⟩
    rw [length_append, length_take]
    omega
  · cases h
    refine ⟨rfl, ?_, Nat.min_le_right _ _, fun htrue => absurd htrue hatomic⟩
    rw [length_append, length_take]
    omega

namespace Flows

theorem readSection (h : s.Flows) {len : Nat} (hcall : s.calls call = .reading e len) :
    (s.readSection call e len).Flows := by
  have hholds := h.calls call
  rw [hcall] at hholds
  obtain ⟨hput, htaken⟩ := hholds
  unfold PipeSystem.readSection
  split
  next taken pipe hread =>
    have hsplit := tryRead_split hread
    refine of_same ?_ ((sameFlow_letGo _ e).setCall call (.didRead (.ok taken)))
    refine h.advance ⟨rfl, fun _ _ => rfl, fun call' hne => pieces_append_of_ne hne taken, ?_⟩ ?_ ?_
    · refine ⟨hput, ?_⟩
      change (pieces (s.removed ++ [(call, taken)]) call).flatten = taken
      rw [pieces_append_self, htaken]
      exact append_nil taken
    · change bytes s.inserted = bytes (s.removed ++ [(call, taken)]) ++ pipe.buf
      rw [bytes_append, append_assoc, ← hsplit]
      exact h.order
    · have hcapacity := h.capacity
      rw [hsplit, length_append] at hcapacity
      exact (Nat.le_add_left _ _).trans hcapacity
  · split_ifs
    · exact h.returns ⟨hput, by rw [htaken]; rfl⟩
    · exact h

theorem writeSection (h : s.Flows) {data : List UInt8} {written : Nat}
    (hcall : s.calls call = .writing e data written) :
    (s.writeSection call e data written).Flows := by
  have hholds := h.calls call
  rw [hcall] at hholds
  obtain ⟨htaken, hput, hlt, hatomic⟩ := hholds
  -- The call returns what it has put in so far.
  have hreturn : ∀ err, CallHolds (pieces s.inserted call) (pieces s.removed call)
      (.didWrite data (if written > 0 then .ok written else .error err)) := by
    intro err
    refine ⟨htaken, ?_, fun hsmall => .inl (hatomic hsmall).1⟩
    by_cases hpos : written > 0
    · rw [if_pos hpos]
      exact hput
    · have hzero : written = 0 := by omega
      rw [hput, hzero]
      rfl
  unfold PipeSystem.writeSection
  split
  next n pipe hwrite =>
    obtain ⟨hbuf, hcapacity, hn, hall⟩ := tryWrite_ok hwrite h.capacity
    rw [length_drop] at hn hall
    have hflatten : (pieces (s.inserted ++ [(call, (data.drop written).take n)]) call).flatten =
        data.take (written + n) := by
      rw [pieces_append_self, flatten_append, hput, flatten_singleton, take_add]
    have horder : bytes (s.inserted ++ [(call, (data.drop written).take n)]) =
        bytes s.removed ++ pipe.buf := by
      rw [bytes_append, h.order, hbuf, append_assoc]
    split_ifs with hmore
    · refine h.advance ⟨rfl, fun call' hne => pieces_append_of_ne hne _, fun _ _ => rfl, ?_⟩
        horder hcapacity
      refine ⟨htaken, hflatten, hmore, fun hsmall => ?_⟩
      have := hall (by simpa using hsmall)
      omega
    · refine of_same ?_ ((sameFlow_letGo _ e).setCall call (.didWrite data (.ok (written + n))))
      refine h.advance ⟨rfl, fun call' hne => pieces_append_of_ne hne _, fun _ _ => rfl, ?_⟩
        horder hcapacity
      refine ⟨htaken, hflatten, fun hsmall => .inr ?_⟩
      obtain ⟨hnone, hzero⟩ := hatomic hsmall
      change pieces (s.inserted ++ [(call, (data.drop written).take n)]) call = [data]
      rw [pieces_append_self, hnone, hzero, drop_zero, take_of_length_le (by omega)]
      rfl
  · exact h.returns (hreturn _)
  · by_cases hnonblock : s.nonblock e = true
    · rw [if_pos hnonblock]
      exact h.returns (hreturn _)
    · rw [if_neg hnonblock]
      exact h

theorem step (h : s.Flows) {op : PipeOp} (hstep : PipeSystem.step s op = .ok s') : s'.Flows := by
  cases op <;> dsimp only [PipeSystem.step] at hstep
  case openEnd e kind nonblock =>
    split at hstep
    · cases hstep
      exact h.of_same ⟨rfl, rfl, rfl, rfl⟩
    · cases hstep
  case dup e =>
    split_ifs at hstep
    cases hstep
    exact h.of_same (sameFlow_hold s e)
  case close e =>
    split_ifs at hstep
    cases hstep
    exact h.of_same (sameFlow_letGo s e)
  case startRead call e len =>
    split at hstep
    next p hcall hend =>
      have hholds := h.calls call
      rw [hcall] at hholds
      obtain ⟨hput, htaken⟩ := hholds
      split_ifs at hstep <;> cases hstep
      · exact h.setCall ⟨hput, by rw [htaken]; rfl⟩
      · exact h.setCall ⟨hput, by rw [htaken]; rfl⟩
      · have hreading : (s.setCall call (.reading e len)).Flows := h.setCall ⟨hput, htaken⟩
        exact hreading.of_same ((sameFlow_hold s e).setCall call _)
    · cases hstep
  case tryRead call =>
    split at hstep
    next e len hcall =>
      cases hstep
      exact h.readSection hcall
    · cases hstep
  case startWrite call e data =>
    split at hstep
    next p hcall hend =>
      have hholds := h.calls call
      rw [hcall] at hholds
      obtain ⟨hput, htaken⟩ := hholds
      split_ifs at hstep with _ hdata <;> cases hstep
      · exact h.setCall ⟨htaken, by rw [hput]; rfl, fun _ => .inl hput⟩
      · exact h.setCall ⟨htaken, by rw [hput]; rfl, fun _ => .inl hput⟩
      · have hwriting : (s.setCall call (.writing e data 0)).Flows :=
          h.setCall ⟨htaken, by rw [hput]; rfl, length_pos_iff.mpr hdata, fun _ => ⟨hput, rfl⟩⟩
        exact hwriting.of_same ((sameFlow_hold s e).setCall call _)
    · cases hstep
  case tryWrite call =>
    split at hstep
    next e data written hcall =>
      cases hstep
      exact h.writeSection hcall
    · cases hstep

end Flows

/-! ## Polling -/

/-- A read end is reported readable exactly when a read would not have to wait. -/
theorem pollIn_iff (hread : kind.canRead = true) (hlen : len ≠ 0) :
    (st.poll kind).pollIn = true ↔ readNonblock st kind len ≠ .error .EAGAIN := by
  unfold PipeState.poll readNonblock PipeState.tryRead
  cases hbuf : st.buf with
  | nil => cases st.eof <;> simp [hread, hlen]
  | cons byte rest => simp [hread, hlen]

/-- While there is a read end, a write end is reported writable exactly when a write of one byte
would not have to wait. -/
theorem pollOut_iff (hwrite : kind.canWrite = true) (hreaders : st.readers ≠ 0) (byte : UInt8) :
    (st.poll kind).pollOut = true ↔ writeNonblock st kind [byte] ≠ .error .EAGAIN := by
  have hneeded : (if decide ([byte].length ≤ pipeBuf) = true then [byte].length else 1) = 1 := rfl
  unfold PipeState.poll writeNonblock PipeState.tryWrite
  rw [hneeded]
  by_cases hfree : pipeCapacity - st.buf.length ≥ 1
  · rw [if_pos hfree]
    simp [hwrite, hreaders, Nat.zero_lt_one.trans_le hfree]
  · rw [if_neg hfree]
    simp [hwrite, hreaders]
    omega

/-! ## Whole runs -/

theorem flows_createPipe (nonblock : Bool) : (createPipe nonblock).Flows where
  order := rfl
  capacity := Nat.zero_le _
  calls := fun _ => ⟨rfl, rfl⟩

theorem flows_fifo : fifo.Flows where
  order := rfl
  capacity := Nat.zero_le _
  calls := fun _ => ⟨rfl, rfl⟩

/-- In every run on a pipe or a FIFO: the bytes taken out are a prefix of those put in, the
queue stays within its capacity, a call's bytes are those it reports, a write of at most
`PIPE_BUF` bytes goes in as one piece or not at all, and polling a read end tells whether a read
would have to wait. While there is a read end, the same holds for write ends. -/
theorem flows_of_visits {start : PipeSystem}
    (hstart : start = fifo ∨ ∃ nonblock, start = createPipe nonblock)
    (h : Visits PipeSystem.step (fun _ _ => True) start s) : bytes s.removed <+: bytes s.inserted ∧
    bytes s.inserted = bytes s.removed ++ s.pipe.buf ∧ s.pipe.buf.length ≤ pipeCapacity ∧
    (∀ call, CallHolds (pieces s.inserted call) (pieces s.removed call) (s.calls call)) ∧
    (∀ kind len, kind.canRead = true → len ≠ 0 →
      ((s.pipe.poll kind).pollIn = true ↔ readNonblock s.pipe kind len ≠ .error .EAGAIN)) ∧
    (s.pipe.readers ≠ 0 → ∀ kind byte, kind.canWrite = true → ((s.pipe.poll kind).pollOut = true ↔
        writeNonblock s.pipe kind [byte] ≠ .error .EAGAIN)) := by
  have hinit : start.Flows := by
    rcases hstart with rfl | ⟨nonblock, rfl⟩
    · exact flows_fifo
    · exact flows_createPipe nonblock
  have hflows : s.Flows := h.invariant (I := Flows) hinit fun _ _ _ hs _ hstep => hs.step hstep
  exact ⟨hflows.order ▸ prefix_append .., hflows.order, hflows.capacity, hflows.calls,
    fun kind len hread hlen => pollIn_iff hread hlen,
    fun hreaders kind byte hwrite => pollOut_iff hwrite hreaders byte⟩

/-- Three bytes are written in one piece and read in two. -/
theorem flows_readTwice : ∃ s, Visits PipeSystem.step (fun _ _ => True) (createPipe true) s ∧
      bytes s.removed = [1, 2, 3] ∧ pieces s.inserted 0 = [[1, 2, 3]] ∧
      s.calls 2 = .didRead (.ok [3]) ∧ bytes s.removed <+: bytes s.inserted := by
  obtain ⟨s, hs, hbytes, hpieces, hcall⟩ := exists_visits PipeSystem.step (fun _ _ => True)
    (createPipe true) [.startWrite 0 1 [1, 2, 3], .tryWrite 0, .startRead 1 0 2, .tryRead 1,
      .startRead 2 0 2, .tryRead 2]
    (fun s => bytes s.removed = [1, 2, 3] ∧ pieces s.inserted 0 = [[1, 2, 3]] ∧
      s.calls 2 = .didRead (.ok [3])) (by decide)
  exact ⟨s, hs, hbytes, hpieces, hcall, (flows_of_visits (.inr ⟨true, rfl⟩) hs).1⟩

/-- The read end of a pipe is closed. The write end is not reported writable, and a write does
not have to wait: it fails with `EPIPE`. -/
theorem not_writable_readClosed : (Base.run PipeSystem.step (createPipe true) [.close 0]).map
      (fun s => ((s.pipe.poll .write).pollOut, writeNonblock s.pipe .write [7])) =
      .ok (false, .error .EPIPE) := by
  decide

end PipeSystem

end Petra.Fs
