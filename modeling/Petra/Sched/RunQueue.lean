import Petra.Base.SortedMap
import Petra.Sched.Entity

/-! # The run queue of a CPU

Real-time tasks wait in one queue per priority, fair tasks in a tree ordered by virtual
deadline. The key of a fair task is computed from its entity when it is filed, and again when
it is taken out.
-/

namespace Petra.Sched

open Base Function

/-! ### The real-time class -/

structure RtRunQueue where
  prioQueues : Nat → List SchedEntry
  /-- The bits of `prio_bitmap`. -/
  prioBitmap : Nat → Bool
  nrRunning : Nat

namespace RtRunQueue

def new : RtRunQueue := ⟨fun _ => [], fun _ => false, 0⟩

def hasTasks (q : RtRunQueue) : Bool := 0 < q.nrRunning

def highestPrio (q : RtRunQueue) : Option Nat := (List.range 128).reverse.find? q.prioBitmap

/-- Put an entry at the back of a queue. -/
def pushBack (q : RtRunQueue) (prio : Nat) (entry : SchedEntry) : RtRunQueue where
  prioQueues := update q.prioQueues prio (q.prioQueues prio ++ [entry])
  prioBitmap := update q.prioBitmap prio true
  nrRunning := q.nrRunning + 1

/-- `enqueue` with `at_head` false, as all callers have it. -/
def enqueue (q : RtRunQueue) (ents : Entities) (entry : SchedEntry) : RtRunQueue :=
  q.pushBack (ents entry.task).rt.level entry

def yieldTask (q : RtRunQueue) (ents : Entities) (current : SchedEntry) : RtRunQueue :=
  q.pushBack (ents current.task).rt.level current

/-- Take the first entry of the task out of a queue. -/
def remove (q : RtRunQueue) (prio task : Nat) : RtRunQueue :=
  let rest := (q.prioQueues prio).eraseP fun e => e.task = task
  { prioQueues := update q.prioQueues prio rest
    prioBitmap := if rest = [] then update q.prioBitmap prio false else q.prioBitmap
    nrRunning := q.nrRunning - 1 }

/-- Look for a task in the given queues. -/
def dequeueIn (q : RtRunQueue) (task : Nat) : List Nat → Option (SchedEntry × RtRunQueue)
  | [] => none
  | prio :: prios =>
    if q.prioBitmap prio = false then dequeueIn q task prios
    else
      match (q.prioQueues prio).find? fun e => e.task = task with
      | none => dequeueIn q task prios
      | some entry => some (entry, q.remove prio task)

def dequeue (q : RtRunQueue) (task : Nat) : Option (SchedEntry × RtRunQueue) :=
  if q.nrRunning = 0 then none else q.dequeueIn task (List.range' 1 99).reverse

def pickNext (q : RtRunQueue) : Option SchedEntry := do
  let highest ← q.highestPrio
  (q.prioQueues highest).head?

/-- A timer tick for the running task: whether it is to be switched away from. -/
def tick (q : RtRunQueue) (ents : Entities) (current : SchedEntry) (deltaNs : Nat) :
    Bool × Entities :=
  let e := ents current.task
  let prio := e.rt.level
  if (q.highestPrio.any fun highest => prio < highest) then (true, ents)
  else if e.policy = schedRr then
    let left := e.rt.timeSliceNs - deltaNs
    let charged := ents.modify current.task fun e => { e with rt := { e.rt with timeSliceNs := left } }
    if left ≠ 0 then (false, charged)
    else if q.prioQueues prio ≠ [] then (true, charged)
    else (false, charged.modify current.task fun e => { e with rt := e.rt.resetTimeSlice })
  else (false, ents)

end RtRunQueue

/-! ### The fair class -/

/-- Virtual deadline, virtual runtime and sequence number, in this order. -/
abbrev EevdfRunKey := Nat ×ₗ Nat ×ₗ Nat

/-- The key of an entry; one that yields is put back by one request. -/
def EevdfRunKey.of (ents : Entities) (entry : SchedEntry) (yielding : Bool) : EevdfRunKey :=
  let e := ents entry.task
  let penalty := if yielding then e.fair.request else 0
  toLex (satAdd e.fair.deadline penalty, toLex (e.fair.vruntime, e.seq))

structure EevdfRunQueue where
  queued : SortedMap EevdfRunKey SchedEntry
  current : Option SchedEntry
  sumWeight : Nat
  sumOffsetWeighted : Nat
  minVruntime : Nat

namespace EevdfRunQueue

variable (q : EevdfRunQueue)

def new : EevdfRunQueue := ⟨.empty, none, 0, 0, 0⟩

def nrQueued : Nat := q.queued.length

def nrRunning : Nat := q.queued.length + if q.current.isSome then 1 else 0

def avgVruntime : Nat :=
  if q.sumWeight = 0 then q.minVruntime
  else satAdd q.minVruntime (q.sumOffsetWeighted / q.sumWeight)

def isEligible (e : EevdfEntity) : Bool := e.vruntime ≤ q.avgVruntime

/-- The virtual runtimes of the running and the queued tasks. -/
def active (ents : Entities) : List Nat :=
  (q.current.toList ++ q.queued.values).map fun e => (ents e.task).fair.vruntime

def advanceMinVruntime (ents : Entities) : EevdfRunQueue :=
  match (q.active ents).min? with
  | none => q
  | some smallest =>
    let advance := smallest - q.minVruntime
    if advance = 0 then q
    else
      { q with
        minVruntime := smallest
        sumOffsetWeighted := q.sumOffsetWeighted - satMul advance q.sumWeight }

def chargeCurrent (ents : Entities) (deltaNs : Nat) : EevdfRunQueue × Entities :=
  if deltaNs = 0 then (q, ents)
  else
    match q.current with
    | none => (q, ents)
    | some current =>
      let before := (ents current.task).fair.vruntime
      let ents := ents.modify current.task fun e => { e with fair := e.fair.charge deltaNs }
      let after := (ents current.task).fair.vruntime
      let q := { q with
        sumOffsetWeighted := satAdd q.sumOffsetWeighted
          (satMul (after - before) (ents current.task).fair.weight) }
      if before = q.minVruntime then (q.advanceMinVruntime ents, ents) else (q, ents)

/-- `insert` with `counted` false, as all callers have it. -/
def insert (ents : Entities) (entry : SchedEntry) : EevdfRunQueue :=
  let e := (ents entry.task).fair
  { q with
    queued := q.queued.insert (EevdfRunKey.of ents entry false) entry
    sumWeight := satAdd q.sumWeight e.weight
    sumOffsetWeighted := satAdd q.sumOffsetWeighted (satMul (e.vruntime - q.minVruntime) e.weight) }

/-- The lag of a task that comes back, scaled by the change of the total weight. -/
def scaledLag (e : EevdfEntity) (isNew : Bool) : Int :=
  let lag := if isNew then 0 else e.lag
  let total := toI64 q.sumWeight
  if total = 0 then lag
  else Int.bmod ((lag * (total + e.weight)).tdiv total) (2 ^ 64)

/-- The virtual runtime at which a task is placed, before it is cut to 64 bits. -/
def placedVruntime (e : EevdfEntity) (isNew : Bool) : Int :=
  max (q.avgVruntime - q.scaledLag e isNew) q.minVruntime

def place (ents : Entities) (entry : SchedEntry) (isNew : Bool) : EevdfRunQueue × Entities :=
  let vruntime := (q.placedVruntime (ents entry.task).fair isNew % 2 ^ 64).toNat
  let q := if q.sumWeight = 0 then { q with minVruntime := max q.minVruntime vruntime } else q
  let ents := ents.modify entry.task fun e =>
    { e with fair := { e.fair with vruntime := vruntime, placed := true } }
  (q.insert ents entry, ents)

def unaccount (ents : Entities) (task : Nat) : EevdfRunQueue :=
  let e := (ents task).fair
  let vruntime := e.vruntime - q.minVruntime
  let q := { q with
    sumWeight := q.sumWeight - e.weight
    sumOffsetWeighted := q.sumOffsetWeighted - satMul vruntime e.weight }
  if vruntime = 0 then q.advanceMinVruntime ents else q

/-- Record the lag of a task that leaves, at most two requests either way. -/
def rememberLag (ents : Entities) (task : Nat) : Except Panic Entities :=
  let e := (ents task).fair
  let lag := toI64 q.avgVruntime - toI64 e.vruntime
  let limit := 2 * toI64 e.request
  if lag < -2 ^ 63 ∨ 2 ^ 63 ≤ lag ∨ 2 ^ 63 ≤ limit then .error .overflow
  else if limit < 0 then .error .assertion
  else
    .ok (ents.modify task fun e =>
      { e with fair := { e.fair with lag := max (-limit) (min lag limit) } })

/-- Take a queued task out, wherever it is filed. -/
def dequeue (ents : Entities) (task : Nat) :
    Except Panic (Option SchedEntry × EevdfRunQueue × Entities) :=
  match q.queued.entries.find? fun kv => kv.2.task = task with
  | none => .ok (none, q, ents)
  | some (key, entry) => do
    let q := { q with queued := q.queued.erase key }.unaccount ents entry.task
    let ents ← q.rememberLag ents entry.task
    .ok (some entry, q, ents)

/-- The eligible task with the earliest deadline, or the first of all. -/
def best (ents : Entities) : Option SchedEntry :=
  (q.queued.values.find? fun e => (ents e.task).fair.vruntime ≤ q.avgVruntime).or
    q.queued.values.head?

def winsOverCurrent (ents : Entities) (candidate : SchedEntry) (yielding : Bool) : Bool :=
  match q.current with
  | none => true
  | some current =>
    !q.isEligible (ents current.task).fair ||
      EevdfRunKey.of ents candidate false < EevdfRunKey.of ents current yielding

/-- Take out the task that was picked, by its key. -/
def extract (ents : Entities) (entry : SchedEntry) : Except Panic (SchedEntry × EevdfRunQueue) :=
  let key := EevdfRunKey.of ents entry false
  match q.queued.get? key with
  | none => .error .assertion
  | some extracted =>
    .ok (extracted, { q with queued := q.queued.erase key }.unaccount ents extracted.task)

end EevdfRunQueue

/-! ### Both classes -/

inductive UpdateFlags
  | tick
  | yield
  | wait
  | exit
  deriving DecidableEq

structure RunQueue where
  cpu : Option Nat
  current : Option SchedEntry
  rt : RtRunQueue
  eevdf : EevdfRunQueue
  /-- The idle task of this CPU and its arrival. -/
  idle : Option (Nat × Nat)
  lastUpdate : Nat
  lastFlags : UpdateFlags

def nsecPerTick : Nat := 1000000

/-- A run queue together with the entities of the tasks. -/
structure RqState where
  ents : Entities
  rq : RunQueue

namespace RunQueue

def new (cpu : Option Nat) : RunQueue := ⟨cpu, none, .new, .new, none, 0, .tick⟩

def isIdling (rq : RunQueue) : Bool := rq.current.any fun e => e.isIdle

def nrRunning (rq : RunQueue) : Nat :=
  rq.rt.nrRunning + rq.eevdf.nrRunning + if rq.current.any fun e => !e.isIdle then 1 else 0

def nrQueued (rq : RunQueue) : Nat := rq.rt.nrRunning + rq.eevdf.nrQueued

end RunQueue

namespace RqState

variable (s : RqState)

def isRt (entry : SchedEntry) : Bool := (s.ents entry.task).isRt

/-- Charge the running task, if it is a fair one, for `deltaNs`. -/
def chargeNs (deltaNs : Nat) : RqState :=
  match s.rq.current with
  | none => s
  | some current =>
    if current.isIdle || s.isRt current then s
    else
      let (eevdf, ents) := s.rq.eevdf.chargeCurrent s.ents deltaNs
      ⟨ents, { s.rq with eevdf := eevdf }⟩

def charge (now : Nat) : RqState :=
  let delta := now - s.rq.lastUpdate
  let s := { s with rq := { s.rq with lastUpdate := now } }
  if delta = 0 then s else s.chargeNs (satMul delta nsecPerTick)

def place (entry : SchedEntry) (isNew : Bool) : RqState :=
  if s.isRt entry then { s with rq := { s.rq with rt := s.rq.rt.enqueue s.ents entry } }
  else
    let (eevdf, ents) := s.rq.eevdf.place s.ents entry isNew
    ⟨ents, { s.rq with eevdf := eevdf }⟩

def shouldSwitch : Bool × RqState :=
  match s.rq.current with
  | none => (false, s)
  | some current =>
    if current.isIdle then (0 < s.rq.nrRunning, s)
    else if s.isRt current then
      let (switch, ents) := s.rq.rt.tick s.ents current nsecPerTick
      (switch, { s with ents := ents })
    else if s.rq.rt.hasTasks then (true, s)
    else
      ((s.rq.eevdf.best s.ents).any fun best => s.rq.eevdf.winsOverCurrent s.ents best false, s)

/-- The real-time task to switch to, if there is one. -/
def pickRt (yielding : Bool) : Option SchedEntry :=
  if s.rq.rt.hasTasks then
    match s.rq.rt.pickNext with
    | none => none
    | some candidate =>
      match s.rq.current with
      | none => some candidate
      | some current =>
        let c := s.ents current.task
        let e := s.ents candidate.task
        if current.isIdle || !c.isRt || yielding || c.rt.priority < e.rt.priority ||
            (e.rt.priority == c.rt.priority && c.policy == schedRr && c.rt.timeSliceNs == 0) then
          some candidate
        else none
  else none

def pickFair (yielding : Bool) : Option SchedEntry :=
  if s.rq.current.any (fun current => s.isRt current && !yielding) then none
  else (s.rq.eevdf.best s.ents).filter fun best =>
    s.rq.eevdf.winsOverCurrent s.ents best yielding

def pickNext (yielding : Bool) : Option SchedEntry :=
  (s.pickRt yielding).or (s.pickFair yielding)

/-- Take the task that is to run out of its queue. -/
def takeOut (next : SchedEntry) : Except Panic (SchedEntry × RunQueue) :=
  if s.isRt next then
    match s.rq.rt.dequeue next.task with
    | none => .error .assertion
    | some (entry, rt) => .ok (entry, { s.rq with rt := rt })
  else do
    let (entry, eevdf) ← s.rq.eevdf.extract s.ents next
    .ok (entry, { s.rq with eevdf := eevdf })

/-- Put the task that ran until now back into a queue. -/
def putBack (now : Nat) (current : SchedEntry) : RqState :=
  if current.isIdle then s
  else
    let current := { current with arrival := now }
    if s.isRt current then
      let ents := if (s.ents current.task).policy = schedRr then
          s.ents.modify current.task fun e => { e with rt := e.rt.resetTimeSlice }
        else s.ents
      let rt := if s.rq.lastFlags = .yield then s.rq.rt.yieldTask ents current
        else s.rq.rt.enqueue ents current
      ⟨ents, { s.rq with rt := rt }⟩
    else { s with rq := { s.rq with eevdf := s.rq.eevdf.insert s.ents current } }

/-- Let `next` run and tell the fair class about it. -/
def dispatch (next : SchedEntry) : RqState :=
  let ents := match s.rq.cpu with
    | none => s.ents
    | some cpu => s.ents.modify next.task fun e => { e with lastCpu := some cpu }
  let fairNext := if next.isIdle || s.isRt next then none else some next
  ⟨ents, { s.rq with current := some next, eevdf := { s.rq.eevdf with current := fairNext } }⟩

def install (now : Nat) (next : SchedEntry) (fromQueue : Bool) : Except Panic RqState := do
  let (next, rq) ← if fromQueue then s.takeOut next else .ok (next, s.rq)
  let s : RqState := ⟨s.ents, rq⟩
  match s.rq.current with
  | none => .ok (s.dispatch next)
  | some current => .ok ((s.putBack now current).dispatch next)

def dequeueCurrent : Except Panic (Option SchedEntry × RqState) :=
  if s.rq.isIdling then .ok (none, s)
  else
    match s.rq.current with
    | none => .ok (none, s)
    | some current =>
      let rq := { s.rq with current := none }
      if s.isRt current then .ok (some current, ⟨s.ents, rq⟩)
      else do
        let eevdf := { rq.eevdf with current := none }
        let ents ← eevdf.rememberLag s.ents current.task
        .ok (some current, ⟨ents, { rq with eevdf := eevdf.unaccount ents current.task }⟩)

/-- `start_idling`, where `fresh` is the idle task that is made when there is none yet. -/
def startIdling (now fresh : Nat) : Except Panic RqState :=
  if s.rq.isIdling then .ok s
  else
    let idle := s.rq.idle.getD (fresh, now)
    { s with rq := { s.rq with idle := some idle } }.install now ⟨idle.1, idle.2, true⟩ false

def setParams (task : Nat) (policy priority nice : Int) : RqState :=
  { s with ents := s.ents.modify task fun e => e.setParams policy priority nice }

end RqState

end Petra.Sched
