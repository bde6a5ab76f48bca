import Petra.Base.Run
import Petra.Base.SortedMap

/-! # poll, select and epoll_wait

A caller looks at its files one after the other. If none is ready it appends its waker to the
wait queues and sleeps until it is woken, and then looks again. Whoever makes a file ready
notifies afterwards, which wakes the callers that are in the global queue by then. A change
that falls between a caller's look and its registration is not seen by either side.
-/

namespace Petra.Fs

open Base Function

/-- Event bits. -/
abbrev PollMask : Type := BitVec 16

namespace PollMask

def IN : PollMask := 0x0001
def PRI : PollMask := 0x0002
def OUT : PollMask := 0x0004
def ERR : PollMask := 0x0008
def HUP : PollMask := 0x0010
def NVAL : PollMask := 0x0020

/-- Bits reported regardless of what the caller asked for. -/
def ALWAYS : PollMask := ERR ||| HUP ||| NVAL

end PollMask

open PollMask

/-- An entry of an interest list. The events are the ones that are not behaviour flags. -/
structure EpollItem where
  file : Nat
  events : PollMask
  edge : Bool
  oneshot : Bool
  exclusive : Bool
  disabled : Bool
  lastPoll : PollMask
  deriving DecidableEq

namespace EpollItem

/-- What a scan reports of the item, given what its file reports. -/
def matched (item : EpollItem) (ready : PollMask) : PollMask :=
  ready &&& (item.events ||| ERR ||| HUP)

/-- Whether a scan counts the item. -/
def hits (item : EpollItem) (ready : PollMask) : Bool :=
  !item.disabled && item.matched ready != 0 &&
    (!item.edge || item.matched ready != item.lastPoll)

/-- The item after a scan of it. -/
def scanned (item : EpollItem) (ready : PollMask) : EpollItem :=
  if item.disabled then item
  else if item.edge then
    if item.hits ready then
      { item with lastPoll := item.matched ready, disabled := item.oneshot }
    else if item.matched ready = 0 then { item with lastPoll := 0 } else item
  else
    { item with lastPoll := item.matched ready, disabled := item.hits ready && item.oneshot }

end EpollItem

/-- What a call waits for: descriptors with the events asked for, or an epoll instance and how
many events it has room for. A descriptor that is not open has no file. -/
inductive Watch
  | poll (fds : List (Option Nat × PollMask))
  | select (fds : List (Option Nat × Bool × Bool × Bool))
  | epoll (epoll maxEvents : Nat)
  deriving DecidableEq

/-- One thing a scan looks at. -/
inductive Probe
  | pollFd (file : Option Nat) (events : PollMask)
  | selectFd (file : Option Nat) (read write except : Bool)
  | item (epoll index : Nat)
  deriving DecidableEq

/-- The events that `select` takes for being readable, writable or exceptional. -/
def selectWants (read write except : Bool) : List PollMask :=
  (if read then [IN ||| HUP ||| ERR] else []) ++ (if write then [OUT ||| ERR] else []) ++
    (if except then [PRI] else [])

/-- A queue of wakers. -/
inductive PollQueue
  | global
  | own (epoll : Nat)
  deriving DecidableEq

/-- Where a call is. A scan has things left to look at and has counted some. -/
inductive PollPhase
  | starting
  | scanning (left : List Probe) (count : Nat) (exclusive : Bool)
  | registering (left : List PollQueue)
  | waiting
  | returned (count : Nat)
  deriving DecidableEq

/-- A call. `poll` and `select` scan once before they make a waker. -/
structure PollCaller where
  watch : Watch
  prescan : Bool
  phase : PollPhase
  woken : Bool
  deriving DecidableEq

namespace Watch

def prescans : Watch → Bool
  | epoll _ _ => false
  | _ => true

/-- The queues a waker goes to, in order. -/
def queues : Watch → List PollQueue
  | epoll e _ => [.own e, .global]
  | _ => [.global]

/-- Whether a scan stops once it has counted this many. -/
def isFull : Watch → Nat → Bool
  | epoll _ maxEvents, count => maxEvents ≤ count
  | _, _ => false

end Watch

/-- The files, the callers and the sources of events. `settled` records the events that have been
there ever since a change whose notification is complete. -/
structure PollSystem where
  ready : Nat → PollMask
  items : Nat → List EpollItem
  lock : Nat → Option Nat
  callers : SortedMap Nat PollCaller
  queue : PollQueue → List Nat
  /-- The sources between a change and its notification, with the events of the file that have
  been there ever since. -/
  pending : SortedMap Nat (Nat × PollMask)
  notifyPending : Bool
  works : Nat
  working : Nat
  /-- Changes whose notification was left to the work queue. -/
  deferred : List (Nat × PollMask)
  settled : Nat → PollMask

/-- The steps of callers, of sources and of the work queue. -/
inductive PollOp
  | call (caller : Nat) (watch : Watch)
  | start (caller : Nat)
  | scan (caller : Nat)
  | register (caller : Nat)
  | resume (caller : Nat)
  | change (source file : Nat) (events : PollMask)
  | notify (source : Nat)
  | notifyIrq (source : Nat)
  | work
  | workWake
  deriving DecidableEq

namespace PollSystem

variable (s : PollSystem)

/-- No calls, nothing ready. -/
def init (items : Nat → List EpollItem) : PollSystem where
  ready _ := 0
  items := items
  lock _ := none
  callers := .empty
  queue _ := []
  pending := .empty
  notifyPending := false
  works := 0
  working := 0
  deferred := []
  settled _ := 0

/-- What a scan looks at, in order. -/
def probes : Watch → List Probe
  | .poll fds => fds.map (fun fd => .pollFd fd.1 fd.2)
  | .select fds => fds.map (fun fd => .selectFd fd.1 fd.2.1 fd.2.2.1 fd.2.2.2)
  | .epoll e _ => (List.range (s.items e).length).map (.item e)

/-- Whether a scan counts what it looks at. -/
def hits : Probe → Bool
  | .pollFd none _ => true
  | .pollFd (some f) events => s.ready f &&& (events ||| ALWAYS) != 0
  | .selectFd none _ _ _ => false
  | .selectFd (some f) read write except =>
    (selectWants read write except).any fun want => s.ready f &&& want != 0
  | .item e i => (s.items e)[i]?.any (fun item => item.hits (s.ready item.file))

/-- How much a scan counts. `select` counts every set that it puts a descriptor in. -/
def counts : Probe → Nat
  | .selectFd (some f) read write except =>
    (selectWants read write except).countP fun want => s.ready f &&& want != 0
  | _ => 1

/-- Whether something counted is an item that only one waiter is to be woken for. -/
def isExclusive : Probe → Bool
  | .item e i => (s.items e)[i]?.any (fun item => item.exclusive)
  | _ => false

/-- A scan leaves its mark on the items of an interest list. -/
def mark : Probe → PollSystem
  | .item e i =>
    let scanned := (s.items e).modify i (fun item => item.scanned (s.ready item.file))
    { s with items := update s.items e scanned }
  | _ => s

def setCaller (c : Nat) (caller : PollCaller) : PollSystem :=
  { s with callers := s.callers.insert c caller }

/-- Wake the callers in a queue and empty it. -/
def wakeAll (q : PollQueue) : PollSystem :=
  { s with
    callers := s.callers.mapValues
      (fun c caller => { caller with woken := caller.woken || decide (c ∈ s.queue q) })
    queue := update s.queue q [] }

/-- The lock of the interest list is free again. -/
def unlock : Watch → PollSystem
  | .epoll e _ => { s with lock := update s.lock e none }
  | _ => s

/-- What happens once a scan has looked at everything. -/
def finishScan (c : Nat) (caller : PollCaller) (count : Nat) (exclusive : Bool) : PollSystem :=
  let s := s.unlock caller.watch
  if 0 < count then
    let s := s.setCaller c { caller with phase := .returned count }
    match caller.watch with
    | .epoll e maxEvents =>
      if !exclusive && count < maxEvents then s.wakeAll (.own e) else s
    | _ => s
  else if caller.prescan then s.setCaller c { caller with prescan := false, phase := .starting }
  else s.setCaller c { caller with phase := .registering caller.watch.queues }

/-- The events of changes count as notified. -/
def settle (changes : List (Nat × PollMask)) : PollSystem :=
  { s with settled := fun f =>
      changes.foldr (fun e m => if e.1 = f then m ||| e.2 else m) (s.settled f) }

/-- What is left of the events of an earlier change when a file changes. -/
def stillThere (f : Nat) (events : PollMask) (e : Nat × PollMask) : Nat × PollMask :=
  (e.1, if e.1 = f then e.2 &&& events else e.2)

/-- A file changes what it reports. -/
def changed (source f : Nat) (events : PollMask) : PollSystem :=
  { s with
    ready := update s.ready f events
    settled := update s.settled f (s.settled f &&& events)
    pending := (s.pending.mapValues (fun _ e => stillThere f events e)).insert source (f, events)
    deferred := s.deferred.map (stillThere f events) }

def step : PollOp → Except Unit PollSystem
  | .call c watch =>
    match s.callers.get? c with
    | none => .ok (s.setCaller c ⟨watch, watch.prescans, .starting, false⟩)
    | some _ => .error ()
  | .start c =>
    match s.callers.get? c with
    | some ⟨watch, prescan, .starting, woken⟩ =>
      let s' := s.setCaller c ⟨watch, prescan, .scanning (s.probes watch) 0 false, woken⟩
      match watch with
      | .epoll e _ =>
        if (s.lock e).isNone then .ok { s' with lock := update s.lock e (some c) }
        else .error ()
      | _ => .ok s'
    | _ => .error ()
  | .scan c =>
    match s.callers.get? c with
    | some ⟨watch, prescan, .scanning (p :: rest) count exclusive, woken⟩ =>
      if s.hits p then
        .ok ((s.mark p).setCaller c ⟨watch, prescan, .scanning
          (if watch.isFull (count + s.counts p) then [] else rest) (count + s.counts p)
          (exclusive || s.isExclusive p), woken⟩)
      else .ok ((s.mark p).setCaller c ⟨watch, prescan, .scanning rest count exclusive, woken⟩)
    | some ⟨watch, prescan, .scanning [] count exclusive, woken⟩ =>
      .ok (s.finishScan c ⟨watch, prescan, .scanning [] count exclusive, woken⟩ count exclusive)
    | _ => .error ()
  | .register c =>
    match s.callers.get? c with
    | some ⟨watch, prescan, .registering (q :: rest), woken⟩ =>
      let s := { s with queue := update s.queue q (s.queue q ++ [c]) }
      .ok (s.setCaller c ⟨watch, prescan,
        if rest.isEmpty then .waiting else .registering rest, woken⟩)
    | _ => .error ()
  | .resume c =>
    match s.callers.get? c with
    | some ⟨watch, prescan, .waiting, true⟩ =>
      .ok (s.setCaller c ⟨watch, prescan, .starting, false⟩)
    | _ => .error ()
  | .change source f events =>
    match s.pending.get? source with
    | none => .ok (s.changed source f events)
    | some _ => .error ()
  | .notify source =>
    match s.pending.get? source with
    | some e => .ok ({ s.wakeAll .global with pending := s.pending.erase source }.settle [e])
    | none => .error ()
  | .notifyIrq source =>
    match s.pending.get? source with
    | some e =>
      .ok { s with
        pending := s.pending.erase source
        deferred := e :: s.deferred
        notifyPending := true
        works := if s.notifyPending then s.works else s.works + 1 }
    | none => .error ()
  | .work =>
    if 0 < s.works then
      .ok { s with works := s.works - 1, working := s.working + 1, notifyPending := false }
    else .error ()
  | .workWake =>
    if 0 < s.working then
      .ok ({ s.wakeAll .global with working := s.working - 1, deferred := [] }.settle s.deferred)
    else .error ()

/-- The files and events that something looked at asks for. -/
def asks : Probe → List (Nat × PollMask)
  | .pollFd none _ => []
  | .pollFd (some f) events => [(f, events ||| ALWAYS)]
  | .selectFd none _ _ _ => []
  | .selectFd (some f) read write except => (selectWants read write except).map (f, ·)
  | .item e i =>
    match (s.items e)[i]? with
    | some item => if item.disabled then [] else [(item.file, item.events ||| ERR ||| HUP)]
    | none => []

/-- A caller sleeps though a file it watches has been ready for an event it asked for ever since
a change whose notification is complete. -/
def Forgotten (c : Nat) : Prop :=
  ∃ caller, s.callers.get? c = some caller ∧ caller.phase = .waiting ∧ caller.woken = false ∧
    ∃ p ∈ s.probes caller.watch, ∃ a ∈ s.asks p, s.settled a.1 &&& a.2 ≠ 0

/-- What a caller has looked at since it last began, if it is about to register. -/
def passed (caller : PollCaller) : List Probe :=
  match caller.phase with
  | .scanning left count _ =>
    if caller.prescan = false ∧ count = 0 then
      (s.probes caller.watch).take ((s.probes caller.watch).length - left.length)
    else []
  | .registering _ => s.probes caller.watch
  | _ => []

/-- No file turns ready for an event while a caller that asks for it has already looked at the
file and is not yet in the global queue. -/
def Calm : PollOp → Prop
  | .change _ f events => ∀ e ∈ s.callers.entries, ∀ p ∈ s.passed e.2, ∀ a ∈ s.asks p,
      a.1 = f → events &&& a.2 = 0
  | _ => True

instance (op : PollOp) : Decidable (s.Calm op) := by
  cases op <;> unfold Calm <;> infer_instance

end PollSystem

end Petra.Fs
