import Petra.Ipc.QueueNames

/-! # Messages of a POSIX message queue

The messages and the count of their bytes have locks of their own. The statement that changes the
count takes its lock for the new value and once more for the place, and holds both to its end.
-/

namespace Petra.Ipc

open Base List

structure MqMsg where
  prio : Nat
  data : List UInt8

def Mqueue.capacity (queue : Mqueue) : Nat := queue.maxmsg * queue.msgsize

inductive MqLock
  | msgs
  | bytes
  deriving DecidableEq

/-- Why a section is not passed. -/
inductive MqStop
  | notThere
  | deadlock
  deriving DecidableEq

/-- Take a lock. Whoever holds it already waits for ever. -/
def MqLock.acquire (l : MqLock) (held : List MqLock) : Except MqStop (List MqLock) :=
  if l ∈ held then .error .deadlock else .ok (l :: held)

/-- The section that an attempt to send or to receive comes to next. -/
inductive Attempt
  | sendRoom (msg : MqMsg)
  | sendCount (msg : MqMsg)
  | sendPush (msg : MqMsg)
  | recvCount (msg : MqMsg)

/-- A queue and the attempts under way. `received` is a history. -/
structure MqTransfer where
  queue : Mqueue
  msgs : List MqMsg
  bytes : Nat
  attempts : List Attempt
  received : List MqMsg

inductive TransferOp
  | send (msg : MqMsg)
  | recv
  | next (i : Nat)

/-- The place of the first message of the highest priority, where `best` is the first one of the
messages before `i`. -/
def bestFrom (best prio i : Nat) : List MqMsg → Nat
  | [] => best
  | msg :: msgs =>
    if msg.prio > prio then bestFrom i msg.prio (i + 1) msgs else bestFrom best prio (i + 1) msgs

namespace MqTransfer

/-- `*queue.bytes.lock() = value`, where the value is read from `queue.bytes.lock()`. -/
def setBytes (s : MqTransfer) (value : Nat → Nat) : Except MqStop MqTransfer := do
  let held ← MqLock.bytes.acquire []
  let _ ← MqLock.bytes.acquire held
  .ok { s with bytes := value s.bytes }

/-- The next section of an attempt. -/
def advance (s : MqTransfer) (i : Nat) : Attempt → Except MqStop MqTransfer
  | .sendRoom msg =>
    if s.msgs.length ≥ s.queue.maxmsg then .ok { s with attempts := s.attempts.eraseIdx i }
    else .ok { s with attempts := s.attempts.set i (.sendCount msg) }
  | .sendCount msg => do
    let s ← s.setBytes fun bytes => min (bytes + msg.data.length) (2 ^ 64 - 1)
    .ok { s with attempts := s.attempts.set i (.sendPush msg) }
  | .sendPush msg =>
    .ok { s with msgs := s.msgs ++ [msg], attempts := s.attempts.eraseIdx i }
  | .recvCount msg => do
    let s ← s.setBytes fun bytes => bytes - msg.data.length
    .ok { s with attempts := s.attempts.eraseIdx i, received := msg :: s.received }

def step (s : MqTransfer) : TransferOp → Except MqStop MqTransfer
  | .send msg =>
    if s.bytes + msg.data.length > s.queue.capacity then .ok s
    else .ok { s with attempts := .sendRoom msg :: s.attempts }
  | .recv =>
    match s.msgs with
    | [] => .ok s
    | first :: msgs =>
      let best := bestFrom 0 first.prio 1 msgs
      .ok { s with
        msgs := s.msgs.eraseIdx best
        attempts := .recvCount (s.msgs.getD best first) :: s.attempts }
  | .next i =>
    match s.attempts[i]? with
    | none => .error .notThere
    | some attempt => s.advance i attempt

def start (queue : Mqueue) : MqTransfer := ⟨queue, [], 0, [], []⟩

/-- The attempt has not changed anything yet. -/
def Early : Attempt → Prop
  | .sendRoom _ | .sendCount _ => True
  | .sendPush _ | .recvCount _ => False

/-- Nothing ever comes into the queue. -/
structure Unused (queue : Mqueue) (s : MqTransfer) : Prop where
  queue : s.queue = queue
  msgs : s.msgs = []
  bytes : s.bytes = 0
  received : s.received = []
  early : ∀ attempt ∈ s.attempts, Early attempt

variable {queue : Mqueue} {s s' : MqTransfer} {op : TransferOp}

theorem Unused.step (h : s.Unused queue) (op : TransferOp) :
    (∃ s', s.step op = .ok s' ∧ s'.Unused queue) ∨ s.step op = .error .notThere ∨
      s.step op = .error .deadlock ∧ ∃ i msg, op = .next i ∧
        s.attempts[i]? = some (.sendCount msg) := by
  cases op with
  | send msg =>
    dsimp only [MqTransfer.step]
    split_ifs
    · exact .inl ⟨_, rfl, h⟩
    · exact .inl ⟨_, rfl, { h with early := forall_mem_cons.mpr ⟨trivial, h.early⟩ }⟩
  | recv =>
    simp only [MqTransfer.step, h.msgs]
    exact .inl ⟨_, rfl, h⟩
  | next i =>
    dsimp only [MqTransfer.step]
    split
    · exact .inr (.inl rfl)
    next attempt hi =>
      have hearly := h.early attempt (mem_of_getElem? hi)
      cases attempt with
      | sendRoom msg =>
        dsimp only [advance]
        split_ifs <;> refine .inl ⟨_, rfl, { h with early := fun a ha => ?_ }⟩
        · exact h.early a (mem_of_mem_eraseIdx ha)
        · rcases mem_or_eq_of_mem_set ha with hold | rfl
          · exact h.early a hold
          · trivial
      | sendCount msg => exact .inr (.inr ⟨rfl, i, msg, rfl, hi⟩)
      | sendPush msg => exact hearly.elim
      | recvCount msg => exact hearly.elim

/-- The queue stays empty. An attempt that finds no room or no message comes to its end, and one
that finds room waits for a lock that it holds. -/
theorem unused_of_visits (h : Visits MqTransfer.step (fun _ _ => True) (start queue) s) :
    s.msgs.length ≤ queue.maxmsg ∧ s.bytes = (s.msgs.map fun msg => msg.data.length).sum ∧
      s.received = [] ∧ (s.step op = .error .deadlock →
        ∃ i msg, op = .next i ∧ s.attempts[i]? = some (.sendCount msg)) := by
  have hs : s.Unused queue := by
    refine h.invariant (I := Unused queue) ⟨rfl, rfl, rfl, rfl, nofun⟩ fun t op t' ht _ hstep => ?_
    rcases ht.step op with ⟨_, hok, hunused⟩ | hstop | ⟨hstop, _⟩
    · cases hstep.symm.trans hok
      exact hunused
    · cases hstep.symm.trans hstop
    · cases hstep.symm.trans hstop
  rw [hs.msgs, hs.bytes, hs.received]
  refine ⟨Nat.zero_le _, rfl, rfl, fun hdeadlock => ?_⟩
  rcases hs.step op with ⟨_, hok, _⟩ | hstop | ⟨_, hcount⟩
  · cases hdeadlock.symm.trans hok
  · cases hdeadlock.symm.trans hstop
  · exact hcount

def tenMessages : Mqueue := ⟨"/q", 10, 8192, 0o600, 0, 0⟩

/-- The attempt that waits for its own lock has found room. -/
theorem unused_sendCount : ∃ s, run MqTransfer.step (start tenMessages) [.send ⟨0, [7]⟩, .next 0] =
    .ok s ∧ s.step (.next 0) = .error .deadlock ∧
      ∃ i msg, TransferOp.next 0 = .next i ∧ s.attempts[i]? = some (.sendCount msg) := by
  have hrun : run MqTransfer.step (start tenMessages) [.send ⟨0, [7]⟩, .next 0] = .ok _ := rfl
  exact ⟨_, hrun, rfl, (unused_of_visits (.of_run .start (fun _ _ _ => trivial) hrun)).2.2.2 rfl⟩

/-- The first message that is sent is never received. -/
theorem first_send_deadlocks :
    run MqTransfer.step (start tenMessages) [.send ⟨0, [7]⟩, .next 0, .next 0] =
      .error .deadlock :=
  rfl

end MqTransfer

end Petra.Ipc
