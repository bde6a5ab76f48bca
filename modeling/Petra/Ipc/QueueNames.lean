import Petra.Ipc.KeyTable

/-! # Names of POSIX message queues

`mq_open` looks the name up in one section and enters a new queue in a later one, over whatever
queue has the name by then. `mq_unlink` takes the name away.
-/

namespace Petra.Ipc

open Base Function Nat IpcState

def oCreat : Nat := 0o100
def oExcl : Nat := 0o200
def mqNameMax : Nat := 255
def defaultMaxmsg : Nat := 10
def defaultMsgsize : Nat := 8192
def mqMaxMsgsize : Nat := 1 <<< 20
def mqMaxMsgCount : Nat := 65535
def mqMaxQueueBytes : Nat := 8 <<< 20

/-- The parts of a queue that its creation sets. -/
structure Mqueue where
  name : String
  maxmsg : Nat
  msgsize : Nat
  mode : Nat
  ownerUid : Nat
  ownerGid : Nat
  deriving DecidableEq

structure OpenArgs where
  name : String
  oflags : Nat
  mode : Nat
  /-- The attributes, if the caller gives any: messages and bytes of a message. -/
  attrs : Option (Nat × Nat)
  cred : Ucred
  deriving DecidableEq

namespace OpenArgs

def creates (a : OpenArgs) : Bool := a.oflags &&& oCreat != 0

/-- `O_CREAT` and `O_EXCL`. -/
def exclusive (a : OpenArgs) : Bool := a.creates && a.oflags &&& oExcl != 0

def wantsWrite (a : OpenArgs) : Bool := a.oflags &&& 1 != 0

def sizes (a : OpenArgs) : Nat × Nat := a.attrs.getD (defaultMaxmsg, defaultMsgsize)

end OpenArgs

def accessPermits (queue : Mqueue) (cred : Ucred) (wantsWrite : Bool) : Except Errno Unit :=
  if cred.isRoot then .ok ()
  else
    let bits :=
      if cred.crUid = queue.ownerUid then (queue.mode >>> 6) &&& 0o7
      else if cred.crGid = queue.ownerGid then (queue.mode >>> 3) &&& 0o7
      else queue.mode &&& 0o7
    let needed := if wantsWrite then 0o2 else 0o4
    if bits &&& needed ≠ 0 then .ok () else .error .EACCES

/-- Where a call is. Queues have numbers; a call returns the number of its queue. -/
inductive MqCall
  | idle
  | creating (a : OpenArgs)
  | returned (result : Except Errno Nat)
  deriving DecidableEq

structure MqState where
  registry : String → Option Nat
  heap : Nat → Mqueue
  /-- The number of the next queue. -/
  next : Nat
  calls : Nat → MqCall
  /-- History: the queues that `mq_unlink` has removed. -/
  unlinked : Nat → Bool
  /-- History: how many calls with `O_CREAT` and `O_EXCL` have succeeded for a name since it
  was last unlinked. -/
  exclusives : String → Nat

/-- The sections of the calls. -/
inductive MqOp
  | look (call : Nat) (a : OpenArgs)
  | insert (call : Nat)
  | unlink (call : Nat) (name : String)

namespace MqState

def setCall (s : MqState) (call : Nat) (c : MqCall) : MqState :=
  { s with calls := update s.calls call c }

/-- `queue_open` up to the entry of a new queue. -/
def queueOpen (s : MqState) (a : OpenArgs) : MqCall :=
  if a.name.isEmpty ∨ a.name.utf8ByteSize > mqNameMax then .returned (.error .EINVAL)
  else
    match s.registry a.name with
    | some queue =>
      if a.exclusive then .returned (.error .EEXIST)
      else .returned ((accessPermits (s.heap queue) a.cred a.wantsWrite).map fun _ => queue)
    | none =>
      let (maxmsg, msgsize) := a.sizes
      if !a.creates then .returned (.error .ENOENT)
      else if maxmsg = 0 ∨ maxmsg > mqMaxMsgCount ∨ msgsize = 0 ∨ msgsize > mqMaxMsgsize ∨
          maxmsg * msgsize > mqMaxQueueBytes then
        .returned (.error .EINVAL)
      else .creating a

def make (a : OpenArgs) : Mqueue where
  name := a.name
  maxmsg := a.sizes.1
  msgsize := a.sizes.2
  mode := a.mode &&& 0o7777
  ownerUid := a.cred.crUid
  ownerGid := a.cred.crGid

/-- Enter the new queue. -/
def insertQueue (s : MqState) (call : Nat) (a : OpenArgs) : MqState :=
  { s with
    registry := update s.registry a.name (some s.next)
    heap := update s.heap s.next (make a)
    next := s.next + 1
    calls := update s.calls call (.returned (.ok s.next))
    exclusives :=
      if a.exclusive then update s.exclusives a.name (s.exclusives a.name + 1)
      else s.exclusives }

def queueUnlink (s : MqState) (call : Nat) (name : String) : MqState :=
  match s.registry name with
  | none => s.setCall call (.returned (.error .ENOENT))
  | some queue =>
    { s with
      registry := update s.registry name none
      calls := update s.calls call (.returned (.ok 0))
      unlinked := update s.unlinked queue true
      exclusives := update s.exclusives name 0 }

/-- One section of a call. A section that its call cannot take now is not a step. -/
def step (s : MqState) : MqOp → Except Unit MqState
  | .look call a =>
    match s.calls call with
    | .idle => .ok (s.setCall call (s.queueOpen a))
    | _ => .error ()
  | .insert call =>
    match s.calls call with
    | .creating a => .ok (s.insertQueue call a)
    | _ => .error ()
  | .unlink call name =>
    match s.calls call with
    | .idle => .ok (s.queueUnlink call name)
    | _ => .error ()

def initial : MqState where
  registry := fun _ => none
  heap := fun _ => ⟨"", 0, 0, 0, 0, 0⟩
  next := 0
  calls := fun _ => .idle
  unlinked := fun _ => false
  exclusives := fun _ => 0

/-- The name of a new queue is still free. -/
def Uncontested (s : MqState) : MqOp → Prop
  | .insert call =>
    match s.calls call with
    | .creating a => s.registry a.name = none
    | _ => True
  | _ => True

/-- A queue that was created and not unlinked. -/
def Live (s : MqState) (queue : Nat) : Prop := queue < s.next ∧ s.unlinked queue = false

/-- What every state of the registry is to satisfy. -/
structure NamesHold (s : MqState) : Prop where
  /-- At most one exclusive creation of a name succeeds between two removals. -/
  exclusive : ∀ name, s.exclusives name ≤ 1
  /-- No two queues have the same name. -/
  apart : ∀ queue queue', s.Live queue → s.Live queue' →
    (s.heap queue).name = (s.heap queue').name → queue = queue'
  /-- A name in the registry is that of its queue. -/
  named : ∀ name queue, s.registry name = some queue →
    s.Live queue ∧ (s.heap queue).name = name

/-- A name keeps its queue, or the queue is unlinked. -/
def NamesStay (s s' : MqState) : Prop :=
  ∀ name queue, s.registry name = some queue →
    s'.registry name = some queue ∨ s.Live queue ∧ ¬s'.Live queue

/-- Queues and names belong together. -/
structure Named (s : MqState) : Prop where
  named : ∀ name queue, s.registry name = some queue →
    s.Live queue ∧ (s.heap queue).name = name
  bound : ∀ queue, s.Live queue → s.registry (s.heap queue).name = some queue
  exclusive : ∀ name, s.exclusives name = 0 ∨ s.exclusives name = 1 ∧ s.registry name ≠ none
  fresh : ∀ queue, s.next ≤ queue → s.unlinked queue = false

variable {s s' : MqState} {call : Nat}

namespace Named

theorem setCall (h : s.Named) (c : MqCall) : (s.setCall call c).Named :=
  ⟨h.named, h.bound, h.exclusive, h.fresh⟩

theorem insertQueue (h : s.Named) {a : OpenArgs} (hfree : s.registry a.name = none) :
    (s.insertQueue call a).Named := by
  have hold : ∀ queue, s.Live queue → (s.insertQueue call a).Live queue ∧
      (s.insertQueue call a).heap queue = s.heap queue := fun queue hlive =>
    ⟨⟨hlive.1.trans (lt_succ_self _), hlive.2⟩, update_of_ne hlive.1.ne ..⟩
  refine ⟨?_, ?_, ?_, ?_⟩
  · intro name queue hname
    rcases update_eq_cases hname with ⟨rfl, hnew⟩ | ⟨-, hname⟩
    · cases hnew
      refine ⟨⟨lt_succ_self _, h.fresh _ le_rfl⟩, ?_⟩
      dsimp only [MqState.insertQueue]
      rw [update_self]
      rfl
    · obtain ⟨hlive, hheap⟩ := h.named name queue hname
      exact ⟨(hold queue hlive).1, by rw [(hold queue hlive).2, hheap]⟩
  · intro queue hlive
    by_cases hnew : queue = s.next
    · subst hnew
      dsimp only [MqState.insertQueue]
      rw [update_self]
      exact update_self ..
    have hlive' : s.Live queue := ⟨lt_of_le_of_ne (Nat.lt_succ_iff.mp hlive.1) hnew, hlive.2⟩
    have hbound := h.bound queue hlive'
    rw [(hold queue hlive').2]
    dsimp only [MqState.insertQueue]
    rw [update_of_ne, hbound]
    intro hname
    rw [hname, hfree] at hbound
    cases hbound
  · intro name
    dsimp only [MqState.insertQueue]
    by_cases hname : name = a.name
    · subst hname
      have hzero : s.exclusives a.name = 0 := (h.exclusive _).resolve_right fun hone => hone.2 hfree
      rw [update_self]
      split_ifs
      · rw [update_self, hzero]
        exact .inr ⟨rfl, Option.some_ne_none _⟩
      · exact .inl hzero
    · rw [update_of_ne hname]
      split_ifs
      · rw [update_of_ne hname]
        exact h.exclusive name
      · exact h.exclusive name
  · intro queue hle
    exact h.fresh queue ((le_succ _).trans hle)

theorem queueUnlink (h : s.Named) (name : String) : (s.queueUnlink call name).Named := by
  unfold MqState.queueUnlink
  cases hname : s.registry name with
  | none => exact h.setCall _
  | some queue =>
    obtain ⟨hlive, hheap⟩ := h.named name queue hname
    refine ⟨?_, ?_, ?_, ?_⟩
    · intro name' queue' hname'
      dsimp only at hname' ⊢
      have hne : name' ≠ name := by
        rintro rfl
        rw [update_self] at hname'
        cases hname'
      rw [update_of_ne hne] at hname'
      obtain ⟨hlive', hheap'⟩ := h.named name' queue' hname'
      refine ⟨⟨hlive'.1, ?_⟩, hheap'⟩
      dsimp only
      rw [update_of_ne, hlive'.2]
      rintro rfl
      exact hne (hheap'.symm.trans hheap)
    · intro queue' hlive'
      obtain ⟨hlt, hunlinked⟩ := hlive'
      dsimp only at hlt hunlinked ⊢
      have hne : queue' ≠ queue := by
        rintro rfl
        rw [update_self] at hunlinked
        cases hunlinked
      rw [update_of_ne hne] at hunlinked
      have hbound := h.bound queue' ⟨hlt, hunlinked⟩
      rw [update_of_ne, hbound]
      intro heq
      rw [heq, hname] at hbound
      exact hne (Option.some.inj hbound).symm
    · intro name'
      dsimp only
      by_cases hne : name' = name
      · rw [hne, update_self]
        exact .inl rfl
      · rw [update_of_ne hne, update_of_ne hne]
        exact h.exclusive name'
    · intro queue' hle
      dsimp only at hle ⊢
      rw [update_of_ne, h.fresh queue' hle]
      exact (hlive.1.trans_le hle).ne'

theorem step (h : s.Named) {op : MqOp} (hun : s.Uncontested op)
    (hstep : MqState.step s op = .ok s') : s'.Named := by
  cases op <;> dsimp only [MqState.step] at hstep
  case look call a =>
    split at hstep
    · cases hstep
      exact h.setCall _
    · cases hstep
  case insert call =>
    dsimp only [Uncontested] at hun
    split at hstep
    next a hcall =>
      rw [hcall] at hun
      cases hstep
      exact h.insertQueue hun
    · cases hstep
  case unlink call name =>
    split at hstep
    · cases hstep
      exact h.queueUnlink name
    · cases hstep

theorem namesHold (h : s.Named) : s.NamesHold where
  exclusive := fun name => by
    rcases h.exclusive name with hzero | hone
    · rw [hzero]
      exact zero_le 1
    · exact hone.1.le
  apart := fun queue queue' hlive hlive' hname => by
    have hbound := h.bound queue hlive
    rw [hname, h.bound queue' hlive'] at hbound
    exact (Option.some.inj hbound).symm
  named := h.named

theorem namesStay (h : s.Named) {op : MqOp} (hun : s.Uncontested op)
    (hstep : MqState.step s op = .ok s') : s.NamesStay s' := by
  intro name queue hname
  cases op <;> dsimp only [MqState.step] at hstep
  case look call a =>
    split at hstep
    · cases hstep
      exact .inl hname
    · cases hstep
  case insert call =>
    dsimp only [Uncontested] at hun
    split at hstep
    next a hcall =>
      rw [hcall] at hun
      cases hstep
      refine .inl ?_
      dsimp only [MqState.insertQueue]
      rw [update_of_ne, hname]
      rintro rfl
      rw [hun] at hname
      cases hname
    · cases hstep
  case unlink call name' =>
    split at hstep
    · cases hstep
      unfold MqState.queueUnlink
      by_cases hne : name = name'
      · rw [← hne, hname]
        refine .inr ⟨(h.named name queue hname).1, ?_⟩
        rintro ⟨-, hunlinked⟩
        dsimp only at hunlinked
        rw [update_self] at hunlinked
        cases hunlinked
      · refine .inl ?_
        cases s.registry name' with
        | none => exact hname
        | some queue' =>
          dsimp only
          rw [update_of_ne hne, hname]
    · cases hstep

end Named

theorem named_initial : initial.Named where
  named := nofun
  bound := fun _ h => absurd h.1 (not_lt_zero _)
  exclusive := fun _ => .inl rfl
  fresh := fun _ _ => rfl

theorem named_of_visits (h : Visits step Uncontested initial s) : s.Named :=
  h.invariant (I := Named) named_initial fun _ _ _ hs hun hstep => hs.step hun hstep

end MqState

/-! ## Over all families -/

/-- In every run whose creations find their key still free, and whose segments are removed
once, keys and names belong to one object each, and a removal takes away only its own. -/
theorem keys_of_visits {F : Family} {s : IpcState} {q : MqState}
    (hs : Visits (IpcState.step F) IpcState.Uncontested .initial s)
    (hq : Visits MqState.step MqState.Uncontested .initial q) : (s.KeysHold ∧
      ∀ op s', s.Uncontested op → IpcState.step F s op = .ok s' → s.KeysStay s') ∧
    q.NamesHold ∧ ∀ op q', q.Uncontested op → MqState.step q op = .ok q' → q.NamesStay q' := by
  constructor
  · obtain ⟨hkeyed, hkept⟩ := keyed_of_visits hs
    exact ⟨hkeyed.keysHold, fun op s' hun hstep =>
      (change_step hkept hun hstep).keysStay hkeyed⟩
  · have hnamed := MqState.named_of_visits hq
    exact ⟨hnamed.namesHold, fun op q' hun hstep => hnamed.namesStay hun hstep⟩

/-- Root creates a set for key 7, exclusively. -/
def exclusiveArgs : GetArgs := ⟨7, 1, ipcCreat ||| ipcExcl ||| 0o600, ⟨0, 0⟩⟩

/-- A set is created, removed and created again. A second call that looks the key up while the
set is there fails. -/
theorem keys_createdAgain : ∃ s, Visits (IpcState.step .sem) IpcState.Uncontested .initial s ∧
      s.KeysHold ∧ s.keys 7 = some 5 ∧
      s.calls 1 = .returned (.error .EEXIST) ∧ s.calls 3 = .returned (.ok 5) := by
  obtain ⟨s, hs, hseen⟩ := exists_visits (step .sem) IpcState.Uncontested .initial
    [.look 0 exclusiveArgs, .create 0 4 true, .look 1 exclusiveArgs,
      .lookRemoval 2 4 ⟨0, 0⟩, .remove 2, .look 3 exclusiveArgs, .create 3 5 true]
    (fun s => s.keys 7 = some 5 ∧ s.calls 1 = .returned (.error .EEXIST) ∧
      s.calls 3 = .returned (.ok 5)) (by decide)
  exact ⟨s, hs, (keys_of_visits hs .start).1.1, hseen⟩

/-- The key of the object of an id. -/
def IpcState.keyOf (s : IpcState) (id : Int) : Option Int :=
  (s.objects.get? id).map fun obj => (s.heap obj).key

/-- Two exclusive creations look the key up before either has created its set. Both succeed,
both sets have the key, and the removal of the first leaves the second without it. -/
theorem two_exclusive : (Base.run (IpcState.step .sem) .initial
      [.look 0 exclusiveArgs, .look 1 exclusiveArgs, .create 0 4 true, .create 1 5 true]).map
      (fun s => ([s.calls 0, s.calls 1], s.exclusives 7, [s.keyOf 4, s.keyOf 5, s.keys 7])) =
      .ok ([.returned (.ok 4), .returned (.ok 5)], 2, [some 7, some 7, some 5]) ∧
    (Base.run (IpcState.step .sem) .initial
      [.look 0 exclusiveArgs, .look 1 exclusiveArgs, .create 0 4 true, .create 1 5 true,
        .lookRemoval 2 4 ⟨0, 0⟩, .remove 2]).map
      (fun s => (s.calls 2, [s.keyOf 4, s.keyOf 5, s.keys 7])) =
      .ok (.returned (.ok 0), [none, some 7, none]) := by
  constructor <;> decide

end Petra.Ipc
