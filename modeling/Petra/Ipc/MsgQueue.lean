import Petra.Base.Bytes
import Petra.Base.Run
import Petra.Kernel

/-! # System V message queues

`msgrcv` selects a message by its type and takes it out. The bytes and the messages of the queue
are counted besides. A call that has to wait tries the same again under the lock of the queue.
-/

namespace Petra.Ipc.Msg

open Base List

def msgmax : Nat := 8192
def msgmnb : Nat := 16384
def i64Max : Int := 2 ^ 63 - 1

structure Message where
  mtype : Int
  mtext : Bytes
  deriving DecidableEq

/-- The loop for a negative type, from message `i` on. The lowest type so far is `minTyp`, first
found at `best`. -/
def lowestFrom (maxTyp minTyp : Int) (best : Option Nat) (i : Nat) : List Message → Option Nat
  | [] => best
  | m :: rest =>
    if m.mtype ≤ maxTyp ∧ m.mtype < minTyp then lowestFrom maxTyp m.mtype (some i) (i + 1) rest
    else lowestFrom maxTyp minTyp best (i + 1) rest

/-- `find_message_index` without `MSG_COPY`. -/
def findMessageIndex (messages : List Message) (msgtyp : Int) (except : Bool) :
    Except Panic (Option Nat) :=
  if msgtyp = 0 then .ok (if messages = [] then none else some 0)
  else if msgtyp > 0 then
    .ok (messages.findIdx? fun m => if except then m.mtype ≠ msgtyp else m.mtype = msgtyp)
  else if msgtyp = -2 ^ 63 then .error .overflow
  else .ok (lowestFrom (-msgtyp) i64Max none 0 messages)

/-- A queue. `accepted` and `received` are histories, the latter with the texts returned. -/
structure MsgQueue where
  messages : List Message
  cbytes : Nat
  qnum : Nat
  qbytes : Nat
  accepted : List Message
  received : List (Message × Bytes)

inductive MsgOp
  | snd (mtype : Int) (mtext : Bytes)
  | rcv (msgsz : Nat) (msgtyp : Int) (except noerror : Bool)

namespace MsgQueue

def start : MsgQueue := ⟨[], 0, 0, msgmnb, [], []⟩

def msgSnd (q : MsgQueue) (mtype : Int) (mtext : Bytes) : MsgQueue :=
  if mtype ≤ 0 ∨ mtext.length > msgmax then q -- `EINVAL`
  else if q.cbytes + mtext.length ≤ q.qbytes ∧ q.qnum < msgmnb then
    { q with
      messages := q.messages ++ [⟨mtype, mtext⟩]
      cbytes := q.cbytes + mtext.length
      qnum := q.qnum + 1
      accepted := ⟨mtype, mtext⟩ :: q.accepted }
  else q -- `EAGAIN`, or the call waits

/-- Message `i` is taken out, and as much of its text returned as the caller has room for. -/
def take (q : MsgQueue) (i : Nat) (m : Message) (msgsz : Nat) : MsgQueue :=
  { q with
    messages := q.messages.eraseIdx i
    cbytes := q.cbytes - m.mtext.length
    qnum := q.qnum - 1
    received := (m, m.mtext.take msgsz) :: q.received }

def msgRcv (q : MsgQueue) (msgsz : Nat) (msgtyp : Int) (except noerror : Bool) :
    Except Panic MsgQueue := do
  match ← findMessageIndex q.messages msgtyp except with
  | none => .ok q -- `ENOMSG`, or the call waits
  | some i =>
    match q.messages[i]? with
    | none => .error .assertion
    | some m =>
      if m.mtext.length > msgsz ∧ noerror = false then .ok q -- `E2BIG`
      else if q.cbytes < m.mtext.length ∨ q.qnum = 0 then .error .overflow
      else .ok (q.take i m msgsz)

def step (q : MsgQueue) : MsgOp → Except Panic MsgQueue
  | .snd mtype mtext => .ok (q.msgSnd mtype mtext)
  | .rcv msgsz msgtyp except noerror => q.msgRcv msgsz msgtyp except noerror

end MsgQueue

/-! ## What is selected -/

/-- The messages that a type asks for. -/
def Wanted (msgtyp : Int) (except : Bool) (m : Message) : Prop :=
  if msgtyp = 0 then True
  else if msgtyp > 0 then if except then m.mtype ≠ msgtyp else m.mtype = msgtyp
  else m.mtype ≤ -msgtyp

/-- Message `i` is the first that is asked for, and for a negative type the first of the lowest
type. -/
structure Selects (messages : List Message) (msgtyp : Int) (except : Bool) (i : Nat)
    (m : Message) : Prop where
  there : messages[i]? = some m
  wanted : Wanted msgtyp except m
  first : ∀ j m', messages[j]? = some m' → Wanted msgtyp except m' →
    (msgtyp < 0 ∧ m.mtype < m'.mtype) ∨ (msgtyp < 0 → m.mtype = m'.mtype) ∧ i ≤ j

variable {messages : List Message} {msgtyp : Int} {except : Bool} {i : Nat} {m : Message}

/-- The loop ends with what it had, or with the first message of the lowest type. -/
theorem lowestFrom_spec (maxTyp minTyp : Int) (best : Option Nat) (i : Nat)
    (messages : List Message) : lowestFrom maxTyp minTyp best i messages = best ∧
        (∀ m ∈ messages, m.mtype ≤ maxTyp → minTyp ≤ m.mtype) ∨
      ∃ x ∈ messages.zipIdx i, lowestFrom maxTyp minTyp best i messages = some x.2 ∧
        x.1.mtype ≤ maxTyp ∧ x.1.mtype < minTyp ∧ ∀ y ∈ messages.zipIdx i, y.1.mtype ≤ maxTyp →
          x.1.mtype < y.1.mtype ∨ x.1.mtype = y.1.mtype ∧ x.2 ≤ y.2 := by
  induction messages generalizing minTyp best i with
  | nil => exact .inl ⟨rfl, nofun⟩
  | cons m rest ih =>
    unfold lowestFrom
    simp only [zipIdx_cons, forall_mem_cons, exists_mem_cons_iff]
    by_cases hm : m.mtype ≤ maxTyp ∧ m.mtype < minTyp
    · rw [if_pos hm]
      rcases ih m.mtype (some i) (i + 1) with ⟨hr, hall⟩ | ⟨x, hx, hr, hmax, hlow, hfirst⟩
      · refine .inr (.inl ⟨hr, hm.1, hm.2, fun _ => .inr ⟨trivial, le_rfl⟩, fun y hy hmax => ?_⟩)
        have hlow := hall y.1 (fst_mem_of_mem_zipIdx hy) hmax
        have hlater := le_snd_of_mem_zipIdx hy
        omega
      · exact .inr (.inr ⟨x, hx, hr, hmax, by omega, fun _ => .inl hlow, hfirst⟩)
    · rw [if_neg hm]
      rcases ih minTyp best (i + 1) with ⟨hr, hall⟩ | ⟨x, hx, hr, hmax, hlow, hfirst⟩
      · exact .inl ⟨hr, by omega, hall⟩
      · exact .inr (.inr ⟨x, hx, hr, hmax, hlow, by omega, hfirst⟩)

theorem findIdx?_spec {p : Message → Bool} (hnonneg : ¬msgtyp < 0)
    (hp : ∀ m, p m = true ↔ Wanted msgtyp except m) :
    (∀ i, messages.findIdx? p = some i → ∃ m, Selects messages msgtyp except i m) ∧
      (messages.findIdx? p = none → ∀ m ∈ messages, ¬Wanted msgtyp except m) := by
  refine ⟨fun i hi => ?_, fun hnone m hm => ?_⟩
  · obtain ⟨hlt, hwanted, hbefore⟩ := List.findIdx?_eq_some_iff_getElem.mp hi
    refine ⟨messages[i], List.getElem?_eq_getElem hlt, (hp _).mp hwanted, fun j m' hj hm' => ?_⟩
    refine .inr ⟨fun h => absurd h hnonneg, not_lt.mp fun hji => hbefore j hji ?_⟩
    obtain ⟨_, rfl⟩ := List.getElem?_eq_some_iff.mp hj
    exact (hp _).mpr hm'
  · rw [← hp, List.findIdx?_eq_none_iff.mp hnone m hm]
    exact Bool.false_ne_true

theorem findMessageIndex_spec (hmin : -i64Max < msgtyp) :
    ∃ r, findMessageIndex messages msgtyp except = .ok r ∧
      (∀ i, r = some i → ∃ m, Selects messages msgtyp except i m) ∧
      (r = none → ∀ m ∈ messages, ¬Wanted msgtyp except m) := by
  have hfirst : (if messages = [] then none else some 0) = messages.findIdx? fun _ => true := by
    cases messages <;> rfl
  unfold findMessageIndex i64Max at *
  rw [hfirst]
  by_cases hzero : msgtyp = 0
  · rw [if_pos hzero]
    exact ⟨_, rfl, findIdx?_spec (by omega) fun m => by simp [Wanted, hzero]⟩
  by_cases hpos : msgtyp > 0
  · rw [if_neg hzero, if_pos hpos]
    refine ⟨_, rfl, findIdx?_spec (by omega) fun m => ?_⟩
    cases except <;> simp [Wanted, hzero, hpos]
  rw [if_neg hzero, if_neg hpos, if_neg (by omega)]
  have hwanted : ∀ m, Wanted msgtyp except m ↔ m.mtype ≤ -msgtyp := by
    simp [Wanted, hzero, hpos]
  refine ⟨_, rfl, ?_⟩
  rcases lowestFrom_spec (-msgtyp) (2 ^ 63 - 1) none 0 messages with
    ⟨hr, hall⟩ | ⟨x, hx, hr, hmax, -, hfirst⟩ <;> rw [hr]
  · refine ⟨nofun, fun _ m hm hm' => ?_⟩
    rw [hwanted] at hm'
    have hlow := hall m hm hm'
    omega
  · refine ⟨?_, nofun⟩
    rintro i ⟨⟩
    refine ⟨x.1, mem_zipIdx_iff_getElem?.mp hx, (hwanted _).mpr hmax, fun j m' hj hm' => ?_⟩
    have hlow := hfirst (m', j) (mem_zipIdx_iff_getElem?.mpr hj) ((hwanted m').mp hm')
    exact hlow.imp (fun h => ⟨by omega, h⟩) fun h => ⟨fun _ => h.1, h.2⟩

/-- Whatever a call asks for, it gets the first message of some type. -/
theorem ne_of_findMessageIndex (h : findMessageIndex messages msgtyp except = .ok (some i))
    (hm : messages[i]? = some m) {j : Nat} {m' : Message} (hj : messages[j]? = some m')
    (hlt : j < i) : m'.mtype ≠ m.mtype := by
  intro htype
  unfold findMessageIndex at h
  split at h
  · split at h <;> cases h
    cases hlt
  split at h
  · obtain ⟨_, htest, hbefore⟩ := findIdx?_eq_some_iff_getElem.mp (Except.ok.inj h)
    obtain ⟨_, rfl⟩ := List.getElem?_eq_some_iff.mp hm
    obtain ⟨_, rfl⟩ := List.getElem?_eq_some_iff.mp hj
    exact hbefore j hlt (htype ▸ htest)
  split at h
  · cases h
  rcases lowestFrom_spec (-msgtyp) i64Max none 0 messages with
    ⟨hr, -⟩ | ⟨x, hx, hr, hmax, -, hfirst⟩ <;> cases hr.symm.trans (Except.ok.inj h)
  rw [mem_zipIdx_iff_getElem?, hm] at hx
  cases hx
  rcases hfirst (m', j) (mem_zipIdx_iff_getElem?.mpr hj) (htype ▸ hmax) with hlow | ⟨-, hle⟩
  · exact hlow.ne htype.symm
  · exact hle.not_gt hlt

/-! ## What is counted -/

namespace MsgQueue

structure Sound (q : MsgQueue) : Prop where
  bytes : q.cbytes = (q.messages.map fun m => m.mtext.length).sum
  room : q.cbytes ≤ q.qbytes
  count : q.qnum = q.messages.length
  /-- Every accepted message was received once or is in the queue. -/
  kept : q.accepted.Perm (q.received.map Prod.fst ++ q.messages)

variable {q q' : MsgQueue} {op : MsgOp}

theorem Sound.take (h : q.Sound) (hm : q.messages[i]? = some m) (msgsz : Nat) :
    (q.take i m msgsz).Sound ∧ ¬(q.cbytes < m.mtext.length ∨ q.qnum = 0) := by
  obtain ⟨hlt, rfl⟩ := List.getElem?_eq_some_iff.mp hm
  have hperm := (List.getElem_cons_eraseIdx_perm hlt).symm
  have hbytes := h.bytes.trans (hperm.map fun m => m.mtext.length).sum_eq
  have hcount := h.count.trans hperm.length_eq
  rw [List.map_cons, List.sum_cons] at hbytes
  rw [List.length_cons] at hcount
  refine ⟨⟨?_, (Nat.sub_le _ _).trans h.room, ?_, ?_⟩, by omega⟩
  · exact Nat.sub_eq_of_eq_add' hbytes
  · exact Nat.sub_eq_of_eq_add hcount
  · exact h.kept.trans ((hperm.append_left _).trans List.perm_middle)

/-- A send that finds room and a receive keep the counters and lose no message. -/
theorem Sound.step (h : q.Sound) (hstep : q.step op = .ok q') : q'.Sound := by
  cases op with
  | snd mtype mtext =>
    cases hstep
    unfold msgSnd
    split_ifs with _ hroom
    · exact h
    · refine ⟨by simp [h.bytes], hroom.1, by simp [h.count], ?_⟩
      rw [← append_assoc]
      exact (h.kept.cons _).trans (perm_append_singleton _ _).symm
    · exact h
  | rcv msgsz msgtyp except noerror =>
    obtain ⟨r, -, hstep⟩ := ok_of_bind hstep
    cases r with
    | none =>
      cases hstep
      exact h
    | some i =>
      dsimp only at hstep
      split at hstep
      · cases hstep
      next m hm =>
        split_ifs at hstep <;> cases hstep
        · exact h
        · exact (h.take hm msgsz).1

/-- In every run the counts are right, and what was accepted was received once, unchanged, or is
in the queue. A type that is 0, positive or above `-i64::MAX` gets the message it asks for. -/
theorem transferred_of_visits (h : Visits MsgQueue.step (fun _ _ => True) start q)
    (hmin : -i64Max < msgtyp) (msgsz : Nat) (except noerror : Bool) :
    q.Sound ∧ ∃ q', q.step (.rcv msgsz msgtyp except noerror) = .ok q' ∧
      (q' = q ∧ (∀ m ∈ q.messages, ¬Wanted msgtyp except m) ∨
        ∃ i m, Selects q.messages msgtyp except i m ∧
          q' = if m.mtext.length > msgsz ∧ noerror = false then q else q.take i m msgsz) := by
  have hq : q.Sound := h.invariant (I := Sound) ⟨rfl, Nat.zero_le _, rfl, .refl _⟩
    fun _ _ _ hq _ hstep => hq.step hstep
  refine ⟨hq, ?_⟩
  obtain ⟨r, hfind, hsome, hnone⟩ := @findMessageIndex_spec q.messages msgtyp except hmin
  simp only [MsgQueue.step, msgRcv, hfind]
  cases r with
  | none => exact ⟨q, rfl, .inl ⟨rfl, hnone rfl⟩⟩
  | some i =>
    obtain ⟨m, hm⟩ := hsome i rfl
    refine ⟨_, ?_, .inr ⟨i, m, hm, rfl⟩⟩
    change (match q.messages[i]? with | none => _ | some m => _) = _
    rw [hm.there]
    dsimp only
    rw [if_neg (hq.take hm.there msgsz).2]
    split_ifs <;> rfl

/-- Of two messages the one of the lower type is received, and its text cut. -/
theorem transferred_lowest : ∃ q, run MsgQueue.step start [.snd 9 [1], .snd 4 [2, 3]] = .ok q ∧
    q.Sound ∧ q.step (.rcv 1 (-9) false true) = .ok (q.take 1 ⟨4, [2, 3]⟩ 1) := by
  have hrun : run MsgQueue.step start [.snd 9 [1], .snd 4 [2, 3]] = .ok _ := rfl
  have hvisits := Visits.of_run .start (fun _ _ _ => trivial) hrun
  exact ⟨_, hrun, (transferred_of_visits hvisits (show -i64Max < -9 by decide) 1 false true).1, rfl⟩

/-- Who asks for all types up to `i64::MAX` does not get a message of this type, and who asks for
`i64::MIN` is stopped by an overflow. -/
theorem not_transferred_max : Wanted (-i64Max) false ⟨i64Max, [1]⟩ ∧
    (run MsgQueue.step start [.snd i64Max [1], .rcv 8 (-i64Max) false false]).map
      (fun q => (q.messages, q.received)) = .ok ([⟨i64Max, [1]⟩], []) ∧
    (run MsgQueue.step start [.rcv 8 (-2 ^ 63) false false]).map MsgQueue.received =
      .error .overflow := by
  refine ⟨?_, rfl, rfl⟩
  simp [Wanted, i64Max]

/-! ### Order within a type -/

/-- The messages of a type, in order. -/
def ofType (t : Int) (messages : List Message) : List Message :=
  messages.filter fun m => m.mtype = t

/-- Of each type, the messages that were accepted are those received and those in the queue, in
this order. -/
def Ordered (q : MsgQueue) : Prop :=
  ∀ t, ofType t q.accepted.reverse =
    ofType t (q.received.reverse.map Prod.fst) ++ ofType t q.messages

/-- The first message of its type is taken out. -/
theorem ofType_eraseIdx (hm : messages[i]? = some m)
    (hfirst : ∀ j m', messages[j]? = some m' → j < i → m'.mtype ≠ m.mtype) (t : Int) :
    ofType t messages = ofType t [m] ++ ofType t (messages.eraseIdx i) := by
  unfold ofType
  induction messages generalizing i with
  | nil => cases hm
  | cons a rest ih =>
    cases i with
    | zero =>
      cases hm
      exact filter_append [m] rest
    | succ i =>
      have hrest := ih hm fun j m' hj hlt => hfirst (j + 1) m' hj (Nat.succ_lt_succ hlt)
      have ha := hfirst 0 a rfl i.succ_pos
      by_cases htype : a.mtype = t
      · simp [htype, hrest, htype ▸ ha.symm]
      · simp [htype, hrest]

/-- A receive takes the oldest message of its type. -/
theorem Ordered.step (h : q.Ordered) (hstep : q.step op = .ok q') : q'.Ordered := by
  cases op with
  | snd mtype mtext =>
    cases hstep
    unfold msgSnd
    split_ifs
    · exact h
    · intro t
      have ht := h t
      unfold ofType at ht ⊢
      rw [reverse_cons, filter_append, ht, filter_append, append_assoc]
    · exact h
  | rcv msgsz msgtyp except noerror =>
    obtain ⟨r, hr, hstep⟩ := ok_of_bind hstep
    cases r with
    | none =>
      cases hstep
      exact h
    | some i =>
      dsimp only at hstep
      split at hstep
      · cases hstep
      next m hm =>
        split_ifs at hstep <;> cases hstep
        · exact h
        · intro t
          have ht := h t
          rw [ofType_eraseIdx hm fun j m' hj hlt => ne_of_findMessageIndex hr hm hj hlt] at ht
          simp only [MsgQueue.take, ofType] at ht ⊢
          rw [ht]
          simp

/-- **Messages of one type keep their order.** However sends and receives of all types take turns,
the messages of a type are received in the order in which they were accepted. -/
theorem ordered_of_visits (h : Visits MsgQueue.step (fun _ _ => True) start q) : q.Ordered :=
  h.invariant (fun _ => rfl) fun _ _ _ hq _ hstep => hq.step hstep

theorem ordered_lowestFirst : ∃ q, run MsgQueue.step start
      [.snd 9 [1], .snd 4 [2], .snd 9 [3], .rcv 8 (-9) false false, .rcv 8 4 true false] = .ok q ∧
    q.received = [(⟨9, [1]⟩, [1]), (⟨4, [2]⟩, [2])] ∧ q.Ordered := by
  have hrun : run MsgQueue.step start [.snd 9 [1], .snd 4 [2], .snd 9 [3],
    .rcv 8 (-9) false false, .rcv 8 4 true false] = .ok _ := rfl
  exact ⟨_, hrun, rfl, ordered_of_visits (.of_run .start (fun _ _ _ => trivial) hrun)⟩

end MsgQueue

end Petra.Ipc.Msg
