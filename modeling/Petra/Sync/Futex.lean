import Petra.Base.Run
import Petra.Kernel

/-! # Waiting on a futex word

A wait call reads the word, compares it with the value it expects, and only then takes the
lock of the table to append itself. A wake call takes waiters out of the table. The steps of
any number of calls interleave with stores to the word.
-/

namespace Petra.Sync

open Base Function

/-- A key identifying a futex word in the table. -/
structure FutexKey where
  spaceId : Nat
  uaddr : Nat
  deriving DecidableEq

/-- Shared futexes have space 0, private ones the address of their `Vmar`. -/
def FutexKey.new (isPrivate : Bool) (vmar uaddr : Nat) : FutexKey :=
  ⟨if isPrivate then vmar else 0, uaddr⟩

def futexBitsetMatchAny : UInt32 := 0xffffffff

/-- An entry of the table. The `woken` flag is shared with one wait call, whose number it is. -/
structure FutexWaiter where
  woken : Nat
  bitset : UInt32
  deriving DecidableEq

/-- Where a wait call is. -/
inductive WaitCall
  | idle
  /-- The word had the expected value when it was read. -/
  | compared (key : FutexKey) (val bitset : UInt32)
  /-- The call has appended itself to the table and waits. -/
  | waiting (key : FutexKey) (val : UInt32)
  | returned
  deriving DecidableEq

/-- The steps of waiters and wakers. -/
inductive FutexStep
  | compare (call : Nat) (isPrivate : Bool) (val bitset : UInt32)
  | append (call : Nat)
  /-- Woken, timed out or interrupted. -/
  | leave (call : Nat)
  | store (val : UInt32)
  | wake (isPrivate : Bool) (val bitset : UInt32)

/-- Take at most `left` waiters that match, in the order of the queue. The waiters that stay
come first, then the flags of those that were taken. -/
def wakeLoop (bitset : UInt32) : (left : Nat) → List FutexWaiter → List FutexWaiter × List Nat
  | _, [] => ([], [])
  | 0, ws => (ws, [])
  | left + 1, w :: ws =>
    if w.bitset &&& bitset ≠ 0 then
      let (rest, flags) := wakeLoop bitset left ws
      (rest, w.woken :: flags)
    else
      let (rest, flags) := wakeLoop bitset (left + 1) ws
      (w :: rest, flags)

theorem sublist_wakeLoop (bitset : UInt32) (left : Nat) (ws : List FutexWaiter) :
    (wakeLoop bitset left ws).1.Sublist ws := by
  fun_induction wakeLoop bitset left ws with
  | case1 => exact .slnil
  | case2 => exact List.Sublist.refl _
  | case3 left w ws hmatch rest flags heq ih =>
    rw [heq] at ih
    exact ih.cons w
  | case4 left w ws hmiss rest flags heq ih =>
    rw [heq] at ih
    exact ih.cons_cons w

/-- The table, and the wait calls with their flags. -/
structure FutexQueues where
  /-- `FUTEX_TABLE`. A key that is not in the table has no waiters. -/
  table : FutexKey → List FutexWaiter
  woken : Nat → Bool
  calls : Nat → WaitCall

namespace FutexQueues

def setCall (s : FutexQueues) (call : Nat) (c : WaitCall) : FutexQueues :=
  { s with calls := update s.calls call c }

def wakeWaiters (s : FutexQueues) (key : FutexKey) (val bitset : UInt32) : FutexQueues :=
  let (rest, flags) := wakeLoop bitset val.toNat (s.table key)
  { s with
    table := update s.table key rest
    woken := fun flag => s.woken flag || flags.contains flag }

def pushWaiter (s : FutexQueues) (key : FutexKey) (w : FutexWaiter) : FutexQueues :=
  { s with table := update s.table key (s.table key ++ [w]) }

def removeWaiter (s : FutexQueues) (key : FutexKey) (flag : Nat) : FutexQueues :=
  { s with
    table := update s.table key ((s.table key).filter fun w => w.woken ≠ flag) }

end FutexQueues

/-- One word, and calls that wait on it and wake it. -/
structure FutexSystem extends FutexQueues where
  word : UInt32
  /-- History: some store that changed the word has not yet been followed by a completed wake
  of all waiters under the key. -/
  unwoken : FutexKey → Bool

namespace FutexSystem

open FutexQueues (setCall wakeWaiters pushWaiter removeWaiter)

/-- A wake that is to reach every waiter under its key. -/
def WakesAll (s : FutexSystem) (key : FutexKey) (val bitset : UInt32) : Prop :=
  bitset = futexBitsetMatchAny ∧ (s.table key).length ≤ val.toNat
deriving Decidable

def wake (s : FutexSystem) (key : FutexKey) (val bitset : UInt32) : FutexSystem :=
  { s with
    toFutexQueues := s.wakeWaiters key val bitset
    unwoken := if s.WakesAll key val bitset then update s.unwoken key false
      else s.unwoken }

/-- `FUTEX_WAIT` up to the comparison. A call that sees another value returns `EAGAIN`, one
without bits `EINVAL`. -/
def compareWord (s : FutexSystem) (call : Nat) (key : FutexKey) (val bitset : UInt32) :
    FutexSystem :=
  { s with
    toFutexQueues := s.setCall call
      (if bitset ≠ 0 ∧ s.word = val then .compared key val bitset else .returned) }

def appendWaiter (s : FutexSystem) (call : Nat) (key : FutexKey) (val bitset : UInt32) :
    FutexSystem :=
  { s with toFutexQueues := (s.pushWaiter key ⟨call, bitset⟩).setCall call (.waiting key val) }

def leave (s : FutexSystem) (call : Nat) (key : FutexKey) : FutexSystem :=
  { s with toFutexQueues := (s.removeWaiter key call).setCall call .returned }

def storeWord (s : FutexSystem) (val : UInt32) : FutexSystem :=
  { s with
    word := val
    unwoken := if val = s.word then s.unwoken else fun _ => true }

/-- One step on the word at `uaddr` of the address space `vmar`. A step that its call cannot
take now is not a step. -/
def step (vmar uaddr : Nat) (s : FutexSystem) : FutexStep → Except Unit FutexSystem
  | .compare call isPrivate val bitset =>
    match s.calls call with
    | .idle => .ok (s.compareWord call (FutexKey.new isPrivate vmar uaddr) val bitset)
    | _ => .error ()
  | .append call =>
    match s.calls call with
    | .compared key val bitset => .ok (s.appendWaiter call key val bitset)
    | _ => .error ()
  | .leave call =>
    match s.calls call with
    | .waiting key _ => .ok (s.leave call key)
    | _ => .error ()
  | .store val => .ok (s.storeWord val)
  | .wake isPrivate val bitset =>
    if bitset = 0 then .ok s
    else .ok (s.wake (FutexKey.new isPrivate vmar uaddr) val bitset)

/-- Nobody waits yet. -/
def initial (word : UInt32) : FutexSystem where
  word := word
  table := fun _ => []
  woken := fun _ => false
  calls := fun _ => .idle
  unwoken := fun _ => false

/-- A waiter in the table expects the value of the word, or a store has still to be followed
by a wake. -/
def NoLostWake (s : FutexSystem) : Prop :=
  ∀ key, ∀ w ∈ s.table key, ∀ val, s.calls w.woken = .waiting key val →
    val = s.word ∨ s.unwoken key = true

/-- A call appends itself while the word has the value it compared, or while a store that
changed the word has still to be followed by a wake. -/
def InTime (s : FutexSystem) : FutexStep → Prop
  | .append call =>
    match s.calls call with
    | .compared key val _ => val = s.word ∨ s.unwoken key = true
    | _ => True
  | _ => True

instance (s : FutexSystem) : (op : FutexStep) → Decidable (s.InTime op)
  | .append call =>
    match h : s.calls call with
    | .compared key val _ => decidable_of_iff (val = s.word ∨ s.unwoken key = true) (by simp [InTime, h])
    | .idle => .isTrue (by simp [InTime, h])
    | .waiting _ _ => .isTrue (by simp [InTime, h])
    | .returned => .isTrue (by simp [InTime, h])
  | .compare _ _ _ _ => .isTrue trivial
  | .leave _ => .isTrue trivial
  | .store _ => .isTrue trivial
  | .wake _ _ _ => .isTrue trivial

/-! ### The invariant -/

/-- What the table says of its waiters. -/
structure Tabled (s : FutexSystem) (key : FutexKey) (w : FutexWaiter) : Prop where
  bitset : w.bitset ≠ 0
  waiting : ∃ val, s.calls w.woken = .waiting key val ∧ (val = s.word ∨ s.unwoken key = true)

structure Sound (s : FutexSystem) : Prop where
  tabled : ∀ key, ∀ w ∈ s.table key, s.Tabled key w
  compared : ∀ call key val bitset, s.calls call = .compared key val bitset → bitset ≠ 0

variable {ws : List FutexWaiter} {w : FutexWaiter} {left : Nat} {bitset : UInt32}

/-- A wake of all waiters leaves none. -/
theorem wakeLoop_all (hbits : ∀ w ∈ ws, w.bitset ≠ 0)
    (hleft : ws.length ≤ left) : (wakeLoop futexBitsetMatchAny left ws).1 = [] := by
  induction ws generalizing left with
  | nil => cases left <;> rfl
  | cons w ws ih =>
    obtain ⟨left, rfl⟩ : ∃ n, left = n + 1 := ⟨left - 1, by simp at hleft; omega⟩
    have hmatch : w.bitset &&& futexBitsetMatchAny ≠ 0 := by
      have hany : w.bitset &&& futexBitsetMatchAny = w.bitset := UInt32.and_neg_one
      rw [hany]
      exact hbits w (.head _)
    have hrest := ih (fun w' hw' => hbits w' (.tail _ hw'))
      (show ws.length ≤ left by simpa using hleft)
    rw [wakeLoop, if_pos hmatch]
    exact hrest

variable {s s' : FutexSystem} {vmar uaddr : Nat}

theorem sound_initial (word : UInt32) : (initial word).Sound where
  tabled := by
    intro key w hw
    cases hw
  compared := by
    intro call key val bitset h
    cases h

variable {call : Nat} {key : FutexKey} {val : UInt32}

/-- What the table says survives a change to a call that is not waiting. -/
theorem Tabled.of_call (h : s.Tabled key w)
    {c : WaitCall} (hcall : ∀ key val, s.calls call ≠ .waiting key val)
    (hcalls : s'.calls = update s.calls call c) (hword : s'.word = s.word)
    (hunwoken : s'.unwoken = s.unwoken) : s'.Tabled key w := by
  obtain ⟨hbits, val, hwaiting, hval⟩ := h
  have hne : w.woken ≠ call := by
    intro heq
    rw [heq] at hwaiting
    exact hcall key val hwaiting
  refine ⟨hbits, val, ?_, ?_⟩
  · rw [hcalls, update_of_ne hne, hwaiting]
  · rwa [hword, hunwoken]

section

variable (h : s.Sound)

include h

theorem Sound.compareWord (hidle : s.calls call = .idle) (key : FutexKey) (val bitset : UInt32) :
    (s.compareWord call key val bitset).Sound where
  tabled := by
    intro key' w hw
    exact (h.tabled key' w hw).of_call (by simp [hidle]) rfl rfl rfl
  compared := by
    intro call' key' val' bitset' hcall'
    rcases update_eq_cases hcall' with ⟨-, hnew⟩ | ⟨-, hold⟩
    · split_ifs at hnew with htest
      cases hnew
      exact htest.1
    · exact h.compared call' key' val' bitset' hold

theorem Sound.appendWaiter (hcall : s.calls call = .compared key val bitset)
    (hintime : val = s.word ∨ s.unwoken key = true) :
    (s.appendWaiter call key val bitset).Sound where
  tabled := by
    have hold : ∀ key' w, w ∈ s.table key' →
        (s.appendWaiter call key val bitset).Tabled key' w := by
      intro key' w hw
      exact (h.tabled key' w hw).of_call (by simp [hcall]) rfl rfl rfl
    intro key' w hw
    by_cases hkey : key' = key
    · subst hkey
      simp only [FutexSystem.appendWaiter, setCall, pushWaiter, update_self, List.mem_append,
        List.mem_singleton] at hw
      rcases hw with hw | rfl
      · exact hold key' w hw
      · exact ⟨h.compared call key' val bitset hcall, val, update_self .., hintime⟩
    · simp only [FutexSystem.appendWaiter, setCall, pushWaiter, update_of_ne hkey] at hw
      exact hold key' w hw
  compared := by
    intro call' key' val' bitset' hcall'
    rcases update_eq_cases hcall' with ⟨-, hnew⟩ | ⟨-, hold⟩
    · cases hnew
    · exact h.compared call' key' val' bitset' hold

theorem Sound.leave (hcall : s.calls call = .waiting key val) : (s.leave call key).Sound where
  tabled := by
    intro key' w hw
    -- The call waits under its own key alone, so no entry of another key has its flag.
    have hmem : w ∈ s.table key' ∧ w.woken ≠ call := by
      by_cases hkey : key' = key
      · subst hkey
        simpa [FutexSystem.leave, setCall, removeWaiter] using hw
      simp only [FutexSystem.leave, setCall, removeWaiter, update_of_ne hkey] at hw
      refine ⟨hw, ?_⟩
      intro heq
      obtain ⟨_, val', hwaiting, _⟩ := h.tabled key' w hw
      rw [heq, hcall] at hwaiting
      cases hwaiting
      exact hkey rfl
    obtain ⟨hbits, val', hwaiting, hval⟩ := h.tabled key' w hmem.1
    exact ⟨hbits, val', (update_of_ne hmem.2 ..).trans hwaiting, hval⟩
  compared := by
    intro call' key' val' bitset' hcall'
    rcases update_eq_cases hcall' with ⟨-, hnew⟩ | ⟨-, hold⟩
    · cases hnew
    · exact h.compared call' key' val' bitset' hold

theorem Sound.storeWord (val : UInt32) : (s.storeWord val).Sound where
  tabled := by
    intro key w hw
    obtain ⟨hbits, val', hwaiting, hval⟩ := h.tabled key w hw
    refine ⟨hbits, val', hwaiting, ?_⟩
    by_cases hsame : val = s.word
    · subst hsame
      simpa [FutexSystem.storeWord] using hval
    · right
      simp [FutexSystem.storeWord, hsame]
  compared := h.compared

theorem Sound.wake (key : FutexKey) (val bitset : UInt32) :
    (s.wake key val bitset).Sound where
  tabled := by
    intro key' w hw
    by_cases hkey : key' = key
    · subst hkey
      simp only [FutexSystem.wake, wakeWaiters, update_self] at hw
      by_cases hall : s.WakesAll key' val bitset
      · -- Nobody is left whom the flag could be about.
        obtain ⟨rfl, hlen⟩ := hall
        rw [wakeLoop_all (fun w' hw' => (h.tabled key' w' hw').bitset) hlen] at hw
        cases hw
      · obtain ⟨hbits, val', hwaiting, hval⟩ := h.tabled key' w ((sublist_wakeLoop ..).subset hw)
        exact ⟨hbits, val', hwaiting, by simpa [FutexSystem.wake, hall] using hval⟩
    · simp only [FutexSystem.wake, wakeWaiters, update_of_ne hkey] at hw
      obtain ⟨hbits, val', hwaiting, hval⟩ := h.tabled key' w hw
      refine ⟨hbits, val', hwaiting, ?_⟩
      by_cases hall : s.WakesAll key val bitset
      · simpa [FutexSystem.wake, hall, update_of_ne hkey] using hval
      · simpa [FutexSystem.wake, hall] using hval
  compared := h.compared

theorem Sound.step {op : FutexStep} (hintime : s.InTime op) (hstep : s.step vmar uaddr op = .ok s') :
    s'.Sound := by
  cases op <;> simp only [FutexSystem.step] at hstep
  case compare call isPrivate val bitset =>
    split at hstep <;> cases hstep
    rename_i hidle
    exact h.compareWord hidle _ _ _
  case append call =>
    split at hstep <;> cases hstep
    rename_i key val bitset hcall
    refine h.appendWaiter hcall ?_
    simpa only [InTime, hcall] using hintime
  case leave call =>
    split at hstep <;> cases hstep
    rename_i key val hcall
    exact h.leave hcall
  case store val =>
    cases hstep
    exact h.storeWord val
  case wake isPrivate val bitset =>
    split_ifs at hstep <;> cases hstep
    · exact h
    · exact h.wake _ _ _

theorem Sound.noLostWake : s.NoLostWake := by
  intro key w hw val hwaiting
  obtain ⟨_, val', hwaiting', hval⟩ := h.tabled key w hw
  rw [hwaiting] at hwaiting'
  cases hwaiting'
  exact hval

end

/-- In a run in which every call appends itself in time, no wake-up is lost. -/
theorem noLostWake_of_visits {word : UInt32}
    (h : Visits (step vmar uaddr) InTime (initial word) s) : s.NoLostWake :=
  (h.invariant (sound_initial word) fun _ _ _ hs hintime hstep => hs.step hintime hstep).noLostWake

/-- Call 0, the queue of the private key, and whether a wake is still to come. -/
def observe (vmar uaddr : Nat) (s : FutexSystem) :
    UInt32 × List FutexWaiter × WaitCall × Bool :=
  let key := FutexKey.new true vmar uaddr
  (s.word, s.table key, s.calls 0, s.unwoken key)

/-- A wake of nobody and then a store come after the append. The wake for the store is still to
come. -/
def wakeAfterAppend : List FutexStep :=
  [.compare 0 true 0 futexBitsetMatchAny, .append 0, .wake true 0 futexBitsetMatchAny,
    .store 1]

theorem noLostWake_wakeAfterAppend : ∃ s, Visits (step 4096 8192) InTime (initial 0) s ∧
      observe 4096 8192 s = (1, [⟨0, futexBitsetMatchAny⟩],
        .waiting (FutexKey.new true 4096 8192) 0, true) ∧ s.NoLostWake := by
  obtain ⟨s, hvisits, hobserve⟩ := exists_visits (step 4096 8192) InTime (initial 0)
    wakeAfterAppend (fun s => observe 4096 8192 s = (1, [⟨0, futexBitsetMatchAny⟩],
      .waiting (FutexKey.new true 4096 8192) 0, true)) (by decide)
  exact ⟨s, hvisits, hobserve, noLostWake_of_visits hvisits⟩

/-- The store and the wake fall between the comparison and the append. -/
def wakeInBetween : List FutexStep :=
  [.compare 0 true 0 futexBitsetMatchAny, .store 1, .wake true 1 futexBitsetMatchAny,
    .append 0]

/-- The call waits for a word that has changed, and no wake is to come. -/
theorem lostWake_wakeInBetween :
    ∃ s, run (step 4096 8192) (initial 0) wakeInBetween = .ok s ∧ ¬ s.NoLostWake := by
  have hend : (run (step 4096 8192) (initial 0) wakeInBetween).map (observe 4096 8192) =
      .ok (1, [⟨0, futexBitsetMatchAny⟩], .waiting (FutexKey.new true 4096 8192) 0, false) :=
    rfl
  obtain ⟨s, hrun, hobserve⟩ := exists_of_observed hend
  refine ⟨s, hrun, ?_⟩
  intro hnolost
  simp only [observe, Prod.mk.injEq] at hobserve
  obtain ⟨hword, htable, hcall, hunwoken⟩ := hobserve
  have hcase := hnolost (FutexKey.new true 4096 8192) ⟨0, futexBitsetMatchAny⟩
    (by simp [htable]) 0 hcall
  rw [hword, hunwoken] at hcase
  revert hcase
  decide

end FutexSystem

end Petra.Sync
