import Petra.Kernel

/-! # Process and thread identifiers

Process identifiers come from a bitmap that is searched from where the last search ended.
-/

namespace Petra.Proc

open Function

/-- `PID_MAX`. -/
def pidMax : Nat := 99999

/-- `PID_INIT`. -/
def pidInit : Nat := 1

/-- `TID_MAX`. -/
def tidMax : Nat := 99999

/-- The first identifier of a thread that is not the first of its process. -/
def tidFirst : Nat := 10000

/-- The allocator. The words of the bitmap are the function that gives its bits. -/
structure PidAllocator where
  next : Nat
  bits : Nat → Bool

namespace PidAllocator

/-- `FIRST_ALLOCATABLE`. -/
def firstAllocatable : Nat := 2

/-- With 0 and the identifier of init reserved. -/
def new : PidAllocator where
  next := firstAllocatable
  bits := fun pid => decide (pid < 2)

def isSet (a : PidAllocator) (pid : Nat) : Bool := decide (pid > pidMax) || a.bits pid

def setBit (a : PidAllocator) (pid : Nat) : PidAllocator :=
  if pid ≤ pidMax then { a with bits := update a.bits pid true } else a

def clearBit (a : PidAllocator) (pid : Nat) : PidAllocator :=
  if pid ≤ pidMax then { a with bits := update a.bits pid false } else a

/-- The search, with one unit of fuel for each candidate. -/
def allocateFrom (start : Nat) : Nat → PidAllocator → Except Errno (Nat × PidAllocator)
  | 0, _ => .error .EAGAIN
  | fuel + 1, a =>
    let candidate := a.next
    let a := { a with next := if a.next ≥ pidMax then firstAllocatable else a.next + 1 }
    if a.isSet candidate = false then .ok (candidate, a.setBit candidate)
    else if a.next = start then .error .EAGAIN
    else allocateFrom start fuel a

def allocate (a : PidAllocator) : Except Errno (Nat × PidAllocator) :=
  allocateFrom a.next pidMax a

def free (a : PidAllocator) (pid : Nat) : PidAllocator :=
  if pid ≥ firstAllocatable then a.clearBit pid else a

/-- There is a free identifier below `limit` that the search finds before it starts again from
the front. -/
def FreeBelow (a : PidAllocator) (limit : Nat) : Prop :=
  ∃ pid < limit, a.next ≤ pid ∧ a.isSet pid = false

-- The first candidate is tried before all others.
instance (a : PidAllocator) (limit : Nat) : Decidable (a.FreeBelow limit) :=
  if h : a.next < limit ∧ a.isSet a.next = false then
    .isTrue ⟨a.next, h.1, Nat.le_refl _, h.2⟩
  else inferInstanceAs (Decidable (∃ pid < limit, a.next ≤ pid ∧ a.isSet pid = false))

variable {a : PidAllocator} {limit : Nat}

theorem next_free (a : PidAllocator) (pid : Nat) : (a.free pid).next = a.next := by
  unfold free clearBit
  split
  · split <;> rfl
  · rfl

theorem FreeBelow.mono {limit' : Nat} (h : a.FreeBelow limit) (hle : limit ≤ limit') :
    a.FreeBelow limit' := by
  obtain ⟨pid, hlt, hfree⟩ := h
  exact ⟨pid, hlt.trans_le hle, hfree⟩

/-- The search goes up to the free identifier at most. -/
theorem allocateFrom_spec {start fuel goal : Nat} (hstart : start ≤ a.next)
    (hgoal : a.next ≤ goal) (hmax : goal < pidMax) (hfree : a.isSet goal = false)
    (hfuel : goal - a.next < fuel) : ∃ pid, allocateFrom start fuel a =
        .ok (pid, { next := pid + 1, bits := update a.bits pid true }) ∧
      a.next ≤ pid ∧ pid ≤ goal ∧ a.isSet pid = false := by
  induction fuel generalizing a with
  | zero => exact absurd hfuel (Nat.not_lt_zero _)
  | succ fuel ih =>
    have hnext : ¬a.next ≥ pidMax := by omega
    dsimp only [allocateFrom]
    rw [if_neg hnext]
    by_cases hset : a.isSet a.next = false
    · refine ⟨a.next, ?_, le_rfl, hgoal, hset⟩
      have hset' : isSet { a with next := a.next + 1 } a.next = false := hset
      rw [if_pos hset', setBit, if_pos (by omega)]
    have hset' : ¬isSet { a with next := a.next + 1 } a.next = false := hset
    have hne : a.next ≠ goal := by
      intro heq
      rw [heq] at hset
      exact hset hfree
    rw [if_neg hset', if_neg (by omega)]
    obtain ⟨pid, hpid, hlow, hhigh, hfree'⟩ :=
      @ih { a with next := a.next + 1 } (by dsimp only; omega) (by dsimp only; omega) hfree
        (by dsimp only; omega)
    exact ⟨pid, hpid, Nat.le_of_succ_le hlow, hhigh, hfree'⟩

/-- While there is a free identifier ahead, the one that is handed out lies ahead too. -/
theorem allocate_spec (h : a.FreeBelow limit) (hlimit : limit ≤ pidMax) :
    ∃ pid, a.allocate = .ok (pid, { next := pid + 1, bits := update a.bits pid true }) ∧
      a.next ≤ pid ∧ pid < limit ∧ a.isSet pid = false := by
  obtain ⟨goal, hgoal, hnext, hfree⟩ := h
  obtain ⟨pid, hpid, hlow, hhigh, hset⟩ := allocateFrom_spec le_rfl hnext
    (hgoal.trans_le hlimit) hfree (Nat.lt_of_le_of_lt (Nat.sub_le ..)
      (hgoal.trans_le hlimit))
  exact ⟨pid, hpid, hlow, hhigh.trans_lt hgoal, hset⟩

end PidAllocator

end Petra.Proc
