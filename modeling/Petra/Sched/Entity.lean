import Petra.Kernel

/-! # Scheduling entities

The scheduling state of a task: its policy, its real-time priority and time slice, and its
fair share. The parameters can be changed at any moment, also while the task waits.
-/

namespace Petra.Sched

def u64Max : Nat := 2 ^ 64 - 1

/-- `u64::saturating_add`. `saturating_sub` is the subtraction of natural numbers. -/
def satAdd (a b : Nat) : Nat := min (a + b) u64Max

/-- `u64::saturating_mul`. -/
def satMul (a b : Nat) : Nat := min (a * b) u64Max

/-- `x as i64` of a `u64`. -/
def toI64 (x : Nat) : Int := Int.bmod x (2 ^ 64)

def nice0Load : Nat := 1024
def niceMin : Int := -20
def niceMax : Int := 19

/-- Linux `sched_prio_to_weight` for nice -20..=19. -/
def prioToWeight : List Nat :=
  [88761, 71755, 56483, 46273, 36291, 29154, 23254, 18705, 14949, 11916, 9548, 7620, 6100, 4904,
    3906, 3121, 2501, 1991, 1586, 1277, 1024, 820, 655, 526, 423, 335, 272, 215, 172, 137, 110, 87,
    70, 56, 45, 36, 29, 23, 18, 15]

def weightFromNice (nice : Int) : Nat :=
  prioToWeight.getD (max niceMin (min nice niceMax) - niceMin).toNat 0

def scale (value numerator denominator : Nat) : Nat :=
  if denominator = 0 then 0 else min (value * numerator / denominator) u64Max

/-! ### The fair class -/

structure EevdfEntity where
  vruntime : Nat
  rawWeight : Nat
  sliceNs : Nat
  placed : Bool
  lag : Int
  deriving DecidableEq

namespace EevdfEntity

def weight (e : EevdfEntity) : Nat := max e.rawWeight 1

/-- The virtual time of the requested slice. -/
def request (e : EevdfEntity) : Nat := scale e.sliceNs nice0Load e.weight

def deadline (e : EevdfEntity) : Nat := satAdd e.vruntime e.request

def charge (e : EevdfEntity) (deltaNs : Nat) : EevdfEntity :=
  { e with vruntime := satAdd e.vruntime (scale deltaNs nice0Load e.weight) }

def setNice (e : EevdfEntity) (nice : Int) : EevdfEntity :=
  { e with rawWeight := weightFromNice nice }

theorem weight_pos (e : EevdfEntity) : 0 < e.weight := by
  unfold weight
  omega

end EevdfEntity

/-! ### The real-time class -/

def rtPrioMax : Int := 99

def defRtTimesliceNs : Nat := 100000000

structure RtEntity where
  priority : Int
  timeSliceNs : Nat
  deriving DecidableEq

namespace RtEntity

def setPriority (e : RtEntity) (prio : Int) : RtEntity :=
  { e with priority := max 0 (min prio rtPrioMax) }

def resetTimeSlice (e : RtEntity) : RtEntity := { e with timeSliceNs := defRtTimesliceNs }

/-- The queue a task of this priority is put into. -/
def level (e : RtEntity) : Nat := (max 1 (min e.priority 99)).toNat

theorem level_bounds (e : RtEntity) : 1 ≤ e.level ∧ e.level < 100 := by
  unfold level
  omega

end RtEntity

/-! ### Entities -/

def schedOther : Int := 0
def schedFifo : Int := 1
def schedRr : Int := 2

structure SchedEntity where
  policy : Int
  rt : RtEntity
  fair : EevdfEntity
  affinity : Nat → Bool
  /-- The CPU the task ran on last. -/
  lastCpu : Option Nat
  seq : Nat

namespace SchedEntity

def isRt (e : SchedEntity) : Bool := e.policy == schedFifo || e.policy == schedRr

def setParams (e : SchedEntity) (policy priority nice : Int) : SchedEntity :=
  if policy == schedFifo || policy == schedRr then
    { e with policy := policy, rt := e.rt.setPriority priority }
  else { e with policy := policy, fair := e.fair.setNice nice }

end SchedEntity

/-- The entity of each task. -/
abbrev Entities := Nat → SchedEntity

/-- A runnable task and the tick at which it arrived. -/
structure SchedEntry where
  task : Nat
  arrival : Nat
  isIdle : Bool
  deriving DecidableEq

/-- Change the entity of one task. -/
def Entities.modify (ents : Entities) (task : Nat) (f : SchedEntity → SchedEntity) : Entities :=
  fun t => if t = task then f (ents t) else ents t

@[simp] theorem Entities.modify_self (ents : Entities) (task : Nat)
    (f : SchedEntity → SchedEntity) : ents.modify task f task = f (ents task) := by
  simp [modify]

theorem Entities.modify_of_ne (ents : Entities) {task t : Nat} (f : SchedEntity → SchedEntity)
    (h : t ≠ task) : ents.modify task f t = ents t := by
  simp [modify, h]

/-- Tasks of nice 0 that were never placed. -/
def freshEntities : Entities := fun t =>
  { policy := schedOther
    rt := ⟨0, defRtTimesliceNs⟩
    fair := ⟨0, weightFromNice 0, 3000000, false, 0⟩
    affinity := fun _ => true
    lastCpu := none
    seq := t }

theorem freshEntities_seq : Function.Injective fun t => (freshEntities t).seq := fun _ _ h => h

/-- Two tasks of nice 0 and a real-time task. -/
def mixedEntities : Entities :=
  freshEntities.modify 2 fun e => { e with policy := schedFifo, rt := ⟨1, defRtTimesliceNs⟩ }

theorem mixedEntities_seq : Function.Injective fun t => (mixedEntities t).seq := by
  intro t u htu
  simp only [mixedEntities, Entities.modify] at htu
  split_ifs at htu <;> exact htu

end Petra.Sched
