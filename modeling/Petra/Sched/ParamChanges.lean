import Petra.Base.Run
import Petra.Sched.Filing

/-! # Parameters that change while tasks wait

The scheduler takes its steps under the lock of the run queue. The parameters of a task are
changed without that lock, also between the choice of a task and its installation.
-/

namespace Petra.Sched

open Base Function List

/-- A run queue in use. -/
structure RqSystem where
  state : RqState
  /-- The task that was picked and has still to be installed. -/
  picked : Option SchedEntry
  /-- History: the tasks that were placed and have not left. -/
  runnable : Nat → Bool

inductive RqOp
  | place (entry : SchedEntry) (isNew : Bool)
  | setLastFlags (flags : UpdateFlags)
  | shouldSwitch
  | pickNext (yielding : Bool)
  | install (now : Nat)
  | startIdling (now fresh : Nat)
  | charge (now : Nat)
  | dequeueCurrent
  | setParams (task : Nat) (policy priority nice : Int)

namespace RqSystem

variable {sys sys' : RqSystem} {op : RqOp}

/-- A step of the scheduler, which holds the lock. -/
def locked (sys : RqSystem) : RqOp → Except Panic RqSystem
  | .place entry isNew =>
    .ok { sys with
      state := sys.state.place { entry with isIdle := false } isNew
      runnable := update sys.runnable entry.task true }
  | .setLastFlags flags =>
    .ok { sys with state := { sys.state with rq := { sys.state.rq with lastFlags := flags } } }
  | .shouldSwitch => .ok { sys with state := sys.state.shouldSwitch.2 }
  | .pickNext yielding => .ok { sys with picked := sys.state.pickNext yielding }
  | .startIdling now fresh => do .ok { sys with state := ← sys.state.startIdling now fresh }
  | .charge now => .ok { sys with state := sys.state.charge now }
  | .dequeueCurrent => do
    let (out, state) ← sys.state.dequeueCurrent
    .ok { sys with
      state := state
      runnable := match out with
        | none => sys.runnable
        | some entry => update sys.runnable entry.task false }
  | _ => .ok sys

/-- A change of parameters takes place at once. Between the choice of a task and its
installation every other step has to wait. -/
def step (sys : RqSystem) : RqOp → Except Panic RqSystem
  | .setParams task policy priority nice =>
    .ok { sys with state := sys.state.setParams task policy priority nice }
  | .install now =>
    match sys.picked with
    | none => .ok sys
    | some next => do
      .ok { sys with state := ← sys.state.install now next true, picked := none }
  | op =>
    match sys.picked with
    | none => sys.locked op
    | some _ => .ok sys

/-- An empty run queue. -/
def initial (ents : Entities) (cpu : Option Nat) : RqSystem :=
  ⟨⟨ents, .new cpu⟩, none, fun _ => false⟩

/-- The task runs, or is in the queue of the class its entity names. -/
def Findable (s : RqState) (task : Nat) : Prop :=
  (∃ e, s.rq.current = some e ∧ e.task = task) ∨
    if (s.ents task).isRt then (s.rq.rt.dequeue task).isSome = true
    else ∃ e, s.rq.eevdf.queued.get? (EevdfRunKey.of s.ents ⟨task, 0, false⟩ false) = some e ∧
      e.task = task

/-- A task that waits keeps its class, and its virtual deadline if it is a fair one. A task is
placed when it neither runs nor waits. -/
def Unmoved (sys : RqSystem) : RqOp → Prop
  | .place entry _ => entry.task ∉ sys.state.rq.tasks
  | .setParams task policy priority nice =>
    task ∈ sys.state.rq.queuedTasks →
      SameFiling (sys.state.ents task) ((sys.state.ents task).setParams policy priority nice)
  | _ => True

instance (e e' : SchedEntity) : Decidable (SameFiling e e') :=
  decidable_of_iff (e'.isRt = e.isRt ∧ e'.fair.vruntime = e.fair.vruntime ∧
      e'.fair.deadline = e.fair.deadline)
    ⟨fun h => ⟨h.1, h.2.1, h.2.2⟩, fun h => ⟨h.isRt, h.vruntime, h.deadline⟩⟩

instance (sys : RqSystem) : (op : RqOp) → Decidable (sys.Unmoved op)
  | .place entry _ => inferInstanceAs (Decidable (entry.task ∉ sys.state.rq.tasks))
  | .setParams task policy priority nice =>
    inferInstanceAs (Decidable (task ∈ sys.state.rq.queuedTasks →
      SameFiling (sys.state.ents task) ((sys.state.ents task).setParams policy priority nice)))
  | .setLastFlags _ => .isTrue trivial
  | .shouldSwitch => .isTrue trivial
  | .pickNext _ => .isTrue trivial
  | .install _ => .isTrue trivial
  | .startIdling _ _ => .isTrue trivial
  | .charge _ => .isTrue trivial
  | .dequeueCurrent => .isTrue trivial

/-! ### The invariant -/

structure Sound (sys : RqSystem) : Prop where
  filed : Filed sys.state
  picked : ∀ e, sys.picked = some e → e ∈ sys.state.rq.queuedEntries
  runnable : ∀ t, sys.runnable t = true → t ∈ sys.state.rq.tasks

theorem sound_initial {ents : Entities} (hseq : Function.Injective fun t => (ents t).seq)
    (cpu : Option Nat) : (initial ents cpu).Sound where
  filed := .new hseq cpu
  picked := nofun
  runnable := nofun

theorem Sound.locked (h : sys.Sound) (hop : sys.Unmoved op)
    (hnone : sys.picked = none) (hstep : sys.locked op = .ok sys') : sys'.Sound := by
  have hpicked : ∀ state : RqState, ∀ e, sys.picked = some e → e ∈ state.rq.queuedEntries := by
    intro state e he
    rw [hnone] at he
    cases he
  cases op with
  | place entry isNew =>
    cases hstep
    obtain ⟨hfiled, hperm⟩ := h.filed.place { entry with isIdle := false } isNew rfl hop
    refine ⟨hfiled, hpicked _, ?_⟩
    intro t ht
    refine hperm.mem_iff.mpr (mem_cons.mpr ?_)
    by_cases hsame : t = entry.task
    · exact .inl hsame
    · right
      apply h.runnable t
      simpa [update_of_ne hsame] using ht
  | setLastFlags flags =>
    cases hstep
    obtain ⟨hfiled, htasks⟩ := h.filed.congr
      { sys.state with rq := { sys.state.rq with lastFlags := flags } } rfl rfl rfl rfl h.filed.queued
    exact ⟨hfiled, hpicked _, fun t ht => htasks ▸ h.runnable t ht⟩
  | shouldSwitch =>
    cases hstep
    obtain ⟨hfiled, htasks⟩ := h.filed.shouldSwitch
    exact ⟨hfiled, hpicked _, fun t ht => htasks ▸ h.runnable t ht⟩
  | pickNext yielding =>
    cases hstep
    exact ⟨h.filed, fun e he => h.filed.mem_of_pickNext he, h.runnable⟩
  | install now =>
    cases hstep
    exact h
  | startIdling now fresh =>
    obtain ⟨s', hrun, hfiled, hperm⟩ := h.filed.startIdling now fresh
    obtain ⟨s'', hrun', hstep⟩ := ok_of_bind hstep
    rw [hrun] at hrun'
    cases hrun'
    cases hstep
    exact ⟨hfiled, hpicked _, fun t ht => hperm.mem_iff.mpr (h.runnable t ht)⟩
  | charge now =>
    cases hstep
    obtain ⟨hfiled, htasks⟩ := h.filed.charge now
    exact ⟨hfiled, hpicked _, fun t ht => htasks ▸ h.runnable t ht⟩
  | dequeueCurrent =>
    obtain ⟨⟨out, s'⟩, hrun, hstep⟩ := ok_of_bind hstep
    cases hstep
    obtain ⟨hfiled, hperm⟩ := h.filed.dequeueCurrent hrun
    refine ⟨hfiled, hpicked _, ?_⟩
    intro t ht
    cases out with
    | none => exact hperm.mem_iff.mp (h.runnable t ht)
    | some entry =>
      have hne : t ≠ entry.task := by
        rintro rfl
        simp at ht
      have hold := hperm.mem_iff.mp (h.runnable t (by
        simpa [update_of_ne hne] using ht))
      simpa [hne] using hold
  | setParams task policy priority nice =>
    cases hstep
    exact h

/-- A task is queued where its parameters say as long as no change moves it. -/
theorem Sound.step (h : sys.Sound) (hop : sys.Unmoved op)
    (hstep : sys.step op = .ok sys') : sys'.Sound := by
  have hlocked : (match sys.picked with
      | none => sys.locked op
      | some _ => .ok sys) = .ok sys' → sys'.Sound := by
    intro hstep
    split at hstep
    next hpicked =>
      exact h.locked hop hpicked hstep
    next e =>
      cases hstep
      exact h
  cases op with
  | setParams task policy priority nice =>
    cases hstep
    exact ⟨h.filed.setParams hop, h.picked, h.runnable⟩
  | install now =>
    unfold step at hstep
    cases hpicked : sys.picked with
    | none =>
      rw [hpicked] at hstep
      cases hstep
      exact h
    | some next =>
      rw [hpicked] at hstep
      obtain ⟨s', hrun, hfiled, hperm, -⟩ := h.filed.install now (h.picked next hpicked)
      obtain ⟨s'', hrun', hstep⟩ := ok_of_bind hstep
      rw [hrun] at hrun'
      cases hrun'
      cases hstep
      refine ⟨hfiled, ?_, fun t ht => hperm.mem_iff.mpr (h.runnable t ht)⟩
      intro e he
      cases he
  | place entry isNew | setLastFlags flags | shouldSwitch
  | pickNext yielding | startIdling now fresh | charge now | dequeueCurrent => exact hlocked hstep

theorem findable_of_mem {s : RqState} (h : Filed s) {t : Nat} (ht : t ∈ s.rq.tasks) :
    Findable s t := by
  rcases mem_append.mp ht with hrunning | hqueued
  · left
    obtain ⟨e, he, rfl⟩ := mem_map.mp hrunning
    exact ⟨e, by simpa using (mem_filter.mp he).1, rfl⟩
  right
  obtain ⟨e, he, rfl⟩ := mem_map.mp hqueued
  rcases mem_append.mp he with hrt | hfair
  · rw [if_pos (h.queued.rtClass e hrt)]
    exact RtRunQueue.dequeue_isSome h.queued.rt hrt
  · rw [if_neg (by simp [h.queued.fairClass e hfair])]
    exact ⟨e, EevdfRunQueue.get?_of_mem h.queued.keyed hfair, rfl⟩

/-- As long as waiting tasks are not moved, a picked task can be installed and every runnable
task is found. -/
theorem findable_of_visits {ents : Entities} {cpu : Option Nat}
    (hseq : Function.Injective fun t => (ents t).seq)
    (h : Visits step Unmoved (initial ents cpu) sys) :
    (∀ now e, sys.picked = some e → ∃ s', sys.state.install now e true = .ok s') ∧
      ∀ t, sys.runnable t = true → Findable sys.state t := by
  have hsound := h.invariant (sound_initial hseq cpu) fun _ _ _ hs hop hstep => hs.step hop hstep
  refine ⟨?_, fun t ht => findable_of_mem hsound.filed (hsound.runnable t ht)⟩
  intro now e he
  obtain ⟨s', hrun, -⟩ := hsound.filed.install now (hsound.picked e he)
  exact ⟨s', hrun⟩

/-- The nice value of a task changes before the task is placed. -/
def niceFirst : List RqOp :=
  [.setParams 0 schedOther 0 5, .place ⟨0, 1, false⟩ true, .pickNext false]

/-- The nice value of a task changes while the task waits. -/
def niceWhileWaiting : List RqOp :=
  [.place ⟨0, 1, false⟩ true, .setParams 0 schedOther 0 5, .pickNext false]

theorem findable_niceFirst : ∃ sys, Visits step Unmoved (initial freshEntities none) sys ∧
      (sys.picked = some ⟨0, 1, false⟩ ∧ sys.runnable 0 = true) ∧
      (∀ now e, sys.picked = some e → ∃ s', sys.state.install now e true = .ok s') ∧
      ∀ t, sys.runnable t = true → Findable sys.state t := by
  obtain ⟨sys, hvisits, hend⟩ := exists_visits step Unmoved (initial freshEntities none) niceFirst
    (fun sys => sys.picked = some ⟨0, 1, false⟩ ∧ sys.runnable 0 = true) (by decide)
  exact ⟨sys, hvisits, hend, findable_of_visits freshEntities_seq hvisits⟩

/-- The task was filed under the key of nice 0 and is looked up under that of nice 5. -/
theorem install_panics_niceWhileWaiting :
    ∃ sys, run step (initial freshEntities none) niceWhileWaiting = .ok sys ∧
      sys.picked = some ⟨0, 1, false⟩ ∧
      sys.state.install 2 ⟨0, 1, false⟩ true = .error .assertion := by
  obtain ⟨sys, hrun, hpicked, hinstall⟩ := exists_ok
    (run step (initial freshEntities none) niceWhileWaiting)
    (fun sys => sys.picked = some ⟨0, 1, false⟩ ∧
      ((sys.state.install 2 ⟨0, 1, false⟩ true).map fun _ => ()) = .error .assertion) (by decide)
  refine ⟨sys, hrun, hpicked, ?_⟩
  cases hcase : sys.state.install 2 ⟨0, 1, false⟩ true with
  | error p =>
    rw [hcase] at hinstall
    exact congrArg Except.error (Except.error.inj hinstall)
  | ok s' =>
    rw [hcase] at hinstall
    cases hinstall

end RqSystem

end Petra.Sched
