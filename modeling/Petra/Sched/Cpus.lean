import Petra.Sched.FairShare

/-! # The run queues of all CPUs

Each CPU works on its own run queue under the queue's lock. Waking a task up takes several
steps: the CPU slot of the task is read and set without any lock, and the lock of the target is
taken only for the last step. Affinities change at any moment.
-/

namespace Petra.Sched

open Base Function List

namespace RqState

variable {s s' : RqState}

/-- The caller's view of the running task, after it was charged. -/
def updateCurrent (s : RqState) (now : Nat) (flags : UpdateFlags) : Bool × RqState :=
  let s := { s with rq := { s.rq with lastFlags := flags } }.charge now
  match flags with
  | .tick => s.shouldSwitch
  | .yield => (s.rq.current.isNone || (s.pickNext true).isSome, s)
  | .wait => (0 < s.rq.nrQueued || !s.rq.isIdling, s)
  | .exit => (0 < s.rq.nrQueued || !s.rq.isIdling, s)

def tryPickNext (s : RqState) (now fresh : Nat) : Except Panic RqState :=
  match s.pickNext (s.rq.lastFlags = .yield) with
  | some next => s.install now next true
  | none => if s.rq.current.isNone then s.startIdling now fresh else .ok s

end RqState

/-! ### Choosing a CPU -/

/-- The loop of `select_target_cpu`. -/
def leastLoaded (affinity : Nat → Bool) (load : Nat → Nat) : List Nat → Nat → Nat → Nat
  | [], best, _ => best
  | cpu :: cpus, best, minLoad =>
    if affinity cpu = false then leastLoaded affinity load cpus best minLoad
    else if load cpu = 0 then cpu
    else if load cpu < minLoad then leastLoaded affinity load cpus cpu (load cpu)
    else leastLoaded affinity load cpus best minLoad

/-- `select_target_cpu`, where `load` is what it reads from the queues one after the other. -/
def selectTargetCpu (e : SchedEntity) (ncpus currentCpu : Nat) (load : Nat → Nat) : Nat :=
  if ncpus ≤ 1 then currentCpu
  else
    match e.lastCpu.filter fun last => last < ncpus && e.affinity last with
    | some last => last
    | none =>
      if e.affinity currentCpu && load currentCpu == 0 then currentCpu
      else leastLoaded e.affinity load (List.range ncpus) currentCpu u64Max

/-! ### The system -/

/-- How far a call of `enqueue_task` has come. -/
inductive EnqueuePhase
  /-- The slot was read. -/
  | read (slot : Option Nat)
  /-- The slot named a CPU on which the task may not run. -/
  | migrating
  /-- The slot named a CPU on which the task may run. -/
  | stillQueued (cpu : Nat)
  /-- The slot was empty. -/
  | free
  /-- The slot was set, unless somebody else did. -/
  | settled
  | placing (cpu : Nat)
  deriving DecidableEq

structure EnqueueCall where
  task : Nat
  currentCpu : Nat
  phase : EnqueuePhase
  deriving DecidableEq

/-- The call is about to put its task into a queue, come what may. -/
def EnqueueCall.Owes (call : EnqueueCall) : Prop :=
  call.phase = .settled ∨ ∃ cpu, call.phase = .placing cpu

structure CpuSystem where
  ents : Entities
  rqs : Nat → RunQueue
  /-- `schedule_info().cpu` of each task. -/
  slot : Nat → Option Nat
  calls : Nat → Option EnqueueCall

inductive CpuOp
  | enqueue (id task currentCpu : Nat)
  | look (id : Nat)
  | settle (id : Nat) (load : Nat → Nat)
  | reread (id : Nat)
  | place (id now : Nat)
  | setAffinity (task : Nat) (mask : Nat → Bool)
  | updateCurrent (cpu now : Nat) (flags : UpdateFlags)
  | tryPickNext (cpu now fresh : Nat)
  | dequeueCurrent (cpu : Nat)

namespace CpuSystem

variable {sys sys' : CpuSystem}

def onCpu (sys : CpuSystem) (cpu : Nat) : RqState := ⟨sys.ents, sys.rqs cpu⟩

def setCpu (sys : CpuSystem) (cpu : Nat) (s : RqState) : CpuSystem :=
  { sys with ents := s.ents, rqs := update sys.rqs cpu s.rq }

def setCall (sys : CpuSystem) (id : Nat) (call : Option EnqueueCall) : CpuSystem :=
  { sys with calls := update sys.calls id call }

def setSlot (sys : CpuSystem) (task : Nat) (slot : Option Nat) : CpuSystem :=
  { sys with slot := update sys.slot task slot }

/-- Put the task of a call into the queue of a CPU. -/
def placeOn (sys : CpuSystem) (now cpu task : Nat) : CpuSystem :=
  sys.setCpu cpu ((sys.onCpu cpu).place ⟨task, now, false⟩ !(sys.ents task).fair.placed)

/-- Which way a call goes, by the slot it read and the affinity. -/
def look (sys : CpuSystem) (id : Nat) (call : EnqueueCall) : CpuSystem :=
  match call.phase with
  | .read none => sys.setCall id (some { call with phase := .free })
  | .read (some cpu) =>
    if (sys.ents call.task).affinity cpu then
      sys.setCall id (some { call with phase := .stillQueued cpu })
    else sys.setCall id (some { call with phase := .migrating })
  | _ => sys

/-- `set_anyway` of a task that migrates, `set_if_is_none` of one that had no slot. -/
def settle (sys : CpuSystem) (ncpus id : Nat) (load : Nat → Nat) (call : EnqueueCall) : CpuSystem :=
  let target := selectTargetCpu (sys.ents call.task) ncpus call.currentCpu load
  match call.phase with
  | .migrating =>
    (sys.setSlot call.task (some target)).setCall id (some { call with phase := .placing target })
  | .free =>
    (sys.setSlot call.task ((sys.slot call.task).or (some target))).setCall id
      (some { call with phase := .settled })
  | _ => sys

def reread (sys : CpuSystem) (id : Nat) (call : EnqueueCall) : CpuSystem :=
  match call.phase with
  | .settled =>
    let target := (sys.slot call.task).getD call.currentCpu
    sys.setCall id (some { call with phase := .placing target })
  | _ => sys

/-- The last step, under the lock of the target. -/
def place (sys : CpuSystem) (id now : Nat) (call : EnqueueCall) : CpuSystem :=
  match call.phase with
  | .placing cpu => (sys.setCall id none).placeOn now cpu call.task
  | .stillQueued cpu =>
    match sys.slot call.task with
    | some _ => sys.setCall id none
    | none => ((sys.setSlot call.task (some cpu)).setCall id none).placeOn now cpu call.task
  | _ => sys

/-- Let a call that is under way take a step. -/
def advance (sys : CpuSystem) (id : Nat) (next : EnqueueCall → CpuSystem) :
    Except Panic CpuSystem :=
  match sys.calls id with
  | none => .ok sys
  | some call => .ok (next call)

def step (ncpus : Nat) (sys : CpuSystem) : CpuOp → Except Panic CpuSystem
  | .enqueue id task currentCpu =>
    match sys.calls id with
    | some _ => .ok sys
    | none => .ok (sys.setCall id (some ⟨task, currentCpu, .read (sys.slot task)⟩))
  | .look id => sys.advance id (sys.look id)
  | .settle id load => sys.advance id (sys.settle ncpus id load)
  | .reread id => sys.advance id (sys.reread id)
  | .place id now => sys.advance id (sys.place id now)
  | .setAffinity task mask =>
    .ok { sys with ents := sys.ents.modify task fun e => { e with affinity := mask } }
  | .updateCurrent cpu now flags => .ok (sys.setCpu cpu ((sys.onCpu cpu).updateCurrent now flags).2)
  | .tryPickNext cpu now fresh => do
    .ok (sys.setCpu cpu (← (sys.onCpu cpu).tryPickNext now fresh))
  | .dequeueCurrent cpu => do
    let (out, s) ← (sys.onCpu cpu).dequeueCurrent
    match out with
    | none => .ok (sys.setCpu cpu s)
    | some entry => .ok ((sys.setCpu cpu s).setSlot entry.task none)

def initial (ents : Entities) : CpuSystem :=
  ⟨ents, fun cpu => .new (some cpu), fun _ => none, fun _ => none⟩

/-- Every task is in one place, and every CPU knows how many tasks it has. -/
structure OnePlace (sys : CpuSystem) : Prop where
  once : ∀ cpu, (sys.rqs cpu).tasks.Nodup
  apart : ∀ t cpu cpu', t ∈ (sys.rqs cpu).tasks → t ∈ (sys.rqs cpu').tasks → cpu = cpu'
  nrRunning : ∀ cpu, (sys.rqs cpu).nrRunning = (sys.rqs cpu).tasks.toFinset.card

/-- The slot of a task is empty when a call sets it, and no fair task is switched to. -/
def Settled (sys : CpuSystem) : CpuOp → Prop
  | .settle id _ => ∀ call ∈ sys.calls id,
      call.phase = .migrating ∨ call.phase = .free → sys.slot call.task = none
  | .tryPickNext cpu _ _ =>
    ∀ next ∈ (sys.onCpu cpu).pickNext ((sys.rqs cpu).lastFlags = .yield),
      (sys.onCpu cpu).isRt next = true
  | _ => True

instance (sys : CpuSystem) : (op : CpuOp) → Decidable (sys.Settled op)
  | .settle id _ => inferInstanceAs (Decidable (∀ call ∈ sys.calls id,
      call.phase = .migrating ∨ call.phase = .free → sys.slot call.task = none))
  | .tryPickNext cpu _ _ => inferInstanceAs (Decidable
      (∀ next ∈ (sys.onCpu cpu).pickNext ((sys.rqs cpu).lastFlags = .yield),
        (sys.onCpu cpu).isRt next = true))
  | .enqueue _ _ _ => .isTrue trivial
  | .look _ => .isTrue trivial
  | .reread _ => .isTrue trivial
  | .place _ _ => .isTrue trivial
  | .setAffinity _ _ => .isTrue trivial
  | .updateCurrent _ _ _ => .isTrue trivial
  | .dequeueCurrent _ => .isTrue trivial

/-! ### The invariant -/

/-- Tasks that are somewhere, or about to be put somewhere, have a slot. -/
structure Sound (sys : CpuSystem) : Prop where
  filed : ∀ cpu, Filed (sys.onCpu cpu)
  noFair : ∀ cpu, (sys.onCpu cpu).NoFairRuns
  apart : ∀ t cpu cpu', t ∈ (sys.rqs cpu).tasks → t ∈ (sys.rqs cpu').tasks → cpu = cpu'
  slotted : ∀ t cpu, t ∈ (sys.rqs cpu).tasks → sys.slot t ≠ none
  owed : ∀ id call, sys.calls id = some call → call.Owes →
    sys.slot call.task ≠ none ∧ ∀ cpu, call.task ∉ (sys.rqs cpu).tasks
  owedOnce : ∀ id id' call call', sys.calls id = some call → sys.calls id' = some call' →
    call.Owes → call'.Owes → call.task = call'.task → id = id'

theorem sound_initial {ents : Entities} (hseq : Function.Injective fun t => (ents t).seq) :
    (initial ents).Sound where
  filed := fun cpu => .new hseq (some cpu)
  noFair := fun cpu => ⟨rfl, nofun⟩
  apart := fun t cpu cpu' ht => by
    cases ht
  slotted := fun t cpu ht => by
    cases ht
  owed := nofun
  owedOnce := nofun

variable (h : sys.Sound) {task : Nat} {id : Nat} {s' : RqState}

include h

/-- A change that the fair class does not see leaves every CPU in order. -/
theorem Sound.frame {s : RqState} (hents : s.ents = sys.ents) (hsame : SameFair s s') (cpu : Nat) :
    Filed ⟨s'.ents, sys.rqs cpu⟩ ∧ RqState.NoFairRuns ⟨s'.ents, sys.rqs cpu⟩ := by
  have hold : Queued s.ents (sys.rqs cpu) := hents ▸ (h.filed cpu).queued
  have hqueued : Queued s'.ents (sys.rqs cpu) := hold.same hsame
  refine ⟨((h.filed cpu).congr ⟨s'.ents, sys.rqs cpu⟩ rfl rfl rfl rfl hqueued).1,
    (h.noFair cpu).eevdf, ?_⟩
  intro c hc
  rcases (h.noFair cpu).current c hc with hidle | hrt
  · exact .inl hidle
  · exact .inr ((hsame.isRt c.task).trans (hents ▸ hrt))

section

variable (cpu : Nat) (hfiled : Filed s') (hsame : SameFair (sys.onCpu cpu) s' ∧ s'.NoFairRuns)
  (htasks : ∀ t ∈ s'.rq.tasks, t ∈ (sys.rqs cpu).tasks)

include hfiled hsame htasks

/-- A CPU works on its own queue and gives up slots of tasks that leave. -/
theorem Sound.local {slot : Nat → Option Nat}
    (hslot : ∀ t, slot t = sys.slot t ∨ t ∈ (sys.rqs cpu).tasks ∧ t ∉ s'.rq.tasks) :
    Sound { sys.setCpu cpu s' with slot := slot } := by
  have hmem : ∀ t c, t ∈ (update sys.rqs cpu s'.rq c).tasks → t ∈ (sys.rqs c).tasks := by
    intro t c ht
    by_cases hc : c = cpu
    · subst hc
      rw [update_self] at ht
      exact htasks t ht
    · rwa [update_of_ne hc] at ht
  refine ⟨?_, ?_, ?_, ?_, ?_, h.owedOnce⟩
  · intro c
    by_cases hc : c = cpu
    · subst hc
      simpa [onCpu, setCpu] using hfiled
    · simpa [onCpu, setCpu, update_of_ne hc] using (h.frame rfl hsame.1 c).1
  · intro c
    by_cases hc : c = cpu
    · subst hc
      simpa [onCpu, setCpu] using hsame.2
    · simpa [onCpu, setCpu, update_of_ne hc] using (h.frame rfl hsame.1 c).2
  · exact fun t c c' ht ht' => h.apart t c c' (hmem t c ht) (hmem t c' ht')
  · intro t c ht
    rcases hslot t with heq | ⟨hold, hgone⟩
    · exact fun hnone => h.slotted t c (hmem t c ht) (heq ▸ hnone)
    · -- A task whose slot is given up is on no other CPU either.
      have hc : c = cpu := h.apart t c cpu (hmem t c ht) hold
      subst hc
      simp only [setCpu, update_self] at ht
      exact absurd ht hgone
  · intro id call hcall howes
    obtain ⟨hslotted, hnowhere⟩ := h.owed id call hcall howes
    refine ⟨?_, fun c hc => hnowhere c (hmem _ c hc)⟩
    rcases hslot call.task with heq | ⟨hold, -⟩
    · exact fun hnone => hslotted (heq ▸ hnone)
    · exact absurd hold (hnowhere cpu)

theorem Sound.local_same : (sys.setCpu cpu s').Sound :=
  h.local cpu hfiled hsame htasks fun _ => .inl rfl

end

/-- A call takes a step that owes nothing new. -/
theorem Sound.setCall (id : Nat) (call : Option EnqueueCall) (hcall : ∀ c ∈ call, ¬ c.Owes) :
    (sys.setCall id call).Sound := by
  have hold : ∀ i c, update sys.calls id call i = some c → c.Owes → sys.calls i = some c := by
    intro i c hc howes
    rcases update_eq_cases hc with ⟨-, hnew⟩ | ⟨-, hold⟩
    · exact absurd howes (hcall c hnew)
    · exact hold
  refine ⟨h.filed, h.noFair, h.apart, h.slotted, ?_, ?_⟩
  · exact fun i c hc howes => h.owed i c (hold i c hc howes) howes
  · exact fun i i' c c' hc hc' howes howes' =>
      h.owedOnce i i' c c' (hold i c hc howes) (hold i' c' hc' howes') howes howes'

/-- A call sets the empty slot of its task and owes it a place from now on. -/
theorem Sound.settle (id : Nat) (cpu target : Nat) (phase : EnqueuePhase)
    (hnone : sys.slot task = none) :
    ((sys.setSlot task (some target)).setCall id (some ⟨task, cpu, phase⟩)).Sound := by
  have hslot : ∀ t, update sys.slot task (some target) t = none → sys.slot t = none := by
    intro t ht
    rcases update_eq_cases ht with ⟨-, hnew⟩ | ⟨-, hold⟩
    · cases hnew
    · exact hold
  -- Nobody else owes the task a place: it would have a slot.
  have hothers : ∀ i c, sys.calls i = some c → c.Owes → c.task ≠ task := by
    intro i c hc howes heq
    exact (h.owed i c hc howes).1 (heq ▸ hnone)
  have hnowhere : ∀ c, task ∉ (sys.rqs c).tasks := fun c hc => h.slotted task c hc hnone
  refine ⟨h.filed, h.noFair, h.apart, ?_, ?_, ?_⟩
  · exact fun t c ht hempty => h.slotted t c ht (hslot t hempty)
  · intro i c hc howes
    rcases update_eq_cases hc with ⟨-, hnew⟩ | ⟨-, hc⟩
    · cases hnew
      exact ⟨by simp [CpuSystem.setCall, setSlot], hnowhere⟩
    · obtain ⟨hslotted, hfree⟩ := h.owed i c hc howes
      exact ⟨fun hempty => hslotted (hslot _ hempty), hfree⟩
  · intro i i' c c' hc hc' howes howes' htask
    rcases update_eq_cases hc, update_eq_cases hc' with
      ⟨⟨hi, hnew⟩ | ⟨-, hc⟩, ⟨hi', hnew'⟩ | ⟨-, hc'⟩⟩
    · rw [hi, hi']
    · cases hnew
      exact absurd htask.symm (hothers i' c' hc' howes')
    · cases hnew'
      exact absurd htask (hothers i c hc howes)
    · exact h.owedOnce i i' c c' hc hc' howes howes' htask

/-- A call that owes its task a place goes on owing it. -/
theorem Sound.goOn {call call' : EnqueueCall} (hcall : sys.calls id = some call)
    (howes : call.Owes) (htask : call'.task = call.task) : (sys.setCall id (some call')).Sound := by
  have hold : ∀ i c, update sys.calls id (some call') i = some c → c.Owes →
      ∃ c₀, sys.calls i = some c₀ ∧ c₀.Owes ∧ c.task = c₀.task := by
    intro i c hc hcOwes
    rcases update_eq_cases hc with ⟨rfl, hnew⟩ | ⟨-, hold⟩
    · cases hnew
      exact ⟨call, hcall, howes, htask⟩
    · exact ⟨c, hold, hcOwes, rfl⟩
  refine ⟨h.filed, h.noFair, h.apart, h.slotted, ?_, ?_⟩
  · intro i c hc hcOwes
    obtain ⟨c₀, hc₀, howes₀, heq⟩ := hold i c hc hcOwes
    rw [heq]
    exact h.owed i c₀ hc₀ howes₀
  · intro i i' c c' hc hc' hcOwes hcOwes' heq
    obtain ⟨c₀, hc₀, howes₀, heq₀⟩ := hold i c hc hcOwes
    obtain ⟨c₁, hc₁, howes₁, heq₁⟩ := hold i' c' hc' hcOwes'
    exact h.owedOnce i i' c₀ c₁ hc₀ hc₁ howes₀ howes₁ (heq₀ ▸ heq₁ ▸ heq)

omit h in
/-- Placing a task changes nothing about the others. -/
theorem place_others (s : RqState) (entry : SchedEntry) (isNew : Bool) {rq : RunQueue}
    (hfiled : Filed ⟨s.ents, rq⟩) (hno : RqState.NoFairRuns ⟨s.ents, rq⟩)
    (hnew : entry.task ∉ rq.tasks) : Filed ⟨(s.place entry isNew).ents, rq⟩ ∧
      RqState.NoFairRuns ⟨(s.place entry isNew).ents, rq⟩ := by
  cases hclass : s.isRt entry with
  | true =>
    have heq : (s.place entry isNew).ents = s.ents := by
      simp only [RqState.place, hclass, if_true]
    rw [heq]
    exact ⟨hfiled, hno⟩
  | false =>
    obtain ⟨vruntime, hents⟩ := Filed.place_ents s.rq.eevdf s.ents entry isNew
    have heq : (s.place entry isNew).ents = (s.rq.eevdf.place s.ents entry isNew).2 := by
      simp only [RqState.place, hclass, Bool.false_eq_true, if_false]
    obtain ⟨ents, hents'⟩ : ∃ ents, ents = (s.rq.eevdf.place s.ents entry isNew).2 := ⟨_, rfl⟩
    rw [← hents'] at hents heq
    have hqueued : Queued ents rq := by
      rw [hents]
      exact hfiled.queued.modify entry.task _ (fun _ => rfl)
        fun hmem => absurd (mem_append_right _ hmem) hnew
    rw [heq]
    refine ⟨(hfiled.congr ⟨ents, rq⟩ rfl rfl rfl rfl hqueued).1, hno.eevdf, ?_⟩
    intro c hc
    rcases hno.current c hc with hidle | hrt
    · exact .inl hidle
    right
    dsimp only
    rw [hents, Entities.modify]
    split_ifs
    · exact hrt
    · exact hrt

/-- A task that is nowhere and has a slot is put into a queue. -/
theorem Sound.placeOn (now cpu : Nat) (hslot : sys.slot task ≠ none)
    (hnowhere : ∀ c, task ∉ (sys.rqs c).tasks)
    (howed : ∀ id call, sys.calls id = some call → call.Owes → call.task ≠ task) :
    (sys.placeOn now cpu task).Sound := by
  obtain ⟨s', hs'⟩ : ∃ s', s' = (sys.onCpu cpu).place ⟨task, now, false⟩
      !(sys.ents task).fair.placed := ⟨_, rfl⟩
  obtain ⟨hfiled, hperm⟩ := (h.filed cpu).place ⟨task, now, false⟩
    (!(sys.ents task).fair.placed) rfl (hnowhere cpu)
  have hno := (h.noFair cpu).place ⟨task, now, false⟩ (!(sys.ents task).fair.placed)
  have hothers : ∀ c, Filed ⟨s'.ents, sys.rqs c⟩ ∧ RqState.NoFairRuns ⟨s'.ents, sys.rqs c⟩ := by
    intro c
    rw [hs']
    exact place_others (sys.onCpu cpu) ⟨task, now, false⟩ _ (h.filed c) (h.noFair c) (hnowhere c)
  rw [← hs'] at hfiled hperm hno
  have heq : sys.placeOn now cpu task = sys.setCpu cpu s' := by rw [CpuSystem.placeOn, hs']
  rw [heq]
  have hmem : ∀ t c, t ∈ (update sys.rqs cpu s'.rq c).tasks →
      t = task ∧ c = cpu ∨ t ∈ (sys.rqs c).tasks := by
    intro t c ht
    by_cases hc : c = cpu
    · rw [hc, update_self] at ht
      rcases mem_cons.mp (hperm.mem_iff.mp ht) with hsame | hold
      · exact .inl ⟨hsame, hc⟩
      · exact .inr (hc ▸ hold)
    · rw [update_of_ne hc] at ht
      exact .inr ht
  refine ⟨?_, ?_, ?_, ?_, ?_, h.owedOnce⟩
  · intro c
    by_cases hc : c = cpu
    · subst hc
      simpa [onCpu, setCpu] using hfiled
    · simpa [onCpu, setCpu, update_of_ne hc] using (hothers c).1
  · intro c
    by_cases hc : c = cpu
    · subst hc
      simpa [onCpu, setCpu] using hno
    · simpa [onCpu, setCpu, update_of_ne hc] using (hothers c).2
  · intro t c c' ht ht'
    rcases hmem t c ht with ⟨rfl, hc⟩ | hold
    · rcases hmem t c' ht' with ⟨-, hc'⟩ | hold'
      · rw [hc, hc']
      · exact absurd hold' (hnowhere c')
    · rcases hmem t c' ht' with ⟨rfl, -⟩ | hold'
      · exact absurd hold (hnowhere c)
      · exact h.apart t c c' hold hold'
  · intro t c ht
    rcases hmem t c ht with ⟨rfl, -⟩ | hold
    · exact hslot
    · exact h.slotted t c hold
  · intro id call hcall howes
    obtain ⟨hslotted, hfree⟩ := h.owed id call hcall howes
    refine ⟨hslotted, ?_⟩
    intro c hc
    rcases hmem call.task c hc with ⟨heq, -⟩ | hold
    · exact howed id call hcall howes heq
    · exact hfree c hold

theorem Sound.look (id : Nat) (call : EnqueueCall) : (sys.look id call).Sound := by
  unfold CpuSystem.look
  split
  · exact h.setCall id _ (by simp [EnqueueCall.Owes])
  · split_ifs
    · exact h.setCall id _ (by simp [EnqueueCall.Owes])
    · exact h.setCall id _ (by simp [EnqueueCall.Owes])
  · exact h

variable {call : EnqueueCall}

theorem Sound.settleCall {ncpus id : Nat} {load : Nat → Nat}
    (hnone : call.phase = .migrating ∨ call.phase = .free → sys.slot call.task = none) :
    (sys.settle ncpus id load call).Sound := by
  unfold CpuSystem.settle
  dsimp only
  split
  case h_1 hphase => exact h.settle id _ _ _ (hnone (.inl hphase))
  case h_2 hphase =>
    have hempty := hnone (.inr hphase)
    rw [hempty]
    exact h.settle id _ _ _ hempty
  case h_3 => exact h

theorem Sound.reread (hcall : sys.calls id = some call) : (sys.reread id call).Sound := by
  unfold CpuSystem.reread
  split
  case h_1 hphase => exact h.goOn hcall (.inl hphase) rfl
  case h_2 => exact h

theorem Sound.placeCall {id now : Nat} (hcall : sys.calls id = some call) :
    (sys.place id now call).Sound := by
  have hdone : (sys.setCall id none).Sound := h.setCall id none (by simp)
  -- Once the call is over, nobody owes its task a place.
  have hothers : (call.Owes ∨ sys.slot call.task = none) → ∀ i c,
      (sys.setCall id none).calls i = some c → c.Owes → c.task ≠ call.task := by
    intro hcase i c hc howes heq
    have hi : i ≠ id := by
      intro hi
      simp [CpuSystem.setCall, hi] at hc
    simp only [CpuSystem.setCall, update_of_ne hi] at hc
    rcases hcase with howesCall | hnone
    · exact hi (h.owedOnce i id c call hc hcall howes howesCall heq)
    · exact (h.owed i c hc howes).1 (heq ▸ hnone)
  unfold CpuSystem.place
  split
  case h_1 cpu hphase =>
    have howes : call.Owes := .inr ⟨cpu, hphase⟩
    obtain ⟨hslot, hnowhere⟩ := h.owed id call hcall howes
    exact hdone.placeOn now cpu hslot hnowhere (hothers (.inl howes))
  case h_2 cpu hphase =>
    split
    case h_1 => exact hdone
    case h_2 hnone =>
      have hmid : ((sys.setSlot call.task (some cpu)).setCall id none).Sound := by
        have hsettled := h.settle id call.currentCpu cpu .free hnone
        have heq : (sys.setSlot call.task (some cpu)).setCall id none =
            ((sys.setSlot call.task (some cpu)).setCall id
              (some ⟨call.task, call.currentCpu, .free⟩)).setCall id none := by
          simp [CpuSystem.setCall]
        rw [heq]
        exact hsettled.setCall id none (by simp)
      refine hmid.placeOn now cpu (by simp [CpuSystem.setCall, setSlot]) ?_ (hothers (.inr hnone))
      exact fun c hc => h.slotted call.task c hc hnone
  case h_3 => exact h

end CpuSystem

namespace RqState

variable {s s' : RqState}

/-- A tick changes time slices only. -/
theorem NoFairRuns.shouldSwitch (h : s.NoFairRuns) :
    SameFair s s.shouldSwitch.2 ∧ s.shouldSwitch.2.NoFairRuns := by
  have htick : ∀ (q : RtRunQueue) (c : SchedEntry) (deltaNs : Nat),
      SameFair s { s with ents := (q.tick s.ents c deltaNs).2 } := by
    intro q c deltaNs
    have hslice : ∀ (ents : Entities) (slice : Nat), SameFair ⟨ents, s.rq⟩
        ⟨ents.modify c.task fun e => { e with rt := { e.rt with timeSliceNs := slice } }, s.rq⟩ :=
      fun ents slice => .modify c.task
        (fun e => { e with rt := { e.rt with timeSliceNs := slice } }) rfl rfl
        (fun _ => rfl) (fun _ => rfl) (fun _ => rfl)
    unfold RtRunQueue.tick
    dsimp only
    split_ifs
    · exact .refl s
    · exact hslice s.ents _
    · exact hslice s.ents _
    · exact (hslice s.ents _).trans (hslice _ defRtTimesliceNs)
    · exact .refl s
  have hkeep : SameFair s s.shouldSwitch.2 ∧ s.shouldSwitch.2.rq = s.rq := by
    unfold RqState.shouldSwitch
    cases s.rq.current with
    | none => exact ⟨.refl s, rfl⟩
    | some c =>
      dsimp only
      split_ifs
      · exact ⟨.refl s, rfl⟩
      · exact ⟨htick s.rq.rt c nsecPerTick, rfl⟩
      · exact ⟨.refl s, rfl⟩
      · exact ⟨.refl s, rfl⟩
  refine ⟨hkeep.1, ?_, ?_⟩
  · rw [hkeep.2]
    exact h.eevdf
  · intro c hc
    rw [hkeep.2] at hc
    exact (h.current c hc).same hkeep.1

theorem NoFairRuns.updateCurrent (h : s.NoFairRuns) (hfiled : Filed s) (now : Nat)
    (flags : UpdateFlags) :
    (SameFair s (s.updateCurrent now flags).2 ∧ (s.updateCurrent now flags).2.NoFairRuns) ∧
      Filed (s.updateCurrent now flags).2 ∧
      (s.updateCurrent now flags).2.rq.tasks = s.rq.tasks := by
  obtain ⟨s₁, hs₁⟩ : ∃ s₁ : RqState, s₁ = { s with rq := { s.rq with lastFlags := flags } } :=
    ⟨_, rfl⟩
  have hno₁ : s₁.NoFairRuns := by
    rw [hs₁]
    exact ⟨h.eevdf, h.current⟩
  have hsame₁ : SameFair s s₁ := by
    rw [hs₁]
    exact .of_eq rfl rfl
  have hfiled₁ : Filed s₁ ∧ s₁.rq.tasks = s.rq.tasks := by
    rw [hs₁]
    exact hfiled.congr _ rfl rfl rfl rfl hfiled.queued
  obtain ⟨s₂, hs₂⟩ : ∃ s₂, s₂ = s₁.charge now := ⟨_, rfl⟩
  have heq := hno₁.charge now
  rw [← hs₂] at heq
  have hsame₂ : SameFair s s₂ := hsame₁.trans (by rw [heq]; exact .of_eq rfl rfl)
  have hno₂ : s₂.NoFairRuns := by
    rw [heq]
    exact ⟨hno₁.eevdf, hno₁.current⟩
  have hfiled₂ := hfiled₁.1.charge now
  rw [← hs₂, hfiled₁.2] at hfiled₂
  have hcharged : (s.updateCurrent now flags).2 = s₂ ∨
      (s.updateCurrent now flags).2 = s₂.shouldSwitch.2 := by
    rw [hs₂, hs₁]
    cases flags with
    | tick => exact .inr rfl
    | yield | wait | exit => exact .inl rfl
  rcases hcharged with hend | hend
  · rw [hend]
    exact ⟨⟨hsame₂, hno₂⟩, hfiled₂⟩
  · rw [hend]
    obtain ⟨hsame, hno⟩ := hno₂.shouldSwitch
    obtain ⟨hfiled', htasks⟩ := hfiled₂.1.shouldSwitch
    exact ⟨⟨hsame₂.trans hsame, hno⟩, hfiled', htasks.trans hfiled₂.2⟩

theorem NoFairRuns.tryPickNext (h : s.NoFairRuns) (hfiled : Filed s) {now fresh : Nat}
    (hpick : ∀ next ∈ s.pickNext (s.rq.lastFlags = .yield), s.isRt next = true)
    (hrun : s.tryPickNext now fresh = .ok s') :
    (SameFair s s' ∧ s'.NoFairRuns) ∧ Filed s' ∧ s'.rq.tasks.Perm s.rq.tasks := by
  unfold RqState.tryPickNext at hrun
  split at hrun
  next next hnext =>
    change s.install now next true = .ok s' at hrun
    obtain ⟨s'', hrun', hfiled', hperm, -⟩ := hfiled.install now (hfiled.mem_of_pickNext hnext)
    have hno := h.install (by simpa using ⟨hfiled.queued.rt, hpick next hnext⟩) hrun
    rw [hrun'] at hrun
    cases hrun
    exact ⟨hno, hfiled', hperm⟩
  · split_ifs at hrun
    · obtain ⟨s'', hrun', hfiled', hperm⟩ := hfiled.startIdling now fresh
      have hno := h.startIdling hrun
      rw [hrun'] at hrun
      cases hrun
      exact ⟨hno, hfiled', hperm⟩
    · cases hrun
      exact ⟨⟨.refl s, h⟩, hfiled, .refl _⟩

end RqState

namespace CpuSystem

variable {sys sys' : CpuSystem}

theorem Sound.dequeueCurrent (h : sys.Sound) {cpu : Nat} {out : Option SchedEntry} {s' : RqState}
    (hrun : (sys.onCpu cpu).dequeueCurrent = .ok (out, s')) :
    match out with
    | none => (sys.setCpu cpu s').Sound
    | some entry => ((sys.setCpu cpu s').setSlot entry.task none).Sound := by
  obtain ⟨hfiled, hperm⟩ := (h.filed cpu).dequeueCurrent hrun
  have hsame := (h.noFair cpu).dequeueCurrent hrun
  cases out with
  | none => exact h.local_same cpu hfiled hsame fun t ht => hperm.mem_iff.mpr ht
  | some entry =>
    have hsplit : (sys.rqs cpu).tasks.Perm (entry.task :: s'.rq.tasks) := hperm
    refine h.local cpu hfiled hsame (fun t ht => hsplit.mem_iff.mpr (.tail _ ht)) ?_
    intro t
    by_cases ht : t = entry.task
    · right
      rw [ht]
      exact ⟨hsplit.mem_iff.mpr (.head _),
        (nodup_cons.mp (hsplit.nodup_iff.mp (h.filed cpu).nodup)).1⟩
    · left
      simp [setCpu, update_of_ne ht]

theorem Sound.step (h : sys.Sound) {ncpus : Nat} {op : CpuOp} (hop : sys.Settled op)
    (hstep : sys.step ncpus op = .ok sys') : sys'.Sound := by
  have hadvance : ∀ (id : Nat) (next : EnqueueCall → CpuSystem),
      (∀ call, sys.calls id = some call → (next call).Sound) →
      sys.advance id next = .ok sys' → sys'.Sound := by
    intro id next hnext hstep
    unfold CpuSystem.advance at hstep
    split at hstep
    · cases hstep
      exact h
    next call hcall =>
      cases hstep
      exact hnext call hcall
  cases op with
  | enqueue id task currentCpu =>
    cases hcall : sys.calls id with
    | some call =>
      simp only [CpuSystem.step, hcall] at hstep
      cases hstep
      exact h
    | none =>
      simp only [CpuSystem.step, hcall] at hstep
      cases hstep
      exact h.setCall id _ (by simp [EnqueueCall.Owes])
  | look id => exact hadvance id _ (fun call _ => h.look id call) hstep
  | settle id load => exact hadvance id _ (fun call hcall => h.settleCall (hop call hcall)) hstep
  | reread id => exact hadvance id _ (fun _ => h.reread) hstep
  | place id now => exact hadvance id _ (fun _ => h.placeCall) hstep
  | setAffinity task mask =>
    cases hstep
    have hsame : ∀ cpu, SameFair (sys.onCpu cpu)
        ⟨sys.ents.modify task fun e => { e with affinity := mask }, sys.rqs cpu⟩ :=
      fun cpu => .modify task (fun e => { e with affinity := mask }) rfl rfl
        (fun _ => rfl) (fun _ => rfl) (fun _ => rfl)
    exact ⟨fun cpu => (h.frame rfl (hsame cpu) cpu).1, fun cpu => (h.frame rfl (hsame cpu) cpu).2,
      h.apart, h.slotted, h.owed, h.owedOnce⟩
  | updateCurrent cpu now flags =>
    cases hstep
    obtain ⟨hsame, hfiled, htasks⟩ := (h.noFair cpu).updateCurrent (h.filed cpu) now flags
    exact h.local_same cpu hfiled hsame fun t ht => htasks ▸ ht
  | tryPickNext cpu now fresh =>
    obtain ⟨s', hrun, hstep⟩ := ok_of_bind hstep
    cases hstep
    obtain ⟨hsame, hfiled, hperm⟩ := (h.noFair cpu).tryPickNext (h.filed cpu) hop hrun
    exact h.local_same cpu hfiled hsame fun t ht => hperm.mem_iff.mp ht
  | dequeueCurrent cpu =>
    obtain ⟨⟨out, s'⟩, hrun, hstep⟩ := ok_of_bind hstep
    have hend := h.dequeueCurrent hrun
    cases out with
    | none | some entry =>
      cases hstep
      exact hend

/-- Without a running fair task every task is counted once. -/
theorem nrRunning_eq {s : RqState} (hfiled : Filed s) (hno : s.NoFairRuns) :
    s.rq.nrRunning = s.rq.tasks.toFinset.card := by
  have hrt : s.rq.rt.nrRunning = s.rq.rt.entries.length := hfiled.queued.rt.count
  rw [toFinset_card_of_nodup hfiled.nodup, RunQueue.tasks, length_append,
    RunQueue.queuedTasks, length_map, RunQueue.queuedEntries, length_append,
    RunQueue.nrRunning, EevdfRunQueue.nrRunning, hno.eevdf, hrt]
  have hvalues : s.rq.eevdf.queued.values.length = s.rq.eevdf.queued.length := length_map _
  rw [hvalues]
  cases hc : s.rq.current with
  | none => simp [RunQueue.runningTasks, hc]
  | some c =>
    cases hidle : c.isIdle with
    | true => simp [RunQueue.runningTasks, hc, hidle]
    | false => simp [RunQueue.runningTasks, hc, hidle, Nat.add_comm]

/-- As long as slots are set only when they are empty and no fair task is switched to, every
task is in one place and every CPU counts its tasks. -/
theorem onePlace_of_visits {ncpus : Nat} {ents : Entities}
    (hseq : Function.Injective fun t => (ents t).seq)
    (h : Visits (step ncpus) Settled (initial ents) sys) : sys.OnePlace := by
  have hsound := h.invariant (sound_initial hseq) fun _ _ _ hs hop hstep => hs.step hop hstep
  exact ⟨fun cpu => (hsound.filed cpu).nodup, hsound.apart,
    fun cpu => nrRunning_eq (hsound.filed cpu) (hsound.noFair cpu)⟩

/-- A real-time task is woken up and runs, another task waits on the next CPU. -/
def wakeOnce : List CpuOp :=
  [.enqueue 0 2 0, .look 0, .settle 0 fun _ => 0, .reread 0, .place 0 1, .tryPickNext 0 2 9,
    .setAffinity 1 fun cpu => cpu = 1, .enqueue 0 1 0, .look 0, .settle 0 fun _ => 0, .reread 0,
    .place 0 3]

/-- The affinity of a waiting task changes before it is woken up once more. -/
def wakeElsewhere : List CpuOp :=
  [.enqueue 0 0 0, .look 0, .settle 0 fun _ => 0, .reread 0, .place 0 1,
    .setAffinity 0 fun cpu => cpu = 1, .enqueue 0 0 0, .look 0, .settle 0 fun _ => 0, .place 0 2]

/-- One fair task is woken up and runs. -/
def wakeFair : List CpuOp :=
  [.enqueue 0 0 0, .look 0, .settle 0 fun _ => 0, .reread 0, .place 0 1, .tryPickNext 0 2 9]

theorem onePlace_wakeOnce : ∃ sys, Visits (step 2) Settled (initial mixedEntities) sys ∧
      ((sys.rqs 0).runningTasks = [2] ∧ (sys.rqs 1).queuedTasks = [1]) ∧ sys.OnePlace := by
  obtain ⟨sys, hvisits, hend⟩ := exists_visits (step 2) Settled (initial mixedEntities) wakeOnce
    (fun sys => (sys.rqs 0).runningTasks = [2] ∧ (sys.rqs 1).queuedTasks = [1]) (by decide)
  exact ⟨sys, hvisits, hend, onePlace_of_visits mixedEntities_seq hvisits⟩

/-- The task waits on both CPUs; and a CPU that runs one fair task counts two. -/
theorem not_onePlace_wakeElsewhere :
    (∃ sys, run (step 2) (initial freshEntities) wakeElsewhere = .ok sys ∧
      0 ∈ (sys.rqs 0).tasks ∧ 0 ∈ (sys.rqs 1).tasks ∧ ¬ sys.OnePlace) ∧
    ∃ sys, run (step 2) (initial freshEntities) wakeFair = .ok sys ∧
      (sys.rqs 0).tasks = [0] ∧ (sys.rqs 0).nrRunning = 2 ∧ ¬ sys.OnePlace := by
  obtain ⟨sys, hrun, hmem, hmem'⟩ := exists_ok (run (step 2) (initial freshEntities) wakeElsewhere)
    (fun sys => 0 ∈ (sys.rqs 0).tasks ∧ 0 ∈ (sys.rqs 1).tasks) (by decide)
  obtain ⟨sys', hrun', htasks, hnr⟩ := exists_ok (run (step 2) (initial freshEntities) wakeFair)
    (fun sys => (sys.rqs 0).tasks = [0] ∧ (sys.rqs 0).nrRunning = 2) (by decide)
  refine ⟨⟨sys, hrun, hmem, hmem', ?_⟩, sys', hrun', htasks, hnr, ?_⟩
  · intro hplace
    exact absurd (hplace.apart 0 0 1 hmem hmem') (by decide)
  · intro hplace
    have hcard := hplace.nrRunning 0
    rw [hnr, htasks] at hcard
    exact absurd hcard (by decide)

end CpuSystem

end Petra.Sched
