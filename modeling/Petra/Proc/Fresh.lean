import Petra.Base.Numbers
import Petra.Proc.Sections

/-! # Identifiers that are not used again

As long as the search for a process identifier does not start again from the front, no
identifier is handed out twice, and the table has the one process of an identifier or none.
-/

namespace Petra.Proc

open Base List Nat
open Function (update_self update_of_ne)

/-- The processes that the variables of a call refer to. A child that its call has not inserted
yet is not among them. -/
def Call.procs : Call → List Nat
  | .clonePush c | .waitRead _ _ _ c | .waitClear c | .reapCheck c | .reapThreads c _
  | .reapRetain c _ | .reapRemove c _ | .reapFree c _ => [c]
  | .pgLeader q _ | .pgParent q _ | .pgFind q _ | .pgOwnSid q _ _ | .pgOld q _ | .pgWrite q _ _
  | .pgUpdate q _ _ => [q]
  | .pgLeaderSid q _ l => [q, l]
  | _ => []

namespace ProcSystem

variable {s s' : ProcSystem} {t u p q c : Nat} {call : Call} {call' : Call} {call₀ : Call}

/-- A process that is, or was, in the table. -/
def Public (s : ProcSystem) (c : Nat) : Prop :=
  c < s.nextProc ∧ ∀ t, s.calls t ≠ .cloneInsert c

/-- The table has the process. -/
def Listed (s : ProcSystem) (p : Nat) : Prop := s.allproc (s.procs p).pid = some p
deriving Decidable

/-- A thread of a process that is, or was, in the table. -/
abbrev Caller (s : ProcSystem) (t : Nat) : Prop := t < s.nextThread ∧ s.Public (s.self t)

structure Fresh (s : ProcSystem) : Prop where
  pid_lt : ∀ p < s.nextProc, (s.procs p).pid < s.pids.next
  apart : ∀ p < s.nextProc, ∀ q < s.nextProc, (s.procs p).pid = (s.procs q).pid → p = q
  table : ∀ pid p, s.allproc pid = some p → s.Public p ∧ (s.procs p).pid = pid
  handed : ∀ t pid, s.calls t = .cloneInherit pid → pid < s.pids.next ∧
    (∀ p < s.nextProc, (s.procs p).pid ≠ pid) ∧ ∀ u, s.calls u = .cloneInherit pid → u = t
  hidden : ∀ t c, s.calls t = .cloneInsert c → c < s.nextProc ∧
    s.allproc (s.procs c).pid = none ∧ ∀ u, s.calls u = .cloneInsert c → u = t
  busy : ∀ t, s.calls t ≠ .idle → t < s.nextThread ∧ s.Public (s.self t)
  known : ∀ t, ∀ c ∈ (s.calls t).procs, s.Public c
  runs : ∀ t < s.nextThread, (s.threads t).runs = true → s.Public (s.self t)
  members : ∀ p < s.nextProc, ∀ u ∈ (s.procs p).threads, u < s.nextThread ∧ s.self u = p

theorem calls_of_setCall (hu : (s.setCall t call).calls u = call')
    (hne : call ≠ call') : s.calls u = call' := by
  revert hu
  exact forall_setCall (P := fun u call => call = call' → s.calls u = call')
    (fun hu => absurd hu hne) (fun _ _ hu => hu) u

/-- The system with one more thread. -/
abbrev withThread (s : ProcSystem) (thread : Thread) : ProcSystem :=
  { s with
    threads := Function.update s.threads s.nextThread thread
    nextThread := s.nextThread + 1 }

theorem self_withThread {thread : Thread} :
    (s.withThread thread).self s.nextThread = thread.proc := by
  dsimp only [self]
  rw [update_self]

/-- A call that only one thread makes is made by this thread if nobody made it before. -/
theorem only_setCall {P : Prop} (hnew : call = call' → P ∧ ∀ u, s.calls u ≠ call')
    (hold : ∀ u, s.calls u = call' → P ∧ ∀ v, s.calls v = call' → v = u)
    (hu : (s.setCall t call).calls u = call') :
    P ∧ ∀ v, (s.setCall t call).calls v = call' → v = u := by
  by_cases hcall : call = call'
  · obtain ⟨hP, hnone⟩ := hnew hcall
    have hself : ∀ v, (s.setCall t call).calls v = call' → v = t := by
      intro v hv
      by_contra hvt
      rw [calls_setCall_of_ne hvt] at hv
      exact hnone v hv
    exact ⟨hP, fun v hv => (hself v hv).trans (hself u hu).symm⟩
  · obtain ⟨hP, honly⟩ := hold u (calls_of_setCall hu hcall)
    exact ⟨hP, fun v hv => honly v (calls_of_setCall hv hcall)⟩

theorem Public.setCall (h : s.Public c) (hcall : call ≠ .cloneInsert c) :
    (s.setCall t call).Public c :=
  ⟨h.1, fun u hu => h.2 u (calls_of_setCall hu hcall)⟩

theorem Public.act (h : s.Public c) (hact : s.act t call₀ = some s') : s'.Public c := by
  refine ⟨h.1.trans_le ((act_frame hact).nextProc_le), ?_⟩
  intro u hu
  by_cases hut : u = t
  · rw [hut] at hu
    exact h.1.ne ((act_trail hact).cloneInsert hu).2
  · rw [(act_frame hact).calls hut] at hu
    exact h.2 u hu

/-- A call that acts learns of no process but the one it has inserted. -/
theorem procs_act (hact : s.act t call₀ = some s')
    (hp : p ∈ (s'.calls t).procs) : p ∈ call₀.procs ∨ call₀ = .cloneInsert p := by
  revert hact
  fun_cases act s t call₀ <;> intro hact <;> cases hact <;>
    rw [calls_setCall_self] at hp
  all_goals first
    | exact .inl hp
    | (rw [Call.procs, mem_singleton] at hp; exact .inr (by rw [hp]))
    | (split at hp <;> cases hp)
    | cases hp

namespace Fresh

variable (h : s.Fresh)

include h

/-- A call goes on. An identifier that it has got, or a process that it is about to enter, is
not known to any other. -/
theorem setCall_of_new (ht : t < s.nextThread) (hself : (s.setCall t call).Public (s.self t))
    (hprocs : ∀ c ∈ call.procs, (s.setCall t call).Public c)
    (hhanded : ∀ pid, call = .cloneInherit pid → (pid < s.pids.next ∧
      ∀ p < s.nextProc, (s.procs p).pid ≠ pid) ∧ ∀ u, s.calls u ≠ .cloneInherit pid)
    (hhidden : ∀ c, call = .cloneInsert c → (c < s.nextProc ∧
      s.allproc (s.procs c).pid = none) ∧ ∀ u, s.calls u ≠ .cloneInsert c)
    (htable : ∀ pid p, s.allproc pid = some p → call ≠ .cloneInsert p)
    (hbusy : ∀ u, s.calls u ≠ .idle → call ≠ .cloneInsert (s.self u))
    (hknown : ∀ u, ∀ c ∈ (s.calls u).procs, call ≠ .cloneInsert c)
    (hruns : ∀ u < s.nextThread, (s.threads u).runs = true → call ≠ .cloneInsert (s.self u)) :
    (s.setCall t call).Fresh := by
  refine { h with
    table := ?table, handed := ?handed, hidden := ?hidden, busy := ?busy, known := ?known,
    runs := ?runs }
  case table =>
    intro pid p hp
    obtain ⟨hpublic, hpid⟩ := h.table pid p hp
    exact ⟨hpublic.setCall (htable pid p hp), hpid⟩
  case handed =>
    exact fun u pid hu => and_assoc.mp (only_setCall (hhanded pid)
      (fun v hv => and_assoc.mpr (h.handed v pid hv)) hu)
  case hidden =>
    exact fun u c hu => and_assoc.mp (only_setCall (hhidden c)
      (fun v hv => and_assoc.mpr (h.hidden v c hv)) hu)
  case busy =>
    intro u hu
    by_cases hut : u = t
    · subst hut
      exact ⟨ht, hself⟩
    · rw [calls_setCall_of_ne hut] at hu
      obtain ⟨hlt, hpublic⟩ := h.busy u hu
      exact ⟨hlt, hpublic.setCall (hbusy u hu)⟩
  case known =>
    intro u c hc
    by_cases hut : u = t
    · rw [hut, calls_setCall_self] at hc
      exact hprocs c hc
    · rw [calls_setCall_of_ne hut] at hc
      exact (h.known u c hc).setCall (hknown u c hc)
  case runs =>
    intro u hu hrun
    exact (h.runs u hu hrun).setCall (hruns u hu hrun)

/-- A call goes on, and is not about to enter a new process. -/
theorem setCall_of_known (ht : s.Caller t) (hsettled : call.Settled)
    (hknown : ∀ c ∈ call.procs, (s.setCall t call).Public c) : (s.setCall t call).Fresh := by
  have hinsert : ∀ c, call ≠ .cloneInsert c := by
    rintro c rfl
    exact hsettled
  have hinherit : ∀ pid, call ≠ .cloneInherit pid := by
    rintro pid rfl
    exact hsettled
  exact h.setCall_of_new ht.1 (ht.2.setCall (hinsert _)) hknown
    (fun pid hpid => absurd hpid (hinherit pid)) (fun c hc => absurd hc (hinsert c))
    (fun _ _ _ => hinsert _) (fun _ _ => hinsert _) (fun _ _ _ => hinsert _)
    (fun _ _ _ => hinsert _)

theorem setCall (ht : s.Caller t) (hsettled : call.Settled)
    (hknown : ∀ c ∈ call.procs, s.Public c) : (s.setCall t call).Fresh := by
  refine h.setCall_of_known ht hsettled fun c hc => (hknown c hc).setCall ?_
  rintro rfl
  exact hsettled

variable {proc : Proc} {thread : Thread}

/-- A process is written back with the identifier it has and with threads of its own. -/
theorem setProc_of_members (hpid : proc.pid = (s.procs p).pid) (hmembers : p < s.nextProc →
      ∀ u ∈ proc.threads, u < s.nextThread ∧ s.self u = p) : (s.setProc p proc).Fresh := by
  have hpids := field_setProc (s := s) Proc.pid hpid
  constructor
  case pid_lt =>
    intro q hq
    rw [hpids]
    exact h.pid_lt q hq
  case apart =>
    intro q hq r hr hqr
    rw [hpids, hpids] at hqr
    exact h.apart q hq r hr hqr
  case table =>
    intro pid q hq
    rw [hpids]
    exact h.table pid q hq
  case handed =>
    intro u pid hu
    obtain ⟨hlt, hne, honly⟩ := h.handed u pid hu
    refine ⟨hlt, ?_, honly⟩
    intro q hq
    rw [hpids]
    exact hne q hq
  case hidden =>
    intro u c hu
    rw [hpids]
    exact h.hidden u c hu
  case busy => exact h.busy
  case known => exact h.known
  case runs => exact h.runs
  case members =>
    intro q hq u hu
    by_cases hqp : q = p
    · rw [hqp, procs_setProc_self] at hu
      rw [hqp] at hq ⊢
      exact hmembers hq u hu
    · rw [procs_setProc_of_ne hqp] at hu
      exact h.members q hq u hu

theorem setProc (hpid : proc.pid = (s.procs p).pid)
    (hthreads : proc.threads.Sublist (s.procs p).threads) : (s.setProc p proc).Fresh :=
  h.setProc_of_members hpid fun hp u hu => h.members p hp u (hthreads.subset hu)

/-- A thread dies or is run, and stays in its process. -/
theorem setThread (hproc : thread.proc = s.self t)
    (hruns : thread.runs = true → t < s.nextThread → s.Public (s.self t)) :
    (s.setThread t thread).Fresh := by
  have hself : ∀ u, (s.setThread t thread).self u = s.self u := field_setThread Thread.proc hproc
  refine { h with busy := ?busy, runs := ?runs, members := ?members }
  case busy =>
    intro u hu
    rw [hself]
    exact h.busy u hu
  case runs =>
    intro u hu hrun
    rw [hself]
    by_cases hut : u = t
    · subst hut
      refine hruns ?_ hu
      have hthread : (s.setThread u thread).threads u = thread := update_self ..
      rwa [hthread] at hrun
    · have hthread : (s.setThread t thread).threads u = s.threads u := update_of_ne hut ..
      rw [hthread] at hrun
      exact h.runs u hu hrun
  case members =>
    intro q hq u hu
    rw [hself]
    exact h.members q hq u hu

theorem markDead (t : Nat) : (s.markDead t).Fresh :=
  h.setThread rfl fun hruns ht => h.runs t ht hruns

theorem withThread (hruns : thread.runs = true → s.Public thread.proc) :
    (s.withThread thread).Fresh := by
  have hthreads : ∀ u < s.nextThread, (s.withThread thread).threads u = s.threads u :=
    fun u hu => update_of_ne hu.ne ..
  have hself : ∀ u < s.nextThread, (s.withThread thread).self u = s.self u :=
    fun u hu => congrArg Thread.proc (hthreads u hu)
  have hlast : (s.withThread thread).threads s.nextThread = thread := update_self ..
  refine { h with busy := ?busy, runs := ?runs, members := ?members }
  case busy =>
    intro u hu
    obtain ⟨hlt, hself'⟩ := h.busy u hu
    rw [hself u hlt]
    exact ⟨Nat.lt_succ_of_lt hlt, hself'⟩
  case runs =>
    intro u hu hrun
    rcases Nat.lt_succ_iff_lt_or_eq.mp hu with hu | rfl
    · rw [hthreads u hu] at hrun
      rw [hself u hu]
      exact h.runs u hu hrun
    · rw [self, hlast]
      rw [hlast] at hrun
      exact hruns hrun
  case members =>
    intro q hq u hu
    obtain ⟨hlt, hself'⟩ := h.members q hq u hu
    rw [hself u hlt]
    exact ⟨Nat.lt_succ_of_lt hlt, hself'⟩

/-- Only indices and histories change, and the search may go up. -/
theorem of_same (hprocs : s'.procs = s.procs) (hthreads : s'.threads = s.threads)
    (hcalls : s'.calls = s.calls) (hnextProc : s'.nextProc = s.nextProc)
    (hnextThread : s'.nextThread = s.nextThread) (hpids : s.pids.next ≤ s'.pids.next)
    (hallproc : s'.allproc = s.allproc) : s'.Fresh := by
  obtain ⟨procs, threads, calls, nextProc, nextThread, pids, nextTid, allproc, pgrpMap,
    sessionMap, returned, kernel⟩ := s'
  subst hprocs hthreads hcalls hnextProc hnextThread hallproc
  refine { h with pid_lt := ?pid_lt, handed := ?handed }
  case pid_lt => exact fun p hp => (h.pid_lt p hp).trans_le hpids
  case handed =>
    intro u pid hu
    obtain ⟨hlt, hne, honly⟩ := h.handed u pid hu
    exact ⟨hlt.trans_le hpids, hne, honly⟩

variable {pid : Nat}

/-- A call has got an identifier that no process and no other call has. -/
theorem hand (ht : s.Caller t) (hlt : pid < s.pids.next)
    (hne : ∀ p < s.nextProc, (s.procs p).pid ≠ pid) (hnew : ∀ u, s.calls u ≠ .cloneInherit pid) :
    (s.setCall t (.cloneInherit pid)).Fresh := by
  refine h.setCall_of_new ht.1 (ht.2.setCall nofun) nofun ?_ nofun nofun nofun nofun nofun
  rintro _ ⟨⟩
  exact ⟨⟨hlt, hne⟩, hnew⟩

omit h in
theorem pid_newProc : ((s.newProc proc).procs s.nextProc).pid = proc.pid := by
  dsimp only [ProcSystem.newProc]
  rw [update_self]

/-- A new process has an identifier of its own. -/
theorem newProc (hlt : proc.pid < s.pids.next) (hne : ∀ p < s.nextProc, (s.procs p).pid ≠ proc.pid)
    (hnew : ∀ u, s.calls u ≠ .cloneInherit proc.pid) : (s.newProc proc).Fresh := by
  -- What has a number below the next one is as it was.
  have hprocs : ∀ p < s.nextProc, (s.newProc proc).procs p = s.procs p :=
    fun p hp => update_of_ne hp.ne ..
  have hthread : (s.withThread ⟨proc.pid, s.nextProc, false, false⟩).Fresh := h.withThread nofun
  have hlast : ((s.newProc proc).procs s.nextProc).pid = proc.pid := pid_newProc
  have hpublic : ∀ c, s.Public c → (s.newProc proc).Public c :=
    fun c hc => ⟨lt_succ_of_lt hc.1, hc.2⟩
  have hcases : ∀ p < (s.newProc proc).nextProc, p < s.nextProc ∨ p = s.nextProc :=
    fun p hp => Nat.lt_succ_iff_lt_or_eq.mp hp
  constructor
  case pid_lt =>
    intro p hp
    rcases hcases p hp with hp | rfl
    · rw [hprocs p hp]
      exact h.pid_lt p hp
    · rw [hlast]
      exact hlt
  case apart =>
    refine apart_succ (fun p hp => by rw [hprocs p hp]) h.apart fun p hp => ?_
    rw [hlast]
    exact hne p hp
  case table =>
    intro pid p hp
    obtain ⟨hp', hpid⟩ := h.table pid p hp
    rw [hprocs p hp'.1]
    exact ⟨hpublic p hp', hpid⟩
  case handed =>
    intro u pid hu
    obtain ⟨hlt', hne', honly⟩ := h.handed u pid hu
    refine ⟨hlt', ?_, honly⟩
    intro p hp
    rcases hcases p hp with hp | rfl
    · rw [hprocs p hp]
      exact hne' p hp
    · rw [hlast]
      rintro rfl
      exact hnew u hu
  case hidden =>
    intro u c hu
    obtain ⟨hlt', hnone, honly⟩ := h.hidden u c hu
    rw [hprocs c hlt']
    exact ⟨lt_succ_of_lt hlt', hnone, honly⟩
  case busy =>
    intro u hu
    obtain ⟨hlt', hself⟩ := hthread.busy u hu
    exact ⟨hlt', hpublic _ hself⟩
  case known => exact fun u c hc => hpublic c (h.known u c hc)
  case runs => exact fun u hu hruns => hpublic _ (hthread.runs u hu hruns)
  case members =>
    intro p hp u hu
    rcases hcases p hp with hp | rfl
    · rw [hprocs p hp] at hu
      exact hthread.members p hp u hu
    · dsimp only [ProcSystem.newProc] at hu
      rw [update_self, mem_singleton] at hu
      subst hu
      exact ⟨lt_succ_self _, self_withThread⟩

/-- The process with the last number is not known to anyone, and a call is about to insert it. -/
theorem hide (ht : s.Caller t) (hc : c < s.nextProc)
    (hnone : s.allproc (s.procs c).pid = none) (hnew : ∀ u, s.calls u ≠ .cloneInsert c)
    (htable : ∀ pid, s.allproc pid ≠ some c) (hbusy : ∀ u, s.calls u ≠ .idle → s.self u ≠ c)
    (hselfc : s.self t ≠ c) (hknown : ∀ u, c ∉ (s.calls u).procs)
    (hruns : ∀ u < s.nextThread, (s.threads u).runs = true → s.self u ≠ c) :
    (s.setCall t (.cloneInsert c)).Fresh := by
  have hother : ∀ {d}, d ≠ c → Call.cloneInsert c ≠ .cloneInsert d := by
    intro d hne heq
    exact hne (Call.cloneInsert.inj heq).symm
  refine h.setCall_of_new ht.1 (ht.2.setCall (hother hselfc)) nofun nofun ?_ ?_
    (fun u hu => hother (hbusy u hu)) ?_ (fun u hu hrun => hother (hruns u hu hrun))
  · rintro _ ⟨⟩
    exact ⟨⟨hc, hnone⟩, hnew⟩
  · intro pid p hp
    refine hother ?_
    rintro rfl
    exact htable pid hp
  · intro u d hd
    refine hother ?_
    rintro rfl
    exact hknown u hd

/-- A process that no call is about to insert is entered under its identifier. -/
theorem allprocInsert (hc : s.Public c) : (s.allprocInsert c).Fresh := by
  refine { h with table := ?table, hidden := ?hidden }
  case table =>
    intro pid p hp
    rcases update_eq_cases hp with ⟨hpid, hnew⟩ | ⟨-, hold⟩
    · cases hnew
      exact ⟨hc, hpid.symm⟩
    · exact h.table pid p hold
  case hidden =>
    intro u d hu
    obtain ⟨hlt, hnone, honly⟩ := h.hidden u d hu
    have hne : (s.procs d).pid ≠ (s.procs c).pid := by
      intro heq
      rw [h.apart d hlt c hc.1 heq] at hu
      exact hc.2 u hu
    exact ⟨hlt, (update_of_ne hne ..).trans hnone, honly⟩

theorem allprocRemove (pid : Nat) : (s.allprocRemove pid).Fresh := by
  unfold ProcSystem.allprocRemove
  split
  case h_1 => exact h
  case h_2 p hp =>
    refine { h with table := ?table, hidden := ?hidden }
    case table =>
      intro pid' q hq
      rcases update_eq_cases hq with ⟨-, hnew⟩ | ⟨-, hold⟩
      · cases hnew
      · exact h.table pid' q hold
    case hidden =>
      intro u d hu
      obtain ⟨hlt, hnone, honly⟩ := h.hidden u d hu
      refine ⟨hlt, ?_, honly⟩
      dsimp only
      by_cases hpid : (s.procs d).pid = pid
      · rw [hpid, update_self]
      · rw [update_of_ne hpid]
        exact hnone

theorem addThread (hp : s.Public p) (tid : Nat) : (s.addThread p tid).Fresh := by
  have hthread : (s.withThread ⟨tid, p, false, true⟩).Fresh := h.withThread fun _ => hp
  refine hthread.setProc_of_members (p := p) rfl ?_
  intro hlt u hu
  rcases mem_append.mp hu with hu | hu
  · exact hthread.members p hlt u hu
  · rw [mem_singleton] at hu
    subst hu
    exact ⟨lt_succ_self _, self_withThread⟩

/-- What a reading section leads to knows only processes that are known. -/
theorem look_known (hlook : s.look t (s.calls t) = some call) :
    call.Settled ∧ ∀ c ∈ call.procs, s.Public c := by
  have hknown := h.known t
  have hone : ∀ c, s.Public c → ∀ d ∈ [c], s.Public d := by
    intro c hc d hd
    rw [mem_singleton] at hd
    exact hd ▸ hc
  generalize s.calls t = call₀ at hlook hknown
  revert hlook hknown
  fun_cases look s t call₀ <;> intro hlook hknown <;> try cases hlook
  -- The call knows no process, those it knew, or one that is in the table.
  all_goals first
    | exact ⟨trivial, hknown⟩
    | exact ⟨trivial, hone _ (h.table _ _ (by assumption)).1⟩
    | exact ⟨trivial, hone _ (hknown _ (.head _))⟩
    | exact ⟨trivial, forall_mem_cons.mpr
        ⟨hknown _ (.head _), hone _ (h.table _ _ (by assumption)).1⟩⟩
    | (obtain ⟨r, -, rfl⟩ := Option.map_eq_some_iff.mp hlook; exact ⟨trivial, forall_mem_nil _⟩)
    | exact ⟨trivial, forall_mem_nil _⟩

omit h in
theorem self_newProc (hu : u < s.nextThread) : (s.newProc proc).self u = s.self u :=
  congrArg Thread.proc (update_of_ne hu.ne ..)

theorem allproc_eq_none (hne : ∀ p < s.nextProc, (s.procs p).pid ≠ pid) : s.allproc pid = none := by
  cases hp : s.allproc pid with
  | none => rfl
  | some p =>
    obtain ⟨hpublic, hpid⟩ := h.table pid p hp
    exact absurd hpid (hne p hpublic.1)

theorem pid_ne (hlow : s.pids.next ≤ pid) (p : Nat) (hp : p < s.nextProc) : (s.procs p).pid ≠ pid :=
  ((h.pid_lt p hp).trans_le hlow).ne

/-- The kernel makes a process with an identifier from ahead. -/
theorem newKproc {pids : PidAllocator} (hlow : s.pids.next ≤ pid) (hnext : pids.next = pid + 1) :
    (s.newKproc pid pids).Fresh := by
  have hraise : { s with pids := pids, kernel := s.kernel ++ [s.nextProc] }.Fresh := by
    refine h.of_same rfl rfl rfl rfl rfl ?_ rfl
    rw [hnext]
    exact le_succ_of_le hlow
  refine hraise.newProc ?_ ?_ ?_
  · rw [hnext]
    exact lt_succ_self pid
  · exact h.pid_ne hlow
  · exact fun u hu => not_lt.mpr hlow (h.handed u pid hu).1

/-- A new process that its call is about to insert. -/
theorem newHidden (ht : s.Caller t)
    (hlt : proc.pid < s.pids.next) (hne : ∀ p < s.nextProc, (s.procs p).pid ≠ proc.pid)
    (hnew : ∀ u, s.calls u ≠ .cloneInherit proc.pid) :
    ((s.newProc proc).setCall t (.cloneInsert s.nextProc)).Fresh := by
  -- Whatever is known already has a lower number.
  have hlow : ∀ d, s.Public d → d ≠ s.nextProc := fun d hd => hd.1.ne
  have hselft : (s.newProc proc).self t = s.self t := self_newProc ht.1
  refine (h.newProc hlt hne hnew).hide ⟨lt_succ_of_lt ht.1, ?_⟩ (lt_succ_self _) ?_ ?_ ?_
    ?_ ?_ ?_ ?_
  · rw [hselft]
    exact ⟨lt_succ_of_lt ht.2.1, ht.2.2⟩
  · rw [pid_newProc]
    exact h.allproc_eq_none hne
  · intro u hu
    exact lt_irrefl _ (h.hidden u _ hu).1
  · intro pid hp
    exact hlow _ (h.table pid _ hp).1 rfl
  · intro u hu
    obtain ⟨hlt', hself'⟩ := h.busy u hu
    rw [self_newProc hlt']
    exact hlow _ hself'
  · rw [hselft]
    exact hlow _ ht.2
  · intro u hc
    exact hlow _ (h.known u _ hc) rfl
  · have hthread : (s.withThread ⟨proc.pid, s.nextProc, false, false⟩).Fresh := h.withThread nofun
    exact fun u hu hruns => hlow _ (hthread.runs u hu hruns)

/-- A handed out identifier becomes a process that nobody knows. -/
theorem inherit (hcall : s.calls t = .cloneInherit proc.pid) :
    ((s.newProc proc).setCall t (.cloneInsert s.nextProc)).Fresh := by
  have ht := h.busy t (hcall ▸ nofun)
  obtain ⟨hlt, hne, honly⟩ := h.handed t proc.pid hcall
  -- Without its call the identifier is nobody's.
  have hidle : (s.setCall t .idle).Fresh := h.setCall ht trivial nofun
  have hnew : ∀ u, (s.setCall t .idle).calls u ≠ .cloneInherit proc.pid := by
    intro u hu
    rw [honly u (calls_of_setCall hu nofun), calls_setCall_self] at hu
    cases hu
  have hstate : (s.newProc proc).setCall t (.cloneInsert s.nextProc) =
      ((s.setCall t .idle).newProc proc).setCall t (.cloneInsert s.nextProc) := by
    dsimp only [ProcSystem.setCall, ProcSystem.newProc]
    rw [Function.update_idem]
  rw [hstate]
  exact hidle.newHidden ⟨ht.1, ht.2.setCall nofun⟩ hlt hne hnew

/-- The process that a call was about to insert is public from now on. -/
theorem insert (hcall : s.calls t = .cloneInsert c) :
    ((s.allprocInsert c).setCall t (.clonePush c)).Fresh := by
  obtain ⟨hlt, -, honly⟩ := h.hidden t c hcall
  have hpublic : (s.setCall t (.clonePush c)).Public c := by
    refine ⟨hlt, ?_⟩
    intro u hu
    rw [honly u (calls_of_setCall hu nofun), calls_setCall_self] at hu
    cases hu
  have hpush : (s.setCall t (.clonePush c)).Fresh := by
    refine h.setCall_of_known (h.busy t (hcall ▸ nofun)) trivial ?_
    intro d hd
    rw [Call.procs, mem_singleton] at hd
    rw [hd]
    exact hpublic
  exact hpush.allprocInsert hpublic

theorem runThreads (threads : List Nat) (hthreads : ∀ u ∈ threads, s.Public (s.self u)) :
    (s.runThreads threads).Fresh := by
  induction threads generalizing s with
  | nil => exact h
  | cons u threads ih =>
    refine ih (h.setThread rfl fun _ _ => hthreads u (.head _)) ?_
    intro v hv
    have hself : (s.setThread u { s.threads u with runs := true }).self v = s.self v :=
      field_setThread Thread.proc (by rfl) v
    rw [hself]
    exact hthreads v (.tail _ hv)

theorem setParents (reaper : Nat) (children : List Nat) : (s.setParents reaper children).Fresh := by
  unfold ProcSystem.setParents
  induction children generalizing s with
  | nil => exact h
  | cons pid children ih =>
    rw [foldl_cons]
    apply ih
    split
    · exact h
    · exact h.setProc rfl (List.Sublist.refl _)

theorem treeReparentChildren (children : List Nat) (reaper : Nat) :
    (s.treeReparentChildren children reaper).Fresh := by
  unfold ProcSystem.treeReparentChildren
  have hparents := h.setParents reaper children
  dsimp only
  split
  · exact hparents
  · exact hparents.setProc rfl (List.Sublist.refl _)

/-- A call that is not idle, and not about to enter a process, goes on. -/
theorem advance (hbusy : s.calls t ≠ .idle) (hsettled : call.Settled)
    (hknown : ∀ c ∈ call.procs, s.Public c) : (s.setCall t call).Fresh :=
  h.setCall (h.busy t hbusy) hsettled hknown

/-- A section writes a process back, and goes on. -/
theorem advanceProc (hbusy : s.calls t ≠ .idle) (hpid : proc.pid = (s.procs p).pid)
    (hthreads : proc.threads.Sublist (s.procs p).threads) (hsettled : call.Settled)
    (hknown : ∀ c ∈ call.procs, s.Public c) : ((s.setProc p proc).setCall t call).Fresh :=
  (h.setProc hpid hthreads).advance hbusy hsettled hknown

theorem act (hact : s.act t (s.calls t) = some s')
    (hwrap : s.calls t = .cloneAllocate → s.pids.FreeBelow pidMax) : s'.Fresh := by
  have hknown := h.known t
  have hbusy := busy_of_act hact
  have ht := h.busy t hbusy
  cases hcall : s.calls t <;> rw [hcall] at hact hknown <;> dsimp only [ProcSystem.act] at hact
  case cloneAllocate =>
    obtain ⟨pid, hpid, hlow, -⟩ := PidAllocator.allocate_spec (hwrap hcall) le_rfl
    rw [hpid] at hact
    cases hact
    have hraise : { s with pids := ⟨pid + 1, Function.update s.pids.bits pid true⟩ }.Fresh :=
      h.of_same rfl rfl rfl rfl rfl (le_succ_of_le hlow) rfl
    refine hraise.hand ht (lt_succ_self pid) ?_ ?_
    · exact h.pid_ne hlow
    · intro u hu
      exact not_lt.mpr hlow (h.handed u pid hu).1
  case cloneInherit pid =>
    cases hact
    exact h.inherit hcall
  case cloneInsert c =>
    cases hact
    exact h.insert hcall
  case clonePush c =>
    cases hact
    have hpush : (s.setProc (s.self t) { s.procs (s.self t) with
        children := (s.procs (s.self t)).children ++ [(s.procs c).pid] }).Fresh :=
      h.setProc rfl (List.Sublist.refl _)
    generalize hpushed : s.setProc (s.self t) { s.procs (s.self t) with
      children := (s.procs (s.self t)).children ++ [(s.procs c).pid] } = pushed at hpush ⊢
    have hc : pushed.Public c := by
      subst hpushed
      exact hknown c (.head _)
    have hrun := hpush.runThreads (pushed.procs c).threads fun u hu => by
      rw [(hpush.members c hc.1 u hu).2]
      exact hc
    refine hrun.advance ?_ trivial nofun
    rw [runThreads_eq, ← hpushed]
    exact hbusy
  case tidFetch =>
    cases hact
    refine advance (h.of_same rfl rfl rfl rfl rfl le_rfl rfl) hbusy ?_ ?_
    · split <;> trivial
    · split <;> exact nofun
  case tidStore | pgUpdate | sidUpdate =>
    cases hact
    exact advance (h.of_same rfl rfl rfl rfl rfl le_rfl rfl) hbusy trivial nofun
  case threadAdd tid =>
    cases hact
    exact (h.addThread ht.2 tid).advance hbusy trivial nofun
  case exitThread code =>
    split at hact
    · cases hact
      exact h.advance hbusy trivial nofun
    · split at hact
      · cases hact
        exact h.advanceProc hbusy rfl filter_sublist trivial nofun
      · cases hact
        exact h.advance hbusy trivial nofun
  case die =>
    cases hact
    exact (h.markDead t).advance hbusy trivial nofun
  case exitStart status =>
    split at hact
    · cases hact
      exact h.advance hbusy trivial nofun
    · cases hact
      exact h.advanceProc hbusy rfl (List.Sublist.refl _) trivial nofun
  case exitMark threads children reaper =>
    cases threads <;> cases hact <;> exact (h.markDead _).advance hbusy trivial nofun
  case exitReparent children reaper =>
    split at hact
    · cases hact
      exact h.advance hbusy trivial nofun
    · cases hact
      refine (h.treeReparentChildren children reaper).advance ?_ trivial nofun
      rw [treeReparentChildren_eq]
      exact hbusy
  case waitClear | sidWrite =>
    cases hact
    exact h.advanceProc hbusy rfl (List.Sublist.refl _) trivial nofun
  case reapThreads c status =>
    cases hact
    exact h.advanceProc hbusy rfl (nil_sublist _) trivial hknown
  case reapRetain | pgWrite =>
    cases hact
    exact h.advanceProc hbusy rfl (List.Sublist.refl _) trivial hknown
  case reapRemove c status =>
    cases hact
    refine (h.allprocRemove (s.procs c).pid).advance ?_ trivial ?_
    · rw [allprocRemove_eq]
      exact hbusy
    · rw [allprocRemove_eq]
      exact hknown
  case reapFree c status =>
    cases hact
    exact advance (h.of_same rfl rfl rfl rfl rfl (PidAllocator.next_free ..).ge rfl) hbusy
      trivial nofun
  all_goals cases hact

end Fresh

/-- The search for an identifier does not start again from the front. -/
def Unwrapped (s : ProcSystem) : ProcOp → Prop
  | .next t => s.calls t = .cloneAllocate → s.pids.FreeBelow pidMax
  | .kproc => s.pids.FreeBelow pidMax
  | _ => True

theorem Fresh.entry (h : s.Fresh) (ht : s.Caller t) (e : Entry) :
    (s.setCall t (s.entry t e)).Fresh := by
  cases e
  case setpgid pid pgid =>
    dsimp only [ProcSystem.entry]
    split
    · exact h.setCall ht trivial nofun
    next q hq =>
      refine h.setCall ht trivial ?_
      intro c hc
      rw [Call.procs, mem_singleton] at hc
      subst hc
      split at hq
      · cases hq
        exact ht.2
      · exact (h.table pid c hq).1
  all_goals exact h.setCall ht trivial nofun

theorem Fresh.step {op : ProcOp} (h : s.Fresh) (hwrap : s.Unwrapped op)
    (hstep : s.step op = .ok s') : s'.Fresh := by
  cases stepped_of_step hstep with
  | @enter t e ht hruns hidle => exact h.entry ⟨ht, h.runs t ht hruns⟩ e
  | next hnext =>
    rcases nextSection_cases hnext with ⟨call, hlook, rfl⟩ | hact
    · obtain ⟨hsettled, hknown⟩ := h.look_known hlook
      refine h.advance ?_ hsettled hknown
      intro hidle
      rw [hidle] at hlook
      cases hlook
    · exact h.act hact hwrap
  | subreaper | signal => exact h.setProc rfl (List.Sublist.refl _)
  | kproc hkproc =>
    dsimp only [ProcSystem.step] at hkproc
    obtain ⟨pid, hpid, hlow, -⟩ := PidAllocator.allocate_spec hwrap le_rfl
    rw [hpid] at hkproc
    cases hkproc
    refine (h.newKproc hlow rfl).allprocInsert ⟨lt_succ_self _, ?_⟩
    exact fun u hu => lt_irrefl _ (h.hidden u _ hu).1

theorem fresh_boot : boot.Fresh := by
  have hpublic : boot.Public 0 := ⟨Nat.zero_lt_one, nofun⟩
  constructor
  case pid_lt => decide
  case apart =>
    intro p hp q hq _
    rw [lt_one_iff.mp hp, lt_one_iff.mp hq]
  case table =>
    intro pid p hp
    dsimp only [boot] at hp
    split at hp
    next hpid =>
      cases hp
      exact ⟨hpublic, hpid.symm⟩
    next => cases hp
  case handed | hidden => exact nofun
  case busy => exact fun t ht => absurd rfl ht
  case known => exact nofun
  case runs => exact fun _ _ _ => hpublic
  case members =>
    intro p hp u hu
    rw [lt_one_iff.mp hp]
    dsimp only [boot] at hu
    rw [mem_singleton] at hu
    subst hu
    exact ⟨Nat.zero_lt_one, rfl⟩

/-- No call is under way. -/
def Quiescent (s : ProcSystem) : Prop := ∀ t < s.nextThread, s.calls t = .idle

instance (s : ProcSystem) : Decidable s.Quiescent :=
  inferInstanceAs (Decidable (∀ t < s.nextThread, s.calls t = .idle))

theorem Quiescent.idle (h : s.Quiescent) (hfresh : s.Fresh) (t : Nat) : s.calls t = .idle := by
  by_contra hbusy
  exact hbusy (h t (hfresh.busy t hbusy).1)

end ProcSystem

end Petra.Proc
