import Petra.Proc.System

/-! # What a section changes

Each section changes little. What it does not change is said here once.
-/

namespace Petra.Proc

open Base Function List

/-- The call is not about to enter a new process. -/
def Call.Settled : Call → Prop
  | .cloneInherit _ | .cloneInsert _ => False
  | _ => True

/-- The child that a call reaps, once it has been found to be a zombie. -/
def Call.reaps : Call → Option Nat
  | .reapThreads c _ | .reapRetain c _ | .reapRemove c _ | .reapFree c _ => some c
  | _ => none

/-- A process without what the section of a call writes. -/
def Call.kept (call : Call) (proc : Proc) : Proc :=
  match call with
  | .clonePush _ | .reapRetain .. => { proc with children := [] }
  | .exitStart _ => { proc with state := .zombie, xstat := none, children := [] }
  | .exitReparent .. => { proc with ppid := none, children := [] }
  | .pgWrite .. => { proc with pgid := none }
  | .sidWrite .. => { proc with sid := none, pgid := none }
  | _ => { proc with threads := [], stopStatus := none }

namespace ProcSystem

variable {s s' : ProcSystem} {t u p q c : Nat} {call : Call} {P : Nat → Call → Prop}

/-- A section either only reads, or acts. -/
theorem nextSection_cases (h : s.nextSection t = some s') :
    (∃ call, s.look t (s.calls t) = some call ∧ s' = s.setCall t call) ∨
      s.act t (s.calls t) = some s' := by
  unfold nextSection at h
  split at h
  next call hcall =>
    cases h
    exact .inl ⟨call, hcall, rfl⟩
  next => exact .inr h

/-- What a step does. -/
inductive Stepped (s : ProcSystem) : ProcOp → ProcSystem → Prop
  | enter {t : Nat} {e : Entry} (ht : t < s.nextThread) (hruns : (s.threads t).runs = true)
      (hidle : s.calls t = .idle) : Stepped s (.enter t e) (s.setCall t (s.entry t e))
  | next {t : Nat} {s' : ProcSystem} (h : s.nextSection t = some s') : Stepped s (.next t) s'
  | subreaper {t : Nat} {reaps : Bool} : Stepped s (.subreaper t reaps)
      (s.setProc (s.self t) { s.procs (s.self t) with
        isReaper := reaps, reaper := if reaps then some (s.procs (s.self t)).pid else none })
  | signal {p : Nat} {stopStatus : Option ExitStatus} : Stepped s (.signal p stopStatus)
      (s.setProc p { s.procs p with stopStatus := stopStatus })
  | kproc {s' : ProcSystem} (h : s.step .kproc = .ok s') : Stepped s .kproc s'

theorem stepped_of_step {op : ProcOp} (hstep : s.step op = .ok s') : s.Stepped op s' := by
  cases op with
  | kproc => exact .kproc hstep
  | next t =>
    dsimp only [step] at hstep
    split at hstep
    next hs₁ =>
      cases hstep
      exact .next hs₁
    next => cases hstep
  | enter t e =>
    dsimp only [step] at hstep
    split at hstep
    next hcan =>
      cases hstep
      exact .enter hcan.1 hcan.2.1 hcan.2.2.2
    next => cases hstep
  | subreaper t reaps =>
    dsimp only [step] at hstep
    split at hstep <;> cases hstep
    exact .subreaper
  | signal p stopStatus =>
    dsimp only [step] at hstep
    split at hstep <;> cases hstep
    exact .signal

theorem calls_setCall_self : (s.setCall t call).calls t = call := update_self ..

theorem calls_setCall_of_ne (h : u ≠ t) : (s.setCall t call).calls u = s.calls u :=
  update_of_ne h ..

/-- What holds for the new call, and for those of the other threads, holds for every call. -/
theorem forall_setCall (hnew : P t call)
    (hothers : ∀ u ≠ t, P u (s.calls u)) (u : Nat) : P u ((s.setCall t call).calls u) :=
  (forall_update_iff s.calls P).mpr ⟨hnew, hothers⟩ u

variable {proc : Proc}

theorem procs_setProc_self : (s.setProc p proc).procs p = proc :=
  update_self ..

theorem procs_setProc_of_ne (h : q ≠ p) : (s.setProc p proc).procs q = s.procs q :=
  update_of_ne h ..

variable {α : Type}

/-- A field that is written back is the same for all processes. -/
theorem field_setProc (field : Proc → α) (h : field proc = field (s.procs p)) (q : Nat) :
    field ((s.setProc p proc).procs q) = field (s.procs q) := by
  by_cases hq : q = p
  · rw [hq, procs_setProc_self, h]
  · rw [procs_setProc_of_ne hq]

theorem field_setThread (field : Thread → α) {thread : Thread}
    (h : field thread = field (s.threads t)) (u : Nat) :
    field ((s.setThread t thread).threads u) = field (s.threads u) := by
  dsimp only [setThread]
  by_cases hut : u = t
  · rw [hut, update_self, h]
  · rw [update_of_ne hut]

theorem runThreads_eq (threads : List Nat) :
    s.runThreads threads = { s with threads := (s.runThreads threads).threads } := by
  unfold runThreads
  induction threads generalizing s with
  | nil => rfl
  | cons u threads ih =>
    rw [foldl_cons, ih]
    rfl

theorem setParents_eq (reaper : Nat) (children : List Nat) :
    s.setParents reaper children = { s with procs := (s.setParents reaper children).procs } := by
  unfold setParents
  induction children generalizing s with
  | nil => rfl
  | cons pid children ih =>
    rw [foldl_cons, ih]
    split <;> rfl

theorem treeReparentChildren_eq (children : List Nat) (reaper : Nat) :
    s.treeReparentChildren children reaper =
      { s with procs := (s.treeReparentChildren children reaper).procs } := by
  unfold treeReparentChildren
  rw [setParents_eq]
  dsimp only
  split <;> rfl

theorem allprocRemove_eq (pid : Nat) :
    s.allprocRemove pid = { s with
      allproc := (s.allprocRemove pid).allproc
      pgrpMap := (s.allprocRemove pid).pgrpMap
      sessionMap := (s.allprocRemove pid).sessionMap } := by
  unfold allprocRemove
  split <;> rfl

theorem allproc_allprocRemove (pid : Nat) : (s.allprocRemove pid).allproc pid = none := by
  unfold allprocRemove
  split
  next hnone => exact hnone
  next => exact update_self ..

theorem allproc_allprocRemove_of_ne {pid pid' : Nat} (hne : pid' ≠ pid) :
    (s.allprocRemove pid).allproc pid' = s.allproc pid' := by
  unfold allprocRemove
  split
  next => rfl
  next => exact update_of_ne hne ..

/-! ## A new process of the kernel -/

section newKproc

variable {pid : Nat} {pids : PidAllocator}

theorem procs_newKproc_of_lt (hp : p < s.nextProc) : (s.newKproc pid pids).procs p = s.procs p :=
  update_of_ne hp.ne ..

theorem procs_newKproc_self : (s.newKproc pid pids).procs s.nextProc =
    { Proc.new pid none with threads := [s.nextThread] } :=
  update_self ..

theorem self_newKproc (hu : u < s.nextThread) : (s.newKproc pid pids).self u = s.self u :=
  congrArg Thread.proc (update_of_ne hu.ne ..)

/-- A new process of the kernel, in the table. -/
abbrev withKproc (s : ProcSystem) (pid : Nat) (pids : PidAllocator) : ProcSystem :=
  (s.newKproc pid pids).allprocInsert s.nextProc

theorem procs_withKproc (hp : p < s.nextProc) : (s.withKproc pid pids).procs p = s.procs p :=
  procs_newKproc_of_lt hp

theorem last_withKproc : (s.withKproc pid pids).procs s.nextProc =
    { Proc.new pid none with threads := [s.nextThread] } :=
  procs_newKproc_self

theorem self_withKproc (hu : u < s.nextThread) : (s.withKproc pid pids).self u = s.self u :=
  self_newKproc hu

theorem allproc_withKproc :
    (s.withKproc pid pids).allproc = update s.allproc pid (some s.nextProc) := by
  dsimp only [withKproc, allprocInsert]
  rw [procs_newKproc_self]
  rfl

end newKproc

variable {call₀ : Call}

theorem look_settled (hlook : s.look t call₀ = some call) : call.Settled := by
  revert hlook
  fun_cases look s t call₀ <;> intro hlook <;> grind [Call.Settled, Option.map_eq_some_iff]

/-- A call that is about to reap has just seen a zombie. -/
theorem look_reaps (hlook : s.look t call₀ = some call) (hc : call.reaps = some c) :
    call₀ = .reapCheck c ∧ (s.procs c).state = .zombie ∧
      ∃ status, call = .reapThreads c status := by
  revert hlook
  fun_cases look s t call₀ <;> intro hlook <;> grind [Call.reaps, Option.map_eq_some_iff]

/-! ## What a section that acts leaves as it is -/

/-- What a section that acts leaves alone, and which ones are excepted. -/
structure ActFrame (s : ProcSystem) (t : Nat) (call : Call) (s' : ProcSystem) : Prop where
  calls : ∀ {u}, u ≠ t → s'.calls u = s.calls u
  nextTid : call ≠ .tidFetch → call ≠ .tidStore → s'.nextTid = s.nextTid
  nextThread : (∀ pid, call ≠ .cloneInherit pid) → (∀ tid, call ≠ .threadAdd tid) →
    s'.nextThread = s.nextThread
  nextProc : (∀ pid, call ≠ .cloneInherit pid) → s'.nextProc = s.nextProc
  nextProc_le : s.nextProc ≤ s'.nextProc
  next : call ≠ .cloneAllocate → s'.pids.next = s.pids.next
  allproc : (∀ c, call ≠ .cloneInsert c) → (∀ c status, call ≠ .reapRemove c status) →
    s'.allproc = s.allproc
  returned : (∀ c status, call ≠ .reapFree c status) → s'.returned = s.returned
  pgrpMap : (∀ c, call ≠ .cloneInsert c) → (∀ c status, call ≠ .reapRemove c status) →
    (∀ q g old, call ≠ .pgUpdate q g old) →
      (∀ oldPgid oldSid, call ≠ .sidUpdate oldPgid oldSid) → s'.pgrpMap = s.pgrpMap
  sessionMap : (∀ c, call ≠ .cloneInsert c) → (∀ c status, call ≠ .reapRemove c status) →
    (∀ oldPgid oldSid, call ≠ .sidUpdate oldPgid oldSid) → s'.sessionMap = s.sessionMap

variable (hact : s.act t call₀ = some s')

include hact

/-- Only the excepted sections change a part of the frame, so the exceptions close their cases. -/
theorem act_frame : ActFrame s t call₀ s' := by
  revert hact
  fun_cases act s t call₀ <;> intro hact <;> cases hact <;> constructor <;> intros
  all_goals first
    | rfl
    | exact le_rfl
    | exact Nat.le_succ _
    | exact calls_setCall_of_ne ‹_›
    | exact PidAllocator.next_free ..
    | (exfalso; simp_all; done)
    | (rw [runThreads_eq]; first | rfl | exact le_rfl | exact calls_setCall_of_ne ‹_›)
    | (rw [treeReparentChildren_eq]; first
        | rfl | exact le_rfl | exact calls_setCall_of_ne ‹_›)
    | (rw [allprocRemove_eq]; first | rfl | exact le_rfl | exact calls_setCall_of_ne ‹_›)

theorem busy_of_act : call₀ ≠ .idle := by
  rintro rfl
  cases hact

theorem forall_act (hnew : P t (s'.calls t))
    (hothers : ∀ u ≠ t, P u (s.calls u)) (u : Nat) : P u (s'.calls u) := by
  by_cases hut : u = t
  · rw [hut]
    exact hnew
  · rw [(act_frame hact).calls hut]
    exact hothers u hut

/-- No thread gets what its call did not have. -/
theorem held_act {α : Type} {f : Call → Option α}
    (hheld : ∀ a, f (s'.calls t) = some a → f (s.calls t) = some a) (u : Nat) (a : α)
    (hu : f (s'.calls u) = some a) : f (s.calls u) = some a := by
  revert a
  exact forall_act (P := fun u call => ∀ a, f call = some a → f (s.calls u) = some a) hact hheld
    (fun _ _ _ ha => ha) u

/-- Only the making of a process gives a new number. -/
theorem newProc_of_act (hp : p < s'.nextProc) (hge : ¬p < s.nextProc) :
    s'.calls t = .cloneInsert p ∧ (s'.procs p).children = [] ∧
      (s'.procs p).ppid = some (s.procs (s.self t)).pid := by
  cases call₀
  case cloneInherit pid =>
    cases hact
    obtain rfl : p = s.nextProc := Nat.le_antisymm (Nat.lt_succ_iff.mp hp) (Nat.not_lt.mp hge)
    dsimp only [setCall, newProc]
    rw [update_self, update_self]
    exact ⟨rfl, rfl, rfl⟩
  all_goals
    rw [(act_frame hact).nextProc nofun] at hp
    exact absurd hp hge

omit hact in
/-- Threads keep what running and dying does not change. -/
theorem thread_runThreads (field : Thread → α)
    (hfield : ∀ thread : Thread, field { thread with runs := true } = field thread)
    (threads : List Nat) (u : Nat) :
    field ((s.runThreads threads).threads u) = field (s.threads u) := by
  unfold runThreads
  induction threads generalizing s with
  | nil => rfl
  | cons v threads ih =>
    rw [foldl_cons, ih]
    exact field_setThread field (hfield _) u

omit hact in
/-- A new parent changes nothing but the parent. -/
theorem proc_setParents (field : Proc → α)
    (hfield : ∀ (proc : Proc) (ppid : Option Nat), field { proc with ppid := ppid } = field proc)
    (reaper : Nat) (children : List Nat) (p : Nat) :
    field ((s.setParents reaper children).procs p) = field (s.procs p) := by
  unfold setParents
  induction children generalizing s with
  | nil => rfl
  | cons pid children ih =>
    rw [foldl_cons, ih]
    split
    · rfl
    · exact field_setProc field (hfield ..) p

omit hact in
theorem proc_treeReparentChildren (field : Proc → α)
    (hppid : ∀ (proc : Proc) (ppid : Option Nat), field { proc with ppid := ppid } = field proc)
    (hchildren : ∀ (proc : Proc) (children : List Nat),
      field { proc with children := children } = field proc)
    (children : List Nat) (reaper p : Nat) :
    field ((s.treeReparentChildren children reaper).procs p) = field (s.procs p) := by
  have hparents := proc_setParents (s := s) field hppid reaper children p
  unfold treeReparentChildren
  dsimp only
  split
  · exact hparents
  · exact (field_setProc field (hchildren ..) p).trans hparents

omit hact in
theorem thread_act (field : Thread → α)
    (hruns : ∀ thread : Thread, field { thread with runs := true } = field thread)
    (hdead : ∀ thread : Thread, field { thread with dead := true } = field thread)
    (hact : s.act t call₀ = some s') (hu : u < s.nextThread) :
    field (s'.threads u) = field (s.threads u) := by
  have hne : u ≠ s.nextThread := hu.ne
  revert hact
  fun_cases act s t call₀ <;> intro hact <;> cases hact
  all_goals first
    | rfl
    | exact congrArg field (update_of_ne hne ..)
    | exact thread_runThreads field hruns ..
    | exact field_setThread field (hdead _) u
    | (rw [treeReparentChildren_eq]; rfl)
    | (rw [allprocRemove_eq]; rfl)

theorem tid_act (hu : u < s.nextThread) : (s'.threads u).tid = (s.threads u).tid :=
  thread_act Thread.tid (fun _ => rfl) (fun _ => rfl) hact hu

theorem self_act (hu : u < s.nextThread) : s'.self u = s.self u :=
  thread_act Thread.proc (fun _ => rfl) (fun _ => rfl) hact hu

theorem kept_act (hp : p < s.nextProc) : call₀.kept (s'.procs p) = call₀.kept (s.procs p) := by
  have hne : p ≠ s.nextProc := hp.ne
  revert hact
  fun_cases act s t call₀ <;> intro hact <;> cases hact
  all_goals first
    | rfl
    | exact congrArg _ (update_of_ne hne ..)
    | exact field_setProc (s := s) (Call.kept _) (by rfl) p
    | (rw [runThreads_eq]; exact field_setProc (s := s) (Call.kept _) (by rfl) p)
    | exact proc_treeReparentChildren (Call.kept _) (fun _ _ => rfl) (fun _ _ => rfl) ..
    | (rw [allprocRemove_eq]; rfl)

/-- The identifier of a process never changes. -/
theorem pid_act (hp : p < s.nextProc) : (s'.procs p).pid = (s.procs p).pid := by
  cases call₀ <;> exact (congrArg Proc.pid (kept_act hact hp) :)

theorem getPgid_act (hp : p < s.nextProc) (hpg : ∀ q g old, call₀ ≠ .pgWrite q g old)
    (hsid : ∀ oldPgid oldSid, call₀ ≠ .sidWrite oldPgid oldSid) :
    (s'.procs p).getPgid = (s.procs p).getPgid := by
  cases call₀
  case pgWrite => exact absurd rfl (hpg _ _ _)
  case sidWrite => exact absurd rfl (hsid _ _)
  all_goals exact (congrArg Proc.getPgid (kept_act hact hp) :)

theorem getSid_act (hp : p < s.nextProc) (hsid : ∀ oldPgid oldSid, call₀ ≠ .sidWrite oldPgid oldSid) :
    (s'.procs p).getSid = (s.procs p).getSid := by
  cases call₀
  case sidWrite => exact absurd rfl (hsid _ _)
  all_goals exact (congrArg Proc.getSid (kept_act hact hp) :)

/-- What a call has been through. It is about to insert the process it has just made, and goes on
reaping the child it reaps. -/
structure ActTrail (s : ProcSystem) (t : Nat) (call : Call) (s' : ProcSystem) : Prop where
  cloneInsert : ∀ {c}, s'.calls t = .cloneInsert c →
    (∃ pid, call = .cloneInherit pid) ∧ c = s.nextProc
  reaps : ∀ {c}, (s'.calls t).reaps = some c → call.reaps = some c
  reapFree : ∀ {c status}, s'.calls t = .reapFree c status → call = .reapRemove c status

theorem act_trail : ActTrail s t call₀ s' := by
  revert hact
  fun_cases act s t call₀ <;> intro hact <;> cases hact <;> constructor
  all_goals
    intros
    rename_i hcall
    rw [calls_setCall_self] at hcall
    first
    | exact hcall
    | (cases hcall; first | rfl | exact ⟨⟨_, rfl⟩, rfl⟩)
    | cases hcall
    | (split at hcall <;> cases hcall)

end ProcSystem

end Petra.Proc
