import Petra.Proc.Fresh

/-! # Who is alive

A process that exits leaves its children to a reaper, which it finds in one section and gives
the children to in a later one. As long as the reaper does not exit in between, and no thread of
an exiting process is making a child, a process that gets a child is alive.
-/

namespace Petra.Proc

open Base Option

theorem ProcState.alive_of_ne {state : ProcState} (h : ¬state = .zombie) : state = .alive := by
  cases state with
  | alive => rfl
  | zombie => exact absurd rfl h

/-- The call is making a child. -/
def Call.Clones : Call → Prop
  | .cloneInherit _ | .cloneInsert _ | .clonePush _ => True
  | _ => False

instance : (call : Call) → Decidable call.Clones := fun call => by
  induction call using Call.casesOn <;> dsimp only [Call.Clones] <;> infer_instance

/-- The process that an exit has found to give the children to. -/
def Call.reaper : Call → Option Nat
  | .exitThreads _ r | .exitMark _ _ r | .exitReparent _ r => some r
  | _ => none

namespace ProcSystem

variable {s s' : ProcSystem} {t u p q c r pid : Nat} {call call₀ : Call}

/-- Identifiers are not used again. No child is made for a process that has exited. A process
that exits is not init, has not made itself the reaper of its own children, is not making a
child, and is not the one to whom an exit that is under way gives the children. -/
def Rooted (s : ProcSystem) : ProcOp → Prop
  | .next t =>
    match s.calls t with
    | .cloneAllocate => s.pids.FreeBelow pidMax ∧ (s.procs (s.self t)).state = .alive
    | .exitStart _ =>
      (s.procs (s.self t)).state = .alive →
        (s.procs (s.self t)).pid ≠ pidInit ∧ (s.procs (s.self t)).reaper = none ∧
        (∀ u < s.nextThread, (s.calls u).Clones → s.self u ≠ s.self t) ∧
        ∀ u < s.nextThread, (s.calls u).reaper ≠ some (s.procs (s.self t)).pid
    | _ => True
  | .kproc => s.pids.FreeBelow pidMax
  | _ => True

instance (s : ProcSystem) : (op : ProcOp) → Decidable (s.Rooted op)
  | .next t => by
    dsimp only [Rooted]
    induction s.calls t using Call.casesOn <;> infer_instance
  | .kproc => inferInstanceAs (Decidable (s.pids.FreeBelow pidMax))
  | .enter .. | .subreaper .. | .signal .. => .isTrue trivial

theorem Rooted.unwrapped {op : ProcOp} (h : s.Rooted op) : s.Unwrapped op := by
  cases op with
  | next t =>
    intro hcall
    dsimp only [Rooted] at h
    rw [hcall] at h
    exact h.1
  | kproc => exact h
  | enter t e => trivial
  | subreaper t on => trivial
  | signal p stopStatus => trivial

/-- The table has a process of this identifier, and it has not exited. -/
def AliveAt (s : ProcSystem) (pid : Nat) : Prop :=
  ∃ p, s.allproc pid = some p ∧ (s.procs p).state = .alive

theorem aliveAt_of_treeFindReaper (hinit : s.AliveAt pidInit) {fuel : Nat} {ppid : Option Nat}
    (hfind : s.treeFindReaper fuel ppid = some r) : s.AliveAt r := by
  induction fuel generalizing ppid with
  | zero =>
    cases ppid with
    | none =>
      cases hfind
      exact hinit
    | some pid => cases hfind
  | succ fuel ih =>
    cases ppid with
    | none =>
      cases hfind
      exact hinit
    | some pid =>
      unfold treeFindReaper at hfind
      split at hfind
      next =>
        cases hfind
        exact hinit
      next p hp =>
        split at hfind
        next halive =>
          cases hfind
          exact ⟨p, hp, halive.2⟩
        next => exact ih hfind

structure Standing (s : ProcSystem) : Prop where
  cloning : ∀ t, (s.calls t).Clones → (s.procs (s.self t)).state = .alive
  /-- A process that has not exited is in the table, or is about to be. -/
  there : ∀ p < s.nextProc, (s.procs p).state = .alive →
    s.Listed p ∨ ∃ t, s.calls t = .cloneInsert p
  reaped : ∀ t c, (s.calls t).reaps = some c → (s.procs c).state = .zombie
  init : s.AliveAt pidInit
  reaper : ∀ t r, (s.calls t).reaper = some r → s.AliveAt r
  unset : ∀ t children ppid reaper, s.calls t = .exitReaper children ppid reaper → reaper = none

/-! ## What the sections read and write -/

theorem look_clones (hlook : s.look t call₀ = some call) : ¬call.Clones := by
  revert hlook
  fun_cases look s t call₀ <;> intro hlook <;> grind [Call.Clones, map_eq_some_iff]

theorem look_reaper (hlook : s.look t call₀ = some call) (hr : call.reaper = some r) :
    call₀.reaper = some r ∨ ∃ children ppid reaper, call₀ = .exitReaper children ppid reaper ∧
      (reaper = none → s.treeFindReaper (s.nextProc + 1) ppid = some r) := by
  revert hlook
  fun_cases look s t call₀ <;> intro hlook <;> grind [Call.reaper, map_eq_some_iff]

theorem look_exitReaper (hlook : s.look t call₀ = some call) (children : List Nat)
    (ppid reaper : Option Nat) : call ≠ .exitReaper children ppid reaper := by
  revert hlook
  fun_cases look s t call₀ <;> intro hlook <;> grind [map_eq_some_iff]

section

variable (hact : s.act t call₀ = some s')

include hact

theorem clones_act (hclones : (s'.calls t).Clones) : call₀ = .cloneAllocate ∨ call₀.Clones := by
  revert hact
  fun_cases act s t call₀ <;> intro hact <;> cases hact <;> rw [calls_setCall_self] at hclones
  all_goals first
    | exact hclones.elim
    | exact .inl rfl
    | exact .inr trivial
    | (split at hclones <;> exact hclones.elim)

theorem reaper_act (hr : (s'.calls t).reaper = some r) : call₀.reaper = some r := by
  revert hact
  fun_cases act s t call₀ <;> intro hact <;> cases hact <;> rw [calls_setCall_self] at hr
  all_goals first
    | exact hr
    | (split at hr <;> cases hr)
    | cases hr

theorem exitReaper_act {children : List Nat} {ppid reaper : Option Nat}
    (hcall : s'.calls t = .exitReaper children ppid reaper) :
    (∃ status, call₀ = .exitStart status) ∧ (s.procs (s.self t)).state = .alive ∧
      reaper = (s.procs (s.self t)).reaper := by
  revert hact
  fun_cases act s t call₀ <;> intro hact <;> cases hact <;> rw [calls_setCall_self] at hcall
  all_goals first
    | (cases hcall; exact ⟨⟨_, rfl⟩, ProcState.alive_of_ne ‹_›, rfl⟩)
    | cases hcall
    | (split at hcall <;> cases hcall)

/-- Only an exit changes whether a process is alive. -/
theorem state_act (hp : p < s.nextProc) (hexit : ∀ status, call₀ ≠ .exitStart status) :
    (s'.procs p).state = (s.procs p).state := by
  cases call₀
  case exitStart => exact absurd rfl (hexit _)
  all_goals exact (congrArg Proc.state (kept_act hact hp) :)

omit hact in
/-- An exit makes its own process a zombie, and leaves the others. -/
theorem exitStart_act {status : ExitStatus} (hact : s.act t (.exitStart status) = some s') :
    (∀ p ≠ s.self t, s'.procs p = s.procs p) ∧ (s'.procs (s.self t)).state = .zombie := by
  dsimp only [act] at hact
  split at hact
  next hzombie =>
    cases hact
    exact ⟨fun _ _ => rfl, hzombie⟩
  next =>
    cases hact
    refine ⟨fun p hp => procs_setProc_of_ne hp, ?_⟩
    dsimp only [setCall]
    rw [procs_setProc_self]

/-- A process that does not exit now stays alive. -/
theorem alive_act (hp : p < s.nextProc) (halive : (s.procs p).state = .alive)
    (hexit : ∀ status, call₀ = .exitStart status → p ≠ s.self t) : (s'.procs p).state = .alive := by
  cases call₀
  case exitStart status =>
    rw [(exitStart_act hact).1 p (hexit status rfl)]
    exact halive
  all_goals
    rw [state_act hact hp nofun]
    exact halive

/-- Nobody comes back to life. -/
theorem alive_of_act (hp : p < s.nextProc) (halive : (s'.procs p).state = .alive) :
    (s.procs p).state = .alive := by
  cases call₀
  case exitStart status =>
    obtain ⟨hother, hself⟩ := exitStart_act hact
    by_cases hps : p = s.self t
    · rw [hps, hself] at halive
      cases halive
    · rw [hother p hps] at halive
      exact halive
  all_goals
    rw [state_act hact hp nofun] at halive
    exact halive

end

namespace Standing

variable (h : s.Standing)

include h

/-- A process that is alive is not taken out of the table. -/
theorem allproc_act (hfresh : s.Fresh) (hact : s.act t (s.calls t) = some s')
    (hp : s.allproc pid = some p) (halive : (s.procs p).state = .alive) :
    s'.allproc pid = some p := by
  obtain ⟨hpublic, hpid⟩ := hfresh.table pid p hp
  have hreaped := h.reaped t
  cases hcall : s.calls t <;> rw [hcall] at hact hreaped
  case cloneInsert d =>
    obtain ⟨-, hnone, -⟩ := hfresh.hidden t d hcall
    cases hact
    refine (Function.update_of_ne ?_ ..).trans hp
    rintro rfl
    rw [hnone] at hp
    cases hp
  case reapRemove d status =>
    have hd := hfresh.known t d (hcall ▸ (.head _))
    cases hact
    refine (allproc_allprocRemove_of_ne ?_).trans hp
    intro heq
    rw [← hpid] at heq
    have hdead := hreaped d rfl
    rw [← hfresh.apart p hpublic.1 d hd.1 heq, halive] at hdead
    cases hdead
  all_goals
    rw [(act_frame hact).allproc nofun nofun]
    exact hp

theorem aliveAt_act (hfresh : s.Fresh) (hact : s.act t (s.calls t) = some s') (hpid : s.AliveAt pid)
    (hexit : ∀ status, s.calls t = .exitStart status → (s.procs (s.self t)).state = .alive →
      (s.procs (s.self t)).pid ≠ pid) : s'.AliveAt pid := by
  obtain ⟨p, hp, halive⟩ := hpid
  obtain ⟨hpublic, hpid'⟩ := hfresh.table pid p hp
  refine ⟨p, h.allproc_act hfresh hact hp halive, alive_act hact hpublic.1 halive ?_⟩
  rintro status hcall rfl
  exact hexit status hcall halive hpid'

theorem act (hfresh : s.Fresh) (hfresh' : s'.Fresh) (hrooted : s.Rooted (.next t))
    (hact : s.act t (s.calls t) = some s') : s'.Standing := by
  obtain ⟨ht, hself⟩ := hfresh.busy t (busy_of_act hact)
  -- What is asked of an exit.
  have hexit : ∀ status, s.calls t = .exitStart status → (s.procs (s.self t)).state = .alive →
        (s.procs (s.self t)).pid ≠ pidInit ∧ (s.procs (s.self t)).reaper = none ∧
        (∀ u < s.nextThread, (s.calls u).Clones → s.self u ≠ s.self t) ∧
        ∀ u < s.nextThread, (s.calls u).reaper ≠ some (s.procs (s.self t)).pid := by
    intro status hcall
    dsimp only [Rooted] at hrooted
    rw [hcall] at hrooted
    exact hrooted
  constructor
  case cloning =>
    intro u hu
    have hclones : u < s.nextThread ∧ s.self u < s.nextProc ∧ (s.procs (s.self u)).state = .alive ∧
        ∀ status, s.calls t = .exitStart status → s.self u ≠ s.self t := by
      by_cases hut : u = t
      · subst hut
        refine ⟨ht, hself.1, ?_⟩
        rcases clones_act hact hu with hcall | hclones
        · dsimp only [Rooted] at hrooted
          rw [hcall] at hrooted ⊢
          exact ⟨hrooted.2, nofun⟩
        · refine ⟨h.cloning u hclones, ?_⟩
          intro status hcall
          rw [hcall] at hclones
          exact hclones.elim
      · rw [(act_frame hact).calls hut] at hu
        have hbusy' : s.calls u ≠ .idle := by
          intro hidle
          rw [hidle] at hu
          exact hu
        obtain ⟨hlt, hself'⟩ := hfresh.busy u hbusy'
        refine ⟨hlt, hself'.1, h.cloning u hu, ?_⟩
        intro status hcall heq
        refine (hexit status hcall ?_).2.2.1 u hlt hu heq
        rw [← heq]
        exact h.cloning u hu
    obtain ⟨hlt, hlt', halive, hne⟩ := hclones
    rw [self_act hact hlt]
    exact alive_act hact hlt' halive hne
  case there =>
    intro p hp halive
    by_cases hlt : p < s.nextProc
    · have halive' := alive_of_act hact hlt halive
      rcases h.there p hlt halive' with hlisted | ⟨u, hu⟩
      · left
        rw [Listed, pid_act hact hlt]
        exact h.allproc_act hfresh hact hlisted halive'
      by_cases hut : u = t
      · subst hut
        left
        rw [hu] at hact
        cases hact
        exact Function.update_self ..
      · right
        refine ⟨u, ?_⟩
        rw [(act_frame hact).calls hut]
        exact hu
    · -- Only the making of a process gives a new number.
      exact .inr ⟨t, (newProc_of_act hact hp hlt).1⟩
  case reaped =>
    intro u c hu
    have hold := held_act hact (fun _ => (act_trail hact).reaps) u c hu
    have hzombie := h.reaped u c hold
    have hc : c < s.nextProc := by
      refine (hfresh.known u c ?_).1
      cases hcall : s.calls u <;> rw [hcall] at hold <;> cases hold <;> exact (.head _)
    by_contra hne
    rw [alive_of_act hact hc (ProcState.alive_of_ne hne)] at hzombie
    cases hzombie
  case init =>
    exact h.aliveAt_act hfresh hact h.init fun status hcall halive => (hexit status hcall halive).1
  case reaper =>
    intro u r hu
    have hold := held_act hact (fun _ => reaper_act hact) u r hu
    refine h.aliveAt_act hfresh hact (h.reaper u r hold) ?_
    rintro status hcall halive rfl
    refine (hexit status hcall halive).2.2.2 u (hfresh.busy u ?_).1 hold
    intro hidle
    rw [hidle] at hold
    cases hold
  case unset =>
    intro u children ppid reaper hu
    by_cases hut : u = t
    · subst hut
      obtain ⟨⟨status, hcall⟩, halive, rfl⟩ := exitReaper_act hact hu
      exact (hexit status hcall halive).2.1
    · rw [(act_frame hact).calls hut] at hu
      exact h.unset u children ppid reaper hu

/-- A call goes on, with what holds for it. -/
theorem setCall (hold : ∀ p, s.calls t ≠ .cloneInsert p) (hclones : ¬call.Clones)
    (hreaps : ∀ c, call.reaps = some c → (s.procs c).state = .zombie)
    (hreaper : ∀ r, call.reaper = some r → s.AliveAt r)
    (hunset : ∀ children ppid reaper, call ≠ .exitReaper children ppid reaper) :
    (s.setCall t call).Standing := by
  constructor
  case cloning =>
    exact forall_setCall (P := fun u call => call.Clones → (s.procs (s.self u)).state = .alive)
      (fun hu => absurd hu hclones) fun u _ => h.cloning u
  case there =>
    intro p hp halive
    rcases h.there p hp halive with hlisted | ⟨u, hu⟩
    · exact .inl hlisted
    · refine .inr ⟨u, ?_⟩
      rw [calls_setCall_of_ne]
      · exact hu
      · rintro rfl
        exact hold p hu
  case reaped =>
    exact forall_setCall (P := fun _ call => ∀ c, call.reaps = some c → (s.procs c).state = .zombie)
      hreaps fun u _ => h.reaped u
  case init => exact h.init
  case reaper =>
    exact forall_setCall (P := fun _ call => ∀ r, call.reaper = some r → s.AliveAt r)
      hreaper fun u _ => h.reaper u
  case unset =>
    exact fun u children ppid reaper hu =>
      h.unset u children ppid reaper (calls_of_setCall hu (hunset children ppid reaper))

theorem look (hlook : s.look t (s.calls t) = some call) : (s.setCall t call).Standing := by
  refine h.setCall ?_ (look_clones hlook) ?_ ?_ (look_exitReaper hlook)
  · intro p hcall
    rw [hcall] at hlook
    cases hlook
  · intro c hc
    exact (look_reaps hlook hc).2.1
  · intro r hr
    rcases look_reaper hlook hr with hold | ⟨children, ppid, reaper, hcall, hfind⟩
    · exact h.reaper t r hold
    · exact aliveAt_of_treeFindReaper h.init (hfind (h.unset t _ _ _ hcall))

theorem enter (hidle : s.calls t = .idle) (e : Entry) : (s.setCall t (s.entry t e)).Standing := by
  have hold : ∀ p, s.calls t ≠ .cloneInsert p := by
    rw [hidle]
    exact nofun
  cases e
  case setpgid pid pgid =>
    dsimp only [entry]
    split <;> exact h.setCall hold id nofun nofun nofun
  all_goals exact h.setCall hold id nofun nofun nofun

/-- A process is written back with the state it has. -/
theorem setProc {proc : Proc} (hpid : proc.pid = (s.procs p).pid)
    (hstate : proc.state = (s.procs p).state) : (s.setProc p proc).Standing := by
  have hpids := field_setProc (s := s) Proc.pid hpid
  have hstates := field_setProc (s := s) Proc.state hstate
  have halive : ∀ pid, s.AliveAt pid → (s.setProc p proc).AliveAt pid := by
    rintro pid ⟨q, hq, halive⟩
    exact ⟨q, hq, (hstates q).trans halive⟩
  constructor
  case cloning =>
    intro u hu
    exact (hstates _).trans (h.cloning u hu)
  case there =>
    intro q hq hq'
    rw [hstates] at hq'
    rw [Listed, hpids]
    exact h.there q hq hq'
  case reaped =>
    intro u c hu
    exact (hstates c).trans (h.reaped u c hu)
  case init => exact halive _ h.init
  case reaper => exact fun u r hu => halive r (h.reaper u r hu)
  case unset => exact h.unset

theorem kproc (hfresh : s.Fresh) {pids : PidAllocator} (hlow : s.pids.next ≤ pid) :
    (s.withKproc pid pids).Standing := by
  have hallproc : ∀ pid' p, s.allproc pid' = some p →
      (s.withKproc pid pids).allproc pid' = some p := by
    intro pid' p hp
    obtain ⟨hpublic, hpid⟩ := hfresh.table pid' p hp
    rw [allproc_withKproc, Function.update_of_ne]
    · exact hp
    · rw [← hpid]
      exact hfresh.pid_ne hlow p hpublic.1
  have halive : ∀ pid', s.AliveAt pid' → (s.withKproc pid pids).AliveAt pid' := by
    rintro pid' ⟨p, hp, halive⟩
    refine ⟨p, hallproc pid' p hp, ?_⟩
    rw [procs_withKproc (hfresh.table pid' p hp).1.1]
    exact halive
  constructor
  case cloning =>
    intro u hu
    have hbusy : s.calls u ≠ .idle := by
      intro hidle
      change (s.calls u).Clones at hu
      rw [hidle] at hu
      exact hu
    obtain ⟨hlt, hself⟩ := hfresh.busy u hbusy
    rw [self_withKproc hlt, procs_withKproc hself.1]
    exact h.cloning u hu
  case there =>
    intro p hp hp'
    rcases Nat.lt_succ_iff_lt_or_eq.mp hp with hlt | rfl
    · rw [procs_withKproc (s := s) hlt] at hp'
      rcases h.there p hlt hp' with hlisted | hhidden
      · left
        rw [Listed, procs_withKproc (s := s) hlt]
        exact hallproc _ p hlisted
      · exact .inr hhidden
    · left
      exact Function.update_self ..
  case reaped =>
    intro u c hu
    have hc : c < s.nextProc := by
      refine (hfresh.known u c ?_).1
      change (s.calls u).reaps = some c at hu
      cases hcall : s.calls u <;> rw [hcall] at hu <;> cases hu <;> exact (.head _)
    rw [procs_withKproc hc]
    exact h.reaped u c hu
  case init => exact halive _ h.init
  case reaper => exact fun u r hu => halive r (h.reaper u r hu)
  case unset => exact h.unset

end Standing

theorem standing_boot : boot.Standing := by
  constructor
  case cloning => exact fun _ hu => hu.elim
  case there =>
    intro p hp _
    rw [Nat.lt_one_iff.mp hp]
    exact .inl rfl
  case reaped => exact nofun
  case init => exact ⟨0, rfl, rfl⟩
  case reaper | unset => exact nofun

end ProcSystem

end Petra.Proc
