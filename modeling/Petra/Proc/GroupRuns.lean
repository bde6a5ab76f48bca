import Petra.Proc.Sessions

/-! # Groups and sessions over whole runs -/

namespace Petra.Proc

open Base Function

namespace ProcSystem

variable {s s' : ProcSystem} {t u p q c g : Nat} {call : Call}

theorem entry_apart (s : ProcSystem) (t : Nat) (e : Entry) :
    (s.entry t e).Settled ∧ (∀ self, (s.entry t e).changes self = none) ∧
      (s.entry t e).names = none ∧ ∀ u, s.Checked u (s.entry t e) := by
  cases e
  case setpgid pid pgid =>
    dsimp only [entry]
    split <;> exact ⟨trivial, fun _ => rfl, rfl, fun _ => trivial⟩
  all_goals exact ⟨trivial, fun _ => rfl, rfl, fun _ => trivial⟩

/-- All that holds of groups and sessions between two sections. -/
structure Grouped (s : ProcSystem) : Prop where
  fresh : s.Fresh
  exclusive : s.Exclusive
  indexed : ∃ pgidOf sidOf, s.Indexed pgidOf sidOf
  sessions : s.Sessions

namespace Grouped

variable (h : s.Grouped)

include h

theorem enter (ht : s.Caller t) (hidle : s.calls t = .idle)
    (e : Entry) : (s.setCall t (s.entry t e)).Grouped := by
  obtain ⟨hsettled, hchanges, hnames, hchecked⟩ := s.entry_apart t e
  have hfresh := h.fresh.entry ht e
  constructor
  case fresh => exact hfresh
  case exclusive =>
    apply h.exclusive.setCall
    intro q hq
    rw [hchanges] at hq
    cases hq
  case indexed =>
    obtain ⟨pgidOf, sidOf, hindexed⟩ := h.indexed
    refine ⟨pgidOf, sidOf, hindexed.setCall h.fresh ?_ (reads_of_changes hchanges)⟩
    intro p hp
    rw [Pending, hidle] at hp
    exact hp
  case sessions =>
    refine h.sessions.setCall h.fresh hfresh hsettled (hchecked t) ?_
    intro g hg
    rw [hnames] at hg
    cases hg

theorem next (horderly : s.Orderly (.next t)) (hfresh : s'.Fresh) (hs' : s.nextSection t = some s') :
    s'.Grouped := by
  obtain ⟨pgidOf, sidOf, hindexed⟩ := h.indexed
  rcases nextSection_cases hs' with ⟨call, hlook, rfl⟩ | hact
  · exact ⟨hfresh, h.exclusive.look h.fresh horderly hlook,
      ⟨pgidOf, sidOf, hindexed.look h.fresh hlook⟩, h.sessions.look h.fresh horderly hlook⟩
  · exact ⟨hfresh, h.exclusive.act h.fresh horderly hact,
      hindexed.act h.fresh h.exclusive horderly hact,
      h.sessions.act h.fresh hfresh hact h.exclusive horderly⟩

section

variable (hcalls : s'.calls = s.calls) (hself : ∀ u < s.nextThread, s'.self u = s.self u)

include hcalls hself

/-- What stays where no call goes on and no process gets another group or session. -/
theorem changes_of_calls : s'.changes u = s.changes u := by
  rw [changes, changes, hcalls]
  by_cases hidle : s.calls u = .idle
  · rw [hidle]
    rfl
  · rw [hself u (h.fresh.busy u hidle).1]

theorem exclusive_of_calls (hlisted : ∀ q, s.Listed q → s'.Listed q) : s'.Exclusive := by
  have hchanges : ∀ u, s'.changes u = s.changes u := fun u => h.changes_of_calls hcalls hself
  constructor
  case one =>
    intro t u q ht hu
    rw [hchanges] at ht hu
    exact h.exclusive.one t u q ht hu
  case listed =>
    intro t q ht
    rw [hchanges] at ht
    exact hlisted q (h.exclusive.listed t q ht)

theorem sessions_of_calls (hle : s.nextProc ≤ s'.nextProc)
    (hprocs : ∀ p < s.nextProc, SameIds (s.procs p) (s'.procs p))
    (hmember : ∀ q, s'.Member q → s.Member q ∨
      (s'.InSession (s'.procs q).getPgid (s'.procs q).getSid ∧
        ∀ u, (s.calls u).Leads → (s'.procs q).getPgid ≠ (s.procs (s.self u)).pid)) :
    s'.Sessions := by
  refine h.sessions.of_frame h.fresh hle (fun p hp => ⟨(hprocs p hp).1, (hprocs p hp).2.2⟩) hself
    ?_ ?_ ?_ ?_ ?_
  · rw [hcalls]
    exact fun u hu => ⟨(h.fresh.busy u hu).1, (h.fresh.busy u hu).2.1,
      fun p hp => (h.fresh.known u p hp).1⟩
  · rw [hcalls]
    exact h.sessions.checked
  · rw [hcalls]
    exact fun v g hg => .inl hg
  · rw [hcalls]
    exact fun u hu => (hprocs _ (Sessions.self_lt_of_leads h.fresh hu)).2.1
  · rw [hcalls]
    intro q hq
    rcases hmember q hq with hold | hnew
    · exact .inl ⟨hold, (hprocs q (hold.lt h.fresh)).2.1⟩
    · exact .inr hnew

end

/-- A process is written back with the groups it has. -/
theorem setProc {proc : Proc} (hpid : proc.pid = (s.procs p).pid)
    (hpgid : proc.getPgid = (s.procs p).getPgid) (hsid : proc.getSid = (s.procs p).getSid)
    (hfresh : (s.setProc p proc).Fresh) : (s.setProc p proc).Grouped := by
  have hpids := field_setProc (s := s) Proc.pid hpid
  have hpgids := field_setProc (s := s) Proc.getPgid hpgid
  have hsids := field_setProc (s := s) Proc.getSid hsid
  have hlisted : ∀ q, (s.setProc p proc).Listed q ↔ s.Listed q := by
    intro q
    rw [Listed, hpids]
    exact Iff.rfl
  constructor
  case fresh => exact hfresh
  case exclusive => exact h.exclusive_of_calls rfl (fun _ _ => rfl) fun q => (hlisted q).mpr
  case indexed =>
    obtain ⟨pgidOf, sidOf, hindexed⟩ := h.indexed
    refine ⟨pgidOf, sidOf, hindexed.congr h.fresh rfl rfl rfl
      (fun q _ => ⟨hpids q, hpgids q, hsids q⟩) (fun _ _ hu => hu) ?_⟩
    intro u
    exact (hindexed.reads u).congr rfl fun q _ => ⟨⟨hpids q, hpgids q, hsids q⟩, rfl, rfl⟩
  case sessions =>
    refine h.sessions_of_calls rfl (fun _ _ => rfl) le_rfl
      (fun q _ => ⟨hpids q, hpgids q, hsids q⟩) ?_
    rintro q (hq | hq)
    · exact .inl (.inl ((hlisted q).mp hq))
    · exact .inl (.inr hq)

/-- A process of the kernel leads a group and a session of its own. -/
theorem kproc {pid : Nat} {pids : PidAllocator} (hlow : s.pids.next ≤ pid)
    (hnew : (s.newKproc pid pids).Fresh)
    (hfresh : (s.withKproc pid pids).Fresh) : (s.withKproc pid pids).Grouped := by
  have hself : ∀ u < s.nextThread, (s.withKproc pid pids).self u = s.self u :=
    fun u hu => self_withKproc hu
  have hlisted : ∀ q < s.nextProc, (s.withKproc pid pids).Listed q ↔ s.Listed q := by
    intro q hq
    rw [Listed, procs_withKproc hq, allproc_withKproc,
      update_of_ne (h.fresh.pid_ne hlow q hq)]
    exact Iff.rfl
  have hlt : ∀ q, s.Listed q → q < s.nextProc := fun q hq => (h.fresh.table _ q hq).1.1
  constructor
  case fresh => exact hfresh
  case exclusive =>
    exact h.exclusive_of_calls rfl hself fun q hq => (hlisted q (hlt q hq)).mpr hq
  case indexed =>
    obtain ⟨pgidOf, sidOf, hindexed⟩ := h.indexed
    have hreads : ∀ u pgidOf' sidOf',
        (∀ p < s.nextProc, pgidOf' p = pgidOf p ∧ sidOf' p = sidOf p) →
        (s.newKproc pid pids).Reads u pgidOf' sidOf' (s.calls u) := by
      intro u pgidOf' sidOf' hsame
      by_cases hidle : s.calls u = .idle
      · rw [hidle]
        trivial
      · refine (hindexed.reads u).congr (self_newKproc (h.fresh.busy u hidle).1) ?_
        intro p hp
        have hp' := hlt p (h.exclusive.listed u p hp)
        rw [procs_newKproc_of_lt hp']
        exact ⟨⟨rfl, rfl, rfl⟩, hsame p hp'⟩
    have hnewIndexed : (s.newKproc pid pids).Indexed pgidOf sidOf := by
      refine hindexed.congr h.fresh rfl rfl rfl ?_ ?_ (fun u => hreads u _ _ fun _ _ => ⟨rfl, rfl⟩)
      · intro p hp
        rw [procs_newKproc_of_lt hp]
        exact ⟨rfl, rfl, rfl⟩
      · intro u p hu
        have hu' := lt_of_changes h.fresh (changes_of_pending hu)
        unfold Pending at hu ⊢
        rw [self_newKproc hu']
        exact hu
    refine ⟨_, _, hnewIndexed.insert ?_ ?_ fun pid' p hp => (hnew.table pid' p hp).2⟩
    · rw [procs_newKproc_self]
      exact h.fresh.allproc_eq_none (h.fresh.pid_ne hlow)
    · intro u
      refine hreads u _ _ ?_
      intro p hp
      rw [update_of_ne hp.ne, update_of_ne hp.ne]
      exact ⟨rfl, rfl⟩
  case sessions =>
    refine h.sessions_of_calls rfl hself (Nat.le_succ _) ?_ ?_
    · intro p hp
      rw [procs_withKproc hp]
      exact ⟨rfl, rfl, rfl⟩
    intro q hq
    rcases Nat.lt_succ_iff_lt_or_eq.mp (hq.lt hfresh) with hq' | rfl
    · left
      rcases hq with hq | ⟨u, -, hu⟩
      · exact .inl ((hlisted q hq').mp hq)
      · exact .inr ⟨u, (h.fresh.busy u fun hidle => by cases hu.symm.trans hidle).1, hu⟩
    right
    constructor
    · refine ⟨s.nextProc, hq.lt hfresh, ?_, rfl⟩
      rw [last_withKproc]
      rfl
    · intro u hu
      rw [last_withKproc]
      exact (h.fresh.pid_ne hlow _ (Sessions.self_lt_of_leads h.fresh hu)).symm

theorem step {op : ProcOp} (horderly : s.Orderly op) (hstep : s.step op = .ok s') : s'.Grouped := by
  have hfresh := h.fresh.step horderly.unwrapped hstep
  cases stepped_of_step hstep with
  | @enter t e ht hruns hidle => exact h.enter ⟨ht, h.fresh.runs t ht hruns⟩ hidle e
  | next hnext => exact h.next horderly hfresh hnext
  | subreaper | signal => exact h.setProc rfl rfl rfl hfresh
  | kproc hkproc =>
    obtain ⟨pid, hpid, hlow, -⟩ := PidAllocator.allocate_spec horderly le_rfl
    dsimp only [ProcSystem.step] at hkproc
    rw [hpid] at hkproc
    cases hkproc
    exact h.kproc hlow (h.fresh.newKproc hlow rfl) hfresh

end Grouped

theorem grouped_boot : boot.Grouped := by
  have hindex : ∀ g pid, (Multimap.empty.add pidInit pidInit).Has g pid ↔
      ∃ p, boot.allproc pid = some p ∧ g = pidInit := by
    intro g pid
    rw [Multimap.has_add]
    dsimp only [boot]
    constructor
    · rintro (⟨rfl, rfl⟩ | hempty)
      · exact ⟨0, if_pos rfl, rfl⟩
      · exact absurd hempty Multimap.not_has_empty
    · rintro ⟨p, hp, rfl⟩
      split at hp
      next hpid => exact .inl ⟨rfl, hpid⟩
      next => cases hp
  constructor
  case fresh => exact fresh_boot
  case exclusive => exact ⟨nofun, nofun⟩
  case indexed =>
    refine ⟨fun _ => pidInit, fun _ => pidInit, ?_⟩
    exact ⟨hindex, hindex, fun _ _ _ => ⟨rfl, rfl⟩, fun _ => trivial⟩
  case sessions => exact ⟨fun p _ => ⟨0, Nat.zero_lt_one, rfl, rfl⟩, fun _ => trivial⟩

/-- As long as the calls that change a process come one after the other, and no process starts a
session whose identifier is the group of others: when no call is under way, the index has the
processes of the table under their groups and sessions and nothing else, and the processes of a
group are in one session. -/
theorem groups_of_visits (h : Visits step Orderly boot s) (hquiet : s.Quiescent) :
    (∀ g pid, s.pgrpMap.Has g pid ↔ ∃ p, s.allproc pid = some p ∧ (s.procs p).getPgid = g) ∧
    (∀ sid pid, s.sessionMap.Has sid pid ↔ ∃ p, s.allproc pid = some p ∧ (s.procs p).getSid = sid) ∧
    ∀ pid p pid' q, s.allproc pid = some p → s.allproc pid' = some q →
      (s.procs p).getPgid = (s.procs q).getPgid → (s.procs p).getSid = (s.procs q).getSid := by
  have hgrouped : s.Grouped :=
    h.invariant (I := Grouped) grouped_boot fun _ _ _ hs horderly hstep => hs.step horderly hstep
  obtain ⟨pgidOf, sidOf, hindexed⟩ := hgrouped.indexed
  have hlisted : ∀ pid p, s.allproc pid = some p → s.Listed p := by
    intro pid p hp
    rw [Listed, (hgrouped.fresh.table pid p hp).2]
    exact hp
  have hsettled : ∀ pid p, s.allproc pid = some p →
      pgidOf p = (s.procs p).getPgid ∧ sidOf p = (s.procs p).getSid := by
    intro pid p hp
    refine hindexed.settled p (hlisted pid p hp) ?_
    intro t ht
    rw [Pending, hquiet.idle hgrouped.fresh] at ht
    exact ht
  refine ⟨?_, ?_, ?_⟩
  · intro g pid
    rw [hindexed.pgrp]
    refine exists_congr fun p => and_congr_right fun hp => ?_
    rw [(hsettled pid p hp).1]
    exact eq_comm
  · intro sid pid
    rw [hindexed.session]
    refine exists_congr fun p => and_congr_right fun hp => ?_
    rw [(hsettled pid p hp).2]
    exact eq_comm
  · intro pid p pid' q hp hq hpgid
    obtain ⟨l, hl, hlpid, hlsid⟩ := hgrouped.sessions.led p (.inl (hlisted pid p hp))
    obtain ⟨m, hm, hmpid, hmsid⟩ := hgrouped.sessions.led q (.inl (hlisted pid' q hq))
    have hlm : l = m := hgrouped.fresh.apart l hl m hm (by rw [hlpid, hmpid, hpgid])
    rw [← hlsid, ← hmsid, hlm]

/-- Init has three children. The first leads a group that the others are moved to, and the last
starts a session. -/
theorem groups_moved : ∃ s, Visits step Orderly boot s ∧ s.Quiescent ∧
    (s.procs 1).getPgid = 2 ∧ (s.procs 2).getPgid = 2 ∧ (s.procs 3).getSid = 4 ∧
      s.pgrpMap.Has 2 3 ∧ s.sessionMap.Has 4 4 ∧ ¬s.pgrpMap.Has 2 4 := by
  obtain ⟨s, hs, hquiet, hthree, hfour, hgroup₁, hgroup₂, hgroup₃, hsession⟩ :=
    exists_visits step Orderly boot
      [ProcOp.call 0 .cloneProc 4, ProcOp.call 0 .cloneProc 4, ProcOp.call 0 .cloneProc 4,
        ProcOp.call 1 (.setpgid 0 0) 5, ProcOp.call 0 (.setpgid 3 2) 8,
        ProcOp.call 0 (.setpgid 4 2) 8, ProcOp.call 3 .setsid 5].flatten
      (fun s => s.Quiescent ∧ s.allproc 3 = some 2 ∧ s.allproc 4 = some 3 ∧
        (s.procs 1).getPgid = 2 ∧ (s.procs 2).getPgid = 2 ∧ (s.procs 3).getPgid = 4 ∧
        (s.procs 3).getSid = 4) (by decide +kernel)
  obtain ⟨hpgrp, hsessions, -⟩ := groups_of_visits hs hquiet
  refine ⟨s, hs, hquiet, hgroup₁, hgroup₂, hsession, (hpgrp 2 3).mpr ⟨2, hthree, hgroup₂⟩,
    (hsessions 4 4).mpr ⟨3, hfour, hsession⟩, ?_⟩
  intro hhas
  obtain ⟨p, hp, hpgid⟩ := (hpgrp 2 4).mp hhas
  rw [hfour, Option.some.injEq] at hp
  rw [← hp, hgroup₃] at hpgid
  cases hpgid

/-- A child moves to the group of its brother, which the brother is not in, and the brother then
starts a session: the group is in two sessions. And a child makes a group of its own while its
parent moves it to another one: it stays in the index under both. -/
theorem not_grouped : (Base.run step boot [ProcOp.call 0 .cloneProc 4, ProcOp.call 0 .cloneProc 4,
        ProcOp.call 2 (.setpgid 0 2) 8, ProcOp.call 1 .setsid 5].flatten).map
      (fun s => (decide s.Quiescent, (s.procs 1).getPgid, (s.procs 2).getPgid,
        (s.procs 1).getSid, (s.procs 2).getSid)) = .ok (true, 2, 2, 2, 1) ∧ (Base.run step boot
      [ProcOp.call 0 .cloneProc 4, ProcOp.call 0 .cloneProc 4,
        ProcOp.call 2 (.setpgid 0 0) 3, ProcOp.call 0 (.setpgid 3 2) 6,
        List.replicate 2 (.next 2), List.replicate 2 (.next 0)].flatten).map
      (fun s => (decide s.Quiescent, (s.procs 2).getPgid, decide (s.pgrpMap.Has 3 3),
        decide (s.pgrpMap.Has 2 3))) = .ok (true, 2, true, true) := by
  decide

end ProcSystem

end Petra.Proc
