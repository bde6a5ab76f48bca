import Petra.Proc.Tree

/-! # The process tree over whole runs -/

namespace Petra.Proc

open Base List

namespace ProcSystem

variable {s s' : ProcSystem} {t u p q c pid : Nat} {call : Call}

/-- All that holds of parents and children between two sections. -/
structure Planted (s : ProcSystem) : Prop where
  fresh : s.Fresh
  standing : s.Standing
  tree : s.Tree

namespace Planted

theorem enter (h : s.Planted) (ht : s.Caller t) (hidle : s.calls t = .idle) (e : Entry) :
    (s.setCall t (s.entry t e)).Planted := by
  have hremove : ∀ c status, s.calls t ≠ .reapRemove c status := by
    rw [hidle]
    exact nofun
  refine ⟨h.fresh.entry ht e, h.standing.enter hidle e, ?_⟩
  cases e
  case setpgid pid pgid =>
    dsimp only [entry]
    split <;> refine h.tree.setCall ?_ ?_ nofun nofun hremove h.fresh <;> rw [hidle] <;> rfl
  all_goals
    refine h.tree.setCall ?_ ?_ nofun nofun hremove h.fresh <;> rw [hidle] <;> rfl

theorem next (h : s.Planted) (hrooted : s.Rooted (.next t)) (hfresh : s'.Fresh)
    (hs' : s.nextSection t = some s') : s'.Planted := by
  rcases nextSection_cases hs' with ⟨call, hlook, rfl⟩ | hact
  · refine ⟨hfresh, h.standing.look hlook, ?_⟩
    obtain ⟨htaken, hborn⟩ := look_taken hlook
    refine h.tree.setCall htaken hborn ?_ ?_ ?_ h.fresh
    · rintro c rfl
      exact look_settled hlook
    · rintro c rfl
      exact look_clones hlook trivial
    · intro c status hcall
      rw [hcall] at hlook
      cases hlook
  · exact ⟨hfresh, h.standing.act h.fresh hfresh hrooted hact,
      h.tree.act h.fresh hact hfresh h.standing⟩

/-- A process is written back with the parent and the children it has. -/
theorem setProc (h : s.Planted) {proc : Proc} (hpid : proc.pid = (s.procs p).pid)
    (hstate : proc.state = (s.procs p).state) (hppid : proc.ppid = (s.procs p).ppid)
    (hchildren : proc.children = (s.procs p).children) (hfresh : (s.setProc p proc).Fresh) :
    (s.setProc p proc).Planted := by
  have hpids := field_setProc (s := s) Proc.pid hpid
  have hstates := field_setProc (s := s) Proc.state hstate
  have hppids := field_setProc (s := s) Proc.ppid hppid
  have hlists : (s.setProc p proc).lists = s.lists :=
    lists_congr le_rfl (fun q _ => field_setProc Proc.children hchildren q)
      (fun q hge hlt => absurd hlt (Nat.not_lt.mpr hge)) (fun _ => rfl) (fun _ => rfl)
      (fun _ c _ => hpids c)
  refine ⟨hfresh, h.standing.setProc hpid hstate, ?_⟩
  refine h.tree.of_same ?_ ?_ (fun _ hd => hd) (fun d _ => hpids d) hlists ?_
    (fun pid c hc => .inl ⟨hc, (h.fresh.table pid c hc).1.1⟩) (fun c _ => hppids c)
    fun _ _ _ hu => .inl hu
  · intro u c hu
    rw [hppids, hpids]
    exact h.tree.made u c hu
  · intro c hc hnone
    rw [hppids] at hnone
    exact h.tree.own c hc hnone
  · intro q _ halive
    exact (hstates q).trans halive

/-- A process of the kernel has no parent and no children. -/
theorem kproc (h : s.Planted) {pids : PidAllocator} (hlow : s.pids.next ≤ pid)
    (hfresh : (s.withKproc pid pids).Fresh) : (s.withKproc pid pids).Planted := by
  have hlists : (s.withKproc pid pids).lists = s.lists := by
    refine lists_congr (Nat.le_succ _) (fun p hp => by rw [procs_withKproc hp]) ?_ (fun _ => rfl)
      (fun _ => rfl) (fun u c hc => by rw [procs_withKproc (h.fresh.pid_born hc).2.1])
    intro p hge hlt
    rw [Nat.le_antisymm (Nat.lt_succ_iff.mp hlt) hge, last_withKproc]
    rfl
  refine ⟨hfresh, h.standing.kproc h.fresh hlow, ?_⟩
  refine h.tree.of_same ?_ ?_ (fun d hd => ⟨Nat.lt_succ_of_lt hd.1, hd.2⟩)
    (fun d hd => by rw [procs_withKproc hd]) hlists ?_ ?_ (fun c hc => by rw [procs_withKproc hc])
    fun _ _ _ hu => .inl hu
  · intro u c hu
    obtain ⟨hc, hlt, hself⟩ := h.fresh.making (u := u) hu
    rw [self_withKproc hlt, procs_withKproc hc, procs_withKproc hself.1]
    exact h.tree.made u c hu
  · intro c hc hnone
    rcases Nat.lt_succ_iff_lt_or_eq.mp hc with hlt | rfl
    · rw [procs_withKproc (s := s) hlt] at hnone
      rcases h.tree.own c hlt hnone with hinit | hkernel
      · exact .inl hinit
      · exact .inr (mem_append_left _ hkernel)
    · exact .inr (mem_append_right _ (.head _))
  · intro p hp halive
    rw [procs_withKproc hp]
    exact halive
  intro pid' c hc
  rw [allproc_withKproc] at hc
  rcases update_eq_cases hc with ⟨hpid, hnew⟩ | ⟨-, hc⟩
  · cases hnew
    rw [last_withKproc]
    refine .inr ⟨rfl, ?_⟩
    -- Nobody has heard of a number from ahead.
    intro place hmem
    obtain ⟨d, hd, hdpid⟩ := h.tree.known place pid' hmem
    exact h.fresh.pid_ne hlow d hd.1 (hdpid.trans hpid)
  · exact .inl ⟨hc, (h.fresh.table pid' c hc).1.1⟩

theorem step {op : ProcOp} (h : s.Planted) (hrooted : s.Rooted op)
    (hstep : s.step op = .ok s') : s'.Planted := by
  have hfresh := h.fresh.step hrooted.unwrapped hstep
  cases stepped_of_step hstep with
  | @enter t e ht hruns hidle => exact h.enter ⟨ht, h.fresh.runs t ht hruns⟩ hidle e
  | next hnext => exact h.next hrooted hfresh hnext
  | subreaper | signal => exact h.setProc rfl rfl rfl rfl hfresh
  | kproc hkproc =>
    obtain ⟨pid, hpid, hlow, -⟩ := PidAllocator.allocate_spec hrooted le_rfl
    dsimp only [ProcSystem.step] at hkproc
    rw [hpid] at hkproc
    cases hkproc
    exact h.kproc hlow hfresh

end Planted

theorem planted_boot : boot.Planted := by
  have hlists : ∀ place, boot.lists place = [] := by
    intro place
    cases place with
    | child p =>
      dsimp only [lists]
      split <;> rfl
    | taken t => rfl
    | born t => rfl
  refine ⟨fresh_boot, standing_boot, ?_⟩
  constructor
  case filed =>
    constructor
    · intro place
      rw [hlists]
      exact nodup_nil
    · intro place place' pid hpid
      rw [hlists] at hpid
      cases hpid
  case known =>
    intro place pid hpid
    rw [hlists] at hpid
    cases hpid
  case linked =>
    intro p pid hpid
    rw [hlists] at hpid
    cases hpid
  case made => rintro t c (ht | ht) <;> cases ht
  case covered => exact fun _ _ _ hppid => absurd rfl hppid
  case own => exact fun c hc _ => .inl (Nat.lt_one_iff.mp hc)

/-- As long as no process exits that is making a child, that an exit is giving children to, or
that is its own reaper: when no call is under way, a process of the table that is neither init
nor the kernel's has a parent in the table, is once among its children and not among those of
another, and the parent of a zombie is no zombie. -/
theorem parents_of_visits (h : Visits step Rooted boot s) (hquiet : s.Quiescent) :
    (∀ pid c, s.allproc pid = some c → c ≠ 0 → c ∉ s.kernel →
      ∃ ppid p, (s.procs c).ppid = some ppid ∧ s.allproc ppid = some p ∧
        (s.procs p).children.count pid = 1 ∧
        ∀ ppid' q, s.allproc ppid' = some q → q ≠ p → pid ∉ (s.procs q).children) ∧
    ∀ pid c ppid p, s.allproc pid = some c → (s.procs c).state = .zombie →
      (s.procs c).ppid = some ppid → s.allproc ppid = some p → (s.procs p).state ≠ .zombie := by
  have hplanted : s.Planted :=
    h.invariant (I := Planted) planted_boot fun _ _ _ hs hrooted hstep => hs.step hrooted hstep
  obtain ⟨hfresh, hstanding, htree⟩ := hplanted
  have hidle := hquiet.idle hfresh
  -- Without calls, the identifier of a child is with a process.
  have hparent : ∀ pid c, s.allproc pid = some c → (s.procs c).ppid ≠ none →
      ∃ p, pid ∈ s.lists (.child p) ∧ s.Listed p := by
    intro pid c hc hppid
    rcases htree.covered pid c hc hppid with ⟨place, hplace⟩ | ⟨t, status, ht⟩
    · cases place with
      | child p =>
        refine ⟨p, hplace, ?_⟩
        obtain ⟨hlt, -⟩ := mem_lists_child hplace
        rcases hstanding.there p hlt (htree.linked p pid hplace).1 with hlisted | ⟨t, ht⟩
        · exact hlisted
        · cases (hidle t).symm.trans ht
      | taken t | born t =>
        dsimp only [lists] at hplace
        rw [hidle] at hplace
        cases hplace
    · cases (hidle t).symm.trans ht
  constructor
  · intro pid c hc hinit hkernel
    have hppid : (s.procs c).ppid ≠ none := by
      intro hnone
      rcases htree.own c (hfresh.table pid c hc).1.1 hnone with h0 | hk
      · exact hinit h0
      · exact hkernel hk
    obtain ⟨p, hmem, hlisted⟩ := hparent pid c hc hppid
    obtain ⟨hlt, hmem'⟩ := mem_lists_child hmem
    refine ⟨_, p, (htree.linked p pid hmem).2 c hc, hlisted, ?_, ?_⟩
    · have honce := htree.filed.once (.child p)
      rw [lists_child hlt] at honce
      exact count_eq_one_of_mem honce hmem'
    · intro ppid' q hq hne hmemq
      have hqlt := (hfresh.table ppid' q hq).1.1
      rw [← lists_child hqlt] at hmemq
      exact hne (Place.child.inj (htree.filed.apart _ _ pid hmemq hmem))
  · intro pid c ppid p hc _ hppid hp hzombie
    obtain ⟨q, hmem, hlisted⟩ := hparent pid c hc (by rw [hppid]; exact nofun)
    obtain ⟨halive, hlink⟩ := htree.linked q pid hmem
    have hpid : (s.procs q).pid = ppid := by
      have heq := hlink c hc
      rw [hppid, Option.some.injEq] at heq
      exact heq.symm
    rw [Listed, hpid, hp, Option.some.injEq] at hlisted
    rw [hlisted, halive] at hzombie
    cases hzombie

/-- Init has a child and a grandchild. The child exits and is waited for, and the grandchild is
init's. -/
theorem tree_reparented : ∃ s, Visits step Rooted boot s ∧ s.Quiescent ∧
    s.allproc 2 = none ∧ s.allproc 3 = some 2 ∧ (s.procs 0).children.count 3 = 1 := by
  obtain ⟨s, hs, hquiet, hone, htwo, hthree, hppid, hkernel⟩ := exists_visits step Rooted boot
    [ProcOp.call 0 .cloneProc 4, ProcOp.call 1 .cloneProc 4, ProcOp.call 1 (.exit (.exited 7)) 6,
      ProcOp.call 0 (.wait ⟨.pid 2, false, true, false, false, false⟩) 12].flatten
    (fun s => s.Quiescent ∧ s.allproc 1 = some 0 ∧ s.allproc 2 = none ∧ s.allproc 3 = some 2 ∧
      (s.procs 2).ppid = some 1 ∧ s.kernel = []) (by decide)
  obtain ⟨htree, -⟩ := parents_of_visits hs hquiet
  obtain ⟨ppid, p, hppid', hp, hcount, -⟩ :=
    htree 3 2 hthree (by decide) (by rw [hkernel]; exact not_mem_nil)
  rw [hppid, Option.some.injEq] at hppid'
  rw [← hppid', hone, Option.some.injEq] at hp
  rw [← hp] at hcount
  exact ⟨s, hs, hquiet, htwo, hthree, hcount⟩

/-- One thread of a process is making a child, which is in the table and not in the list of the
process, when another thread of it exits. The child comes into the list of a zombie, and when
init has reaped that, it has a parent that is not there. -/
theorem not_planted : (Base.run step boot
      [ProcOp.call 0 .cloneProc 4, ProcOp.call 1 .cloneThread 2, ProcOp.call 1 .cloneProc 3,
        ProcOp.call 2 (.exit (.exited 7)) 7, [.next 1],
        ProcOp.call 0 (.wait ⟨.all, false, true, false, false, false⟩) 11].flatten).map
      (fun s => (decide s.Quiescent, s.allproc 3, (s.procs 2).ppid, s.allproc 2, s.kernel)) =
        .ok (true, some 2, some 2, none, []) := by
  decide

end ProcSystem

end Petra.Proc
