import Petra.Proc.Fresh

/-! # Identifiers of processes and threads, and who reaps

Threads get identifiers from a counter that starts where the first ten thousand process
identifiers end. Until one of the two counters starts again, identifiers are unique; and while no
two threads reap one child, its status is returned once.
-/

namespace Petra.Proc

open Base List Nat Call ProcSystem PidAllocator
open Function (update_self update_of_ne)

/-- The group that `set_pgid` moves its target to, once it has been looked up. -/
def Call.joins : Call → Option Nat
  | .pgLeaderSid _ g _ | .pgOwnSid _ g _ | .pgOld _ g | .pgWrite _ g _ => some g
  | _ => none

/-- The identifier that `clone_thread` has taken. -/
def Call.takes : Call → Option Nat
  | .threadAdd tid => some tid
  | _ => none

namespace ProcSystem

variable {s s' : ProcSystem} {t u p q c : Nat} {call call₀ : Call}

/-- New identifiers of processes stay below those of threads, the counter of those does not start
again, and a child is reaped by one thread while it is in the table. -/
def Distinct (s : ProcSystem) : ProcOp → Prop
  | .next t =>
    match s.calls t with
    | .cloneAllocate => s.pids.FreeBelow tidFirst
    | .tidFetch => s.nextTid ≤ tidMax
    | .reapCheck c =>
      s.allproc (s.procs c).pid = some c ∧ ∀ u < s.nextThread, (s.calls u).reaps ≠ some c
    | _ => True
  | .kproc => s.pids.FreeBelow tidFirst
  | _ => True

instance (s : ProcSystem) : (op : ProcOp) → Decidable (s.Distinct op)
  | .next t => by
    dsimp only [Distinct]
    induction s.calls t using Call.casesOn <;> infer_instance
  | .kproc => inferInstanceAs (Decidable (s.pids.FreeBelow tidFirst))
  | .enter .. | .subreaper .. | .signal .. => .isTrue trivial

/-- An identifier below those of the threads is below the largest one. -/
theorem Distinct.unwrapped {op : ProcOp} (h : s.Distinct op) : s.Unwrapped op := by
  cases op with
  | next t =>
    intro hcall
    dsimp only [Distinct] at h
    rw [hcall] at h
    exact PidAllocator.FreeBelow.mono h (by decide)
  | kproc => exact PidAllocator.FreeBelow.mono h (by decide)
  | enter t e => trivial
  | subreaper t on => trivial
  | signal p stopStatus => trivial

/-! ## Threads -/

structure Tids (s : ProcSystem) : Prop where
  pids_le : s.pids.next ≤ tidFirst
  first_le : tidFirst ≤ s.nextTid
  le_max : s.nextTid ≤ tidMax + 1
  low : ∀ t < s.nextThread, (s.threads t).tid < tidFirst →
    ∃ p < s.nextProc, (s.procs p).pid = (s.threads t).tid
  high : ∀ t < s.nextThread, tidFirst ≤ (s.threads t).tid → (s.threads t).tid < s.nextTid
  apart : ∀ t < s.nextThread, ∀ u < s.nextThread, (s.threads t).tid = (s.threads u).tid → t = u
  taken : ∀ t tid, (s.calls t).takes = some tid → tidFirst ≤ tid ∧ tid < s.nextTid ∧
    (∀ u < s.nextThread, (s.threads u).tid ≠ tid) ∧ ∀ u, (s.calls u).takes = some tid → u = t
  counts : ∀ t, s.calls t ≠ .tidStore

namespace Tids

/-- Nothing changes that has to do with the identifiers of threads. -/
theorem congr (h : s.Tids) (hnextThread : s'.nextThread = s.nextThread)
    (hnextProc : s.nextProc ≤ s'.nextProc) (hpids : s'.pids.next ≤ tidFirst)
    (hnextTid : s'.nextTid = s.nextTid)
    (htid : ∀ u < s.nextThread, (s'.threads u).tid = (s.threads u).tid)
    (hpid : ∀ p < s.nextProc, (s'.procs p).pid = (s.procs p).pid)
    (htakes : ∀ u tid, (s'.calls u).takes = some tid → (s.calls u).takes = some tid)
    (hcounts : ∀ u, s'.calls u ≠ .tidStore) : s'.Tids := by
  constructor
  case pids_le => exact hpids
  case first_le =>
    rw [hnextTid]
    exact h.first_le
  case le_max =>
    rw [hnextTid]
    exact h.le_max
  case low =>
    intro u hu hlow
    rw [hnextThread] at hu
    rw [htid u hu] at hlow ⊢
    obtain ⟨p, hp, heq⟩ := h.low u hu hlow
    exact ⟨p, hp.trans_le hnextProc, (hpid p hp).trans heq⟩
  case high =>
    intro u hu hhigh
    rw [hnextThread] at hu
    rw [htid u hu] at hhigh ⊢
    rw [hnextTid]
    exact h.high u hu hhigh
  case apart =>
    intro u hu v hv huv
    rw [hnextThread] at hu hv
    rw [htid u hu, htid v hv] at huv
    exact h.apart u hu v hv huv
  case taken =>
    intro u tid hu
    obtain ⟨hge, hlt, hne, honly⟩ := h.taken u tid (htakes u tid hu)
    rw [hnextTid, hnextThread]
    refine ⟨hge, hlt, ?_, fun v hv => honly v (htakes v tid hv)⟩
    intro v hv
    rw [htid v hv]
    exact hne v hv
  case counts => exact hcounts

/-- A call goes on, and takes no identifier. -/
theorem setCall (h : s.Tids) (htakes : call.takes = none) (hcounts : call ≠ .tidStore) :
    (s.setCall t call).Tids := by
  refine h.congr rfl le_rfl h.pids_le rfl (fun _ _ => rfl) (fun _ _ => rfl) ?_ ?_
  · exact forall_setCall
      (P := fun u call => ∀ tid, call.takes = some tid → (s.calls u).takes = some tid)
      (fun _ hu => nomatch htakes.symm.trans hu) fun _ _ _ hu => hu
  · exact forall_setCall (P := fun _ call => call ≠ .tidStore) hcounts fun u _ => h.counts u

/-- A new thread has an identifier that no other has and no call has taken. -/
theorem withThread (h : s.Tids) {thread : Thread} (hlow : thread.tid < tidFirst →
      ∃ p < s.nextProc, (s.procs p).pid = thread.tid)
    (hhigh : tidFirst ≤ thread.tid → thread.tid < s.nextTid)
    (hne : ∀ u < s.nextThread, (s.threads u).tid ≠ thread.tid)
    (htaken : ∀ u, (s.calls u).takes ≠ some thread.tid) : (s.withThread thread).Tids := by
  have hthreads : ∀ u < s.nextThread, (s.withThread thread).threads u = s.threads u :=
    fun u hu => update_of_ne hu.ne ..
  have hlast : (s.withThread thread).threads s.nextThread = thread := update_self ..
  refine { h with low := ?low, high := ?high, apart := ?apart, taken := ?taken }
  case low =>
    intro u hu
    rcases Nat.lt_succ_iff_lt_or_eq.mp hu with hu | rfl
    · rw [hthreads u hu]
      exact h.low u hu
    · rw [hlast]
      exact hlow
  case high =>
    intro u hu
    rcases Nat.lt_succ_iff_lt_or_eq.mp hu with hu | rfl
    · rw [hthreads u hu]
      exact h.high u hu
    · rw [hlast]
      exact hhigh
  case apart =>
    refine apart_succ (fun u hu => by rw [hthreads u hu]) h.apart fun u hu => ?_
    rw [hlast]
    exact hne u hu
  case taken =>
    intro u tid hu
    obtain ⟨hge, hlt, hne', honly⟩ := h.taken u tid hu
    refine ⟨hge, hlt, ?_, honly⟩
    intro v hv
    rcases Nat.lt_succ_iff_lt_or_eq.mp hv with hv | rfl
    · rw [hthreads v hv]
      exact hne' v hv
    · rw [hlast]
      rintro rfl
      exact htaken u hu

/-- A new process comes with a thread of its identifier. -/
theorem newProc (h : s.Tids) {proc : Proc} (hlt : proc.pid < tidFirst)
    (hne : ∀ p < s.nextProc, (s.procs p).pid ≠ proc.pid) : (s.newProc proc).Tids := by
  have hproc : { s with
      procs := Function.update s.procs s.nextProc { proc with threads := [s.nextThread] }
      nextProc := s.nextProc + 1 }.Tids :=
    h.congr rfl (le_succ _) h.pids_le rfl (fun _ _ => rfl)
      (fun p hp => congrArg Proc.pid (update_of_ne hp.ne ..)) (fun _ _ hu => hu) h.counts
  refine hproc.withThread ?_ ?_ ?_ ?_
  · exact fun _ => ⟨s.nextProc, lt_succ_self _, Fresh.pid_newProc⟩
  · exact fun hhigh => absurd hlt (not_lt.mpr hhigh)
  · -- No thread has the identifier yet: it would be that of a process.
    intro u hu heq
    obtain ⟨p, hp, hpid⟩ := h.low u hu (heq ▸ hlt)
    exact hne p hp (hpid.trans heq)
  · exact fun u hu => not_lt.mpr (h.taken u _ hu).1 hlt

/-- A call adds a thread with the identifier it has taken. -/
theorem addThread (h : s.Tids) {tid : Nat} (hcall : (s.calls t).takes = some tid) :
    ((s.addThread p tid).setCall t .idle).Tids := by
  obtain ⟨hge, hlt, hne, honly⟩ := h.taken t tid hcall
  have hidle : (s.setCall t .idle).Tids := h.setCall rfl nofun
  have hproc : ((s.setCall t .idle).setProc p { s.procs p with
      threads := (s.procs p).threads ++ [s.nextThread] }).Tids :=
    hidle.congr rfl le_rfl h.pids_le rfl (fun _ _ => rfl)
      (fun q _ => field_setProc Proc.pid (by rfl) q) (fun _ _ hu => hu) hidle.counts
  refine hproc.withThread (fun hlow => absurd hlow (not_lt.mpr hge)) (fun _ => hlt) hne ?_
  -- Whoever has taken an identifier now had it before, and it is another one.
  refine forall_setCall (P := fun _ call => call.takes ≠ some tid) nofun ?_
  exact fun u hut hu => hut (honly u hu)

/-- A call takes the next identifier. -/
theorem fetch (h : s.Tids) (hmax : s.nextTid ≤ tidMax) :
    ({ s with nextTid := s.nextTid + 1 }.setCall t (.threadAdd s.nextTid)).Tids := by
  have hnew : ∀ u < s.nextThread, (s.threads u).tid ≠ s.nextTid := by
    intro u hu heq
    exact lt_irrefl _ (heq ▸ h.high u hu (heq ▸ h.first_le))
  constructor
  case pids_le => exact h.pids_le
  case first_le => exact le_succ_of_le h.first_le
  case le_max => exact succ_le_succ hmax
  case low => exact h.low
  case high => exact fun u hu hhigh => lt_succ_of_lt (h.high u hu hhigh)
  case apart => exact h.apart
  case taken =>
    have hcases : ∀ v tid, (({ s with nextTid := s.nextTid + 1 }.setCall t
        (.threadAdd s.nextTid)).calls v).takes = some tid →
        (v = t ∧ tid = s.nextTid) ∨ (v ≠ t ∧ (s.calls v).takes = some tid) := by
      intro v tid hv
      by_cases hvt : v = t
      · rw [hvt, calls_setCall_self, takes, Option.some.injEq] at hv
        exact .inl ⟨hvt, hv.symm⟩
      · rw [calls_setCall_of_ne hvt] at hv
        exact .inr ⟨hvt, hv⟩
    intro u tid hu
    rcases hcases u tid hu with ⟨hut, rfl⟩ | ⟨hut, hu'⟩
    · refine ⟨h.first_le, lt_succ_self _, hnew, ?_⟩
      intro v hv
      rcases hcases v _ hv with ⟨hvt, -⟩ | ⟨-, hv'⟩
      · rw [hvt, hut]
      · exact absurd (h.taken v _ hv').2.1 (lt_irrefl _)
    · obtain ⟨hge, hlt, hne, honly⟩ := h.taken u tid hu'
      refine ⟨hge, lt_succ_of_lt hlt, hne, ?_⟩
      intro v hv
      rcases hcases v tid hv with ⟨-, htid⟩ | ⟨-, hv'⟩
      · exact absurd hlt (by rw [htid]; exact lt_irrefl _)
      · exact honly v hv'
  case counts =>
    exact forall_setCall (P := fun _ call => call ≠ .tidStore) nofun fun u _ => h.counts u

/-- Identifiers of threads come from the two sections that count. -/
theorem takes_act (hact : s.act t call₀ = some s') (hfetch : call₀ ≠ .tidFetch)
    (hstore : call₀ ≠ .tidStore) : (s'.calls t).takes = none ∧ s'.calls t ≠ .tidStore := by
  revert hact
  fun_cases act s t call₀ <;> intro hact <;> cases hact <;> rw [calls_setCall_self]
  all_goals first
    | contradiction
    | exact ⟨rfl, by simp⟩

theorem look_takes (hlook : s.look t call₀ = some call) : call.takes = none ∧ call ≠ .tidStore := by
  revert hlook
  fun_cases look s t call₀ <;> intro hlook <;>
    grind [takes, Option.map_eq_some_iff]

/-- The sections that neither make nor take an identifier. -/
theorem quiet (h : s.Tids) (hact : s.act t call₀ = some s') (hallocate : call₀ ≠ .cloneAllocate)
    (hinherit : ∀ pid, call₀ ≠ .cloneInherit pid) (hfetch : call₀ ≠ .tidFetch)
    (hstore : call₀ ≠ .tidStore) (hadd : ∀ tid, call₀ ≠ .threadAdd tid) : s'.Tids := by
  obtain ⟨htakes, hcounts⟩ := takes_act hact hfetch hstore
  refine h.congr ((act_frame hact).nextThread hinherit hadd) (act_frame hact).nextProc_le ?_
    ((act_frame hact).nextTid hfetch hstore) (fun _ => tid_act hact) (fun _ => pid_act hact)
    ?_ ?_
  · rw [(act_frame hact).next hallocate]
    exact h.pids_le
  · exact held_act hact fun _ hu => nomatch htakes.symm.trans hu
  · exact forall_act (P := fun _ call => call ≠ .tidStore) hact hcounts fun u _ => h.counts u

/-- While the counter of threads does not start again, what it hands out is new. -/
theorem act (h : s.Tids) (hfresh : s.Fresh) (hdistinct : s.Distinct (.next t))
    (hact : s.act t (s.calls t) = some s') : s'.Tids := by
  dsimp only [Distinct] at hdistinct
  cases hcall : s.calls t <;> rw [hcall] at hact hdistinct
  case cloneAllocate =>
    obtain ⟨pid, hpid, -, hlt, -⟩ := allocate_spec hdistinct (by decide)
    dsimp only [ProcSystem.act] at hact
    rw [hpid] at hact
    cases hact
    refine setCall ?_ rfl nofun
    exact h.congr rfl le_rfl hlt rfl (fun _ _ => rfl) (fun _ _ => rfl) (fun _ _ hu => hu) h.counts
  case cloneInherit pid =>
    cases hact
    obtain ⟨hlt, hne, -⟩ := hfresh.handed t pid hcall
    exact setCall (h.newProc (hlt.trans_le h.pids_le) hne) rfl nofun
  case tidFetch =>
    cases hact
    have hmod : (s.nextTid + 1) % 2 ^ 32 = s.nextTid + 1 := by
      apply mod_eq_of_lt
      have := h.le_max
      dsimp only [tidMax] at this
      omega
    rw [if_neg (not_lt.mpr hdistinct), hmod]
    exact h.fetch hdistinct
  case tidStore => exact absurd hcall (h.counts t)
  case threadAdd tid =>
    cases hact
    exact h.addThread (by rw [hcall]; rfl)
  all_goals exact h.quiet hact nofun nofun nofun nofun nofun

end Tids

/-! ## Groups and sessions -/

/-- Groups and sessions have identifiers that have been handed out. -/
structure Led (s : ProcSystem) : Prop where
  pgid_lt : ∀ p < s.nextProc, (s.procs p).getPgid < s.pids.next
  sid_lt : ∀ p < s.nextProc, (s.procs p).getSid < s.pids.next
  joins_lt : ∀ t g, (s.calls t).joins = some g → g < s.pids.next

namespace Led

/-- A group to join leads a process of the table, or is the target's own. -/
theorem look_joins {g : Nat} (hlook : s.look t call₀ = some call) (hg : call.joins = some g) :
    call₀.joins = some g ∨ (∃ l, s.allproc g = some l) ∨
      ∃ q, call₀ = .pgParent q g ∧ (s.procs q).pid = g := by
  revert hlook
  fun_cases look s t call₀ <;> intro hlook <;> grind [joins, Option.map_eq_some_iff]

theorem joins_act {g : Nat} (hact : s.act t call₀ = some s') : (s'.calls t).joins ≠ some g := by
  revert hact
  fun_cases act s t call₀ <;> intro hact <;> cases hact <;> rw [calls_setCall_self]
  all_goals first
    | (intro hg; cases hg)
    | (split <;> simp [joins])

theorem setCall (h : s.Led) (hjoins : ∀ g, call.joins = some g → g < s.pids.next) :
    (s.setCall t call).Led where
  pgid_lt := h.pgid_lt
  sid_lt := h.sid_lt
  joins_lt := forall_setCall (P := fun _ call => ∀ g, call.joins = some g → g < s.pids.next) hjoins
      fun u _ => h.joins_lt u

theorem look (h : s.Led) (hfresh : s.Fresh) (hlook : s.look t (s.calls t) = some call) :
    (s.setCall t call).Led := by
  apply h.setCall
  intro g hg
  rcases look_joins hlook hg with hg | ⟨l, hl⟩ | ⟨q, hcall, rfl⟩
  · exact h.joins_lt t g hg
  · obtain ⟨hpublic, hpid⟩ := hfresh.table g l hl
    exact hpid ▸ hfresh.pid_lt l hpublic.1
  · have hq := hfresh.known t q (hcall ▸ (.head _))
    exact hfresh.pid_lt q hq.1

/-- The groups of processes stay, and new ones come from processes. -/
theorem congr (h : s.Led) (hpids : s.pids.next ≤ s'.pids.next) (hprocs : ∀ p < s'.nextProc,
      (s'.procs p).getPgid < s'.pids.next ∧ (s'.procs p).getSid < s'.pids.next)
    (hjoins : ∀ u g, (s'.calls u).joins = some g → (s.calls u).joins = some g) : s'.Led where
  pgid_lt p hp := (hprocs p hp).1
  sid_lt p hp := (hprocs p hp).2
  joins_lt u g hu := (h.joins_lt u g (hjoins u g hu)).trans_le hpids

/-- Groups and sessions change to what has been looked up before. -/
theorem act (h : s.Led) (hfresh : s.Fresh) (hwrap : s.Unwrapped (.next t))
    (hact : s.act t (s.calls t) = some s') : s'.Led := by
  have hjoins : ∀ u g, (s'.calls u).joins = some g → (s.calls u).joins = some g :=
    held_act hact fun _ hu => absurd hu (joins_act hact)
  cases hcall : s.calls t <;> rw [hcall] at hact
  case cloneAllocate =>
    obtain ⟨pid, hpid, hlow, -⟩ := allocate_spec (hwrap hcall) le_rfl
    dsimp only [ProcSystem.act] at hact
    rw [hpid] at hact
    cases hact
    refine h.congr (Nat.le_succ_of_le hlow) ?_ hjoins
    intro p hp
    exact ⟨Nat.lt_succ_of_lt ((h.pgid_lt p hp).trans_le hlow),
      Nat.lt_succ_of_lt ((h.sid_lt p hp).trans_le hlow)⟩
  case cloneInherit pid =>
    have hself := (hfresh.busy t (hcall ▸ nofun)).2
    cases hact
    refine h.congr le_rfl ?_ hjoins
    intro p hp
    dsimp only [ProcSystem.setCall, ProcSystem.newProc]
    rcases Nat.lt_succ_iff_lt_or_eq.mp hp with hp | rfl
    · rw [update_of_ne hp.ne]
      exact ⟨h.pgid_lt p hp, h.sid_lt p hp⟩
    · rw [update_self]
      exact ⟨h.pgid_lt _ hself.1, h.sid_lt _ hself.1⟩
  case pgWrite q g old =>
    have hg : g < s.pids.next := h.joins_lt t g (by rw [hcall]; rfl)
    cases hact
    refine h.congr le_rfl ?_ hjoins
    intro p hp
    dsimp only [ProcSystem.setCall]
    refine ⟨?_, ?_⟩
    · by_cases hpq : p = q
      · rw [hpq, procs_setProc_self]
        exact hg
      · rw [procs_setProc_of_ne hpq]
        exact h.pgid_lt p hp
    · rw [field_setProc Proc.getSid (by rfl) p]
      exact h.sid_lt p hp
  case sidWrite oldPgid oldSid =>
    have hself := (hfresh.busy t (hcall ▸ nofun)).2
    cases hact
    refine h.congr le_rfl ?_ hjoins
    intro p hp
    dsimp only [ProcSystem.setCall]
    by_cases hps : p = s.self t
    · rw [hps, procs_setProc_self]
      exact ⟨hfresh.pid_lt _ hself.1, hfresh.pid_lt _ hself.1⟩
    · rw [procs_setProc_of_ne hps]
      exact ⟨h.pgid_lt p hp, h.sid_lt p hp⟩
  all_goals
    have hnext := (act_frame hact).next nofun
    refine h.congr hnext.ge ?_ hjoins
    intro p hp
    rw [(act_frame hact).nextProc nofun] at hp
    rw [getPgid_act hact hp nofun nofun, getSid_act hact hp nofun, hnext]
    exact ⟨h.pgid_lt p hp, h.sid_lt p hp⟩

end Led

/-! ## Reaping -/

/-- A child is reaped by one call, and was returned by none before. -/
structure ReapedOnce (s : ProcSystem) : Prop where
  once : ∀ t u c, (s.calls t).reaps = some c → (s.calls u).reaps = some c → t = u
  removed : ∀ t c status, s.calls t = .reapFree c status → s.allproc (s.procs c).pid = none
  gone : ∀ c ∈ s.returned.map Prod.fst, s.Public c ∧ s.allproc (s.procs c).pid = none ∧
    ∀ u, (s.calls u).reaps ≠ some c
  nodup : (s.returned.map Prod.fst).Nodup

namespace ReapedOnce

/-- Calls that have not found a zombie of their own, or none of them new. -/
theorem congr (h : s.ReapedOnce) (hpublic : ∀ c, s.Public c → s'.Public c)
    (hnone : ∀ c, s.Public c → s.allproc (s.procs c).pid = none →
      s'.allproc (s'.procs c).pid = none)
    (hreaps : ∀ u c, (s'.calls u).reaps = some c → (s.calls u).reaps = some c)
    (hremoved : ∀ u c status, s'.calls u = .reapFree c status → s'.allproc (s'.procs c).pid = none)
    (hreturned : s'.returned = s.returned) : s'.ReapedOnce where
  once t u c ht hu := h.once t u c (hreaps t c ht) (hreaps u c hu)
  removed := hremoved
  gone c hc := by
    rw [hreturned] at hc
    obtain ⟨hc', hgone, hfree⟩ := h.gone c hc
    exact ⟨hpublic c hc', hnone c hc' hgone, fun u hu => hfree u (hreaps u c hu)⟩
  nodup := by
    rw [hreturned]
    exact h.nodup

/-- A call goes on, and reaps nobody yet. -/
theorem setCall (h : s.ReapedOnce) (hsettled : call.Settled) (hreaps : call.reaps = none) :
    (s.setCall t call).ReapedOnce := by
  refine h.congr ?_ (fun _ _ hc => hc) ?_ ?_ rfl
  · intro c hc
    apply hc.setCall
    rintro rfl
    exact hsettled
  · exact forall_setCall (P := fun u call => ∀ c, call.reaps = some c → (s.calls u).reaps = some c)
      (fun _ hu => nomatch hreaps.symm.trans hu) fun _ _ _ hu => hu
  · intro u c status hu
    refine h.removed u c status (calls_of_setCall hu ?_)
    rintro rfl
    cases hreaps

/-- A thread finds a zombie that no other thread reaps. -/
theorem look (h : s.ReapedOnce) (hfresh : s.Fresh) (hdistinct : s.Distinct (.next t))
    (hlook : s.look t (s.calls t) = some call) : (s.setCall t call).ReapedOnce := by
  obtain ⟨hsettled, -⟩ := hfresh.look_known hlook
  cases hreaps : call.reaps with
  | none => exact h.setCall hsettled hreaps
  | some c =>
    -- The child has just been found to be a zombie, and nobody else reaps it.
    obtain ⟨hcall, -, status, rfl⟩ := look_reaps hlook hreaps
    dsimp only [Distinct] at hdistinct
    rw [hcall] at hdistinct
    obtain ⟨hthere, hnobody⟩ := hdistinct
    have hnobody' : ∀ u, (s.calls u).reaps ≠ some c := by
      intro u hu
      refine hnobody u (hfresh.busy u ?_).1 hu
      intro hidle
      rw [hidle] at hu
      cases hu
    have hcases : ∀ u d, ((s.setCall t (.reapThreads c status)).calls u).reaps = some d →
        (u = t ∧ d = c) ∨ (s.calls u).reaps = some d := by
      intro u d hu
      by_cases hut : u = t
      · rw [hut, calls_setCall_self, reaps, Option.some.injEq] at hu
        exact .inl ⟨hut, hu.symm⟩
      · rw [calls_setCall_of_ne hut] at hu
        exact .inr hu
    constructor
    case once =>
      intro u v d hu hv
      rcases hcases u d hu with ⟨rfl, rfl⟩ | hu'
      · rcases hcases v _ hv with ⟨rfl, -⟩ | hv'
        · rfl
        · exact absurd hv' (hnobody' v)
      · rcases hcases v d hv with ⟨-, rfl⟩ | hv'
        · exact absurd hu' (hnobody' u)
        · exact h.once u v d hu' hv'
    case removed =>
      exact fun u d status' hu => h.removed u d status' (calls_of_setCall hu (by simp))
    case gone =>
      intro d hd
      obtain ⟨hd', hgone, hfree⟩ := h.gone d hd
      refine ⟨hd'.setCall (by simp), hgone, ?_⟩
      intro u hu
      rcases hcases u d hu with ⟨-, rfl⟩ | hu'
      · rw [hgone] at hthere
        cases hthere
      · exact hfree u hu'
    case nodup => exact h.nodup

/-- An identifier whose process is gone stays without a process. -/
theorem allproc_act_eq_none (hfresh : s.Fresh) (hact : s.act t (s.calls t) = some s')
    (hc : s.Public c) (hnone : s.allproc (s.procs c).pid = none) :
    s'.allproc (s'.procs c).pid = none := by
  rw [pid_act hact hc.1]
  cases hcall : s.calls t <;> rw [hcall] at hact
  case cloneInsert d =>
    cases hact
    have hd := hfresh.hidden t d hcall
    have hne : (s.procs c).pid ≠ (s.procs d).pid := by
      intro heq
      rw [← hfresh.apart c hc.1 d hd.1 heq] at hcall
      exact hc.2 t hcall
    exact (update_of_ne hne ..).trans hnone
  case reapRemove d status =>
    cases hact
    by_cases hpid : (s.procs c).pid = (s.procs d).pid
    · rw [hpid]
      exact allproc_allprocRemove _
    · exact (allproc_allprocRemove_of_ne hpid).trans hnone
  all_goals
    rw [(act_frame hact).allproc nofun nofun]
    exact hnone

/-- A child is returned once it is out of the table, by the thread that reaps it. -/
theorem act (h : s.ReapedOnce) (hfresh : s.Fresh) (hact : s.act t (s.calls t) = some s') :
    s'.ReapedOnce := by
  have hpublic : ∀ c, s.Public c → s'.Public c := fun c hc => hc.act hact
  have hreaps : ∀ u c, (s'.calls u).reaps = some c → (s.calls u).reaps = some c :=
    held_act hact fun _ => (act_trail hact).reaps
  have hnone : ∀ c, s.Public c → s.allproc (s.procs c).pid = none →
      s'.allproc (s'.procs c).pid = none :=
    fun c hc => allproc_act_eq_none hfresh hact hc
  have hremoved : ∀ u c status, s'.calls u = .reapFree c status →
      s'.allproc (s'.procs c).pid = none := by
    intro u c status hu
    by_cases hut : u = t
    · subst hut
      have hcall := (act_trail hact).reapFree hu
      have hc := hfresh.known u c (hcall ▸ (.head _))
      rw [pid_act hact hc.1]
      rw [hcall] at hact
      cases hact
      exact allproc_allprocRemove _
    · rw [(act_frame hact).calls hut] at hu
      have hc := hfresh.known u c (by rw [hu]; exact (.head _))
      exact hnone c hc (h.removed u c status hu)
  by_cases hfree : ∃ c status, s.calls t = .reapFree c status
  · obtain ⟨c, status, hcall⟩ := hfree
    have hreapsc : (s.calls t).reaps = some c := by
      rw [hcall]
      rfl
    have hc := hfresh.known t c (hcall ▸ (.head _))
    have hgonec := h.removed t c status hcall
    rw [hcall] at hact
    cases hact
    constructor
    case once => exact fun u v d hu hv => h.once u v d (hreaps u d hu) (hreaps v d hv)
    case removed => exact hremoved
    case gone =>
      intro d hd
      dsimp only [ProcSystem.setCall] at hd
      rw [map_append, mem_append] at hd
      rcases hd with hd | hd
      · obtain ⟨hd', hgone, hfree⟩ := h.gone d hd
        exact ⟨hpublic d hd', hnone d hd' hgone, fun u hu => hfree u (hreaps u d hu)⟩
      rw [map_singleton, mem_singleton] at hd
      subst hd
      refine ⟨hpublic _ hc, hnone _ hc hgonec, ?_⟩
      intro u hu
      rw [h.once u t _ (hreaps u _ hu) hreapsc, calls_setCall_self] at hu
      cases hu
    case nodup =>
      dsimp only [ProcSystem.setCall]
      rw [map_append, nodup_append]
      refine ⟨h.nodup, nodup_singleton _, ?_⟩
      intro d hd e he
      rw [map_singleton, mem_singleton] at he
      rintro rfl
      rw [he] at hd
      exact (h.gone _ hd).2.2 t hreapsc
  · refine h.congr hpublic hnone hreaps hremoved ((act_frame hact).returned ?_)
    intro c status hcall
    exact hfree ⟨c, status, hcall⟩

end ReapedOnce

/-! ## Runs -/

structure Ids (s : ProcSystem) : Prop where
  fresh : s.Fresh
  tids : s.Tids
  led : s.Led
  reapedOnce : s.ReapedOnce

/-- A call that has just been made takes no identifier, joins no group and reaps nobody. -/
theorem entry_quiet (e : Entry) : (s.entry t e).takes = none ∧ s.entry t e ≠ .tidStore ∧
    (s.entry t e).joins = none ∧ (s.entry t e).reaps = none ∧ (s.entry t e).Settled := by
  cases e
  case setpgid pid pgid =>
    dsimp only [entry]
    split <;> exact ⟨rfl, nofun, rfl, rfl, trivial⟩
  all_goals exact ⟨rfl, nofun, rfl, rfl, trivial⟩

namespace Ids

theorem enter (h : s.Ids) (ht : t < s.nextThread) (hruns : (s.threads t).runs = true)
    (e : Entry) : (s.setCall t (s.entry t e)).Ids := by
  obtain ⟨htakes, hcounts, hjoins, hreaps, hsettled⟩ := entry_quiet (s := s) (t := t) e
  constructor
  case fresh => exact h.fresh.entry ⟨ht, h.fresh.runs t ht hruns⟩ e
  case tids => exact h.tids.setCall htakes hcounts
  case led =>
    apply h.led.setCall
    intro g hg
    rw [hjoins] at hg
    cases hg
  case reapedOnce => exact h.reapedOnce.setCall hsettled hreaps

theorem next (h : s.Ids) (hdistinct : s.Distinct (.next t))
    (hnext : s.nextSection t = some s') : s'.Ids := by
  have hwrap := hdistinct.unwrapped
  rcases nextSection_cases hnext with ⟨call, hlook, rfl⟩ | hact
  · have hstep : s.step (.next t) = .ok (s.setCall t call) := by
      dsimp only [step]
      rw [hnext]
    constructor
    case fresh => exact h.fresh.step hwrap hstep
    case tids =>
      obtain ⟨htakes, hcounts⟩ := Tids.look_takes hlook
      exact h.tids.setCall htakes hcounts
    case led => exact h.led.look h.fresh hlook
    case reapedOnce => exact h.reapedOnce.look h.fresh hdistinct hlook
  · exact ⟨h.fresh.act hact hwrap, h.tids.act h.fresh hdistinct hact,
      h.led.act h.fresh hwrap hact, h.reapedOnce.act h.fresh hact⟩

/-- A process is written back with its identifier and its groups. -/
theorem setProc (h : s.Ids) {proc : Proc} (hpid : proc.pid = (s.procs p).pid)
    (hthreads : proc.threads = (s.procs p).threads) (hpgid : proc.pgid = (s.procs p).pgid)
    (hsid : proc.sid = (s.procs p).sid) : (s.setProc p proc).Ids := by
  have hpids := field_setProc (s := s) Proc.pid hpid
  have hgetPgid : proc.getPgid = (s.procs p).getPgid := by
    rw [Proc.getPgid, Proc.getPgid, hpgid, hpid]
  have hgetSid : proc.getSid = (s.procs p).getSid := by
    rw [Proc.getSid, Proc.getSid, hsid, hpid]
  constructor
  case fresh => exact h.fresh.setProc hpid (hthreads ▸ List.Sublist.refl _)
  case tids =>
    exact h.tids.congr rfl le_rfl h.tids.pids_le rfl (fun _ _ => rfl) (fun q _ => hpids q)
      (fun _ _ hu => hu) h.tids.counts
  case led =>
    refine h.led.congr le_rfl ?_ (fun _ _ hu => hu)
    intro q hq
    rw [field_setProc Proc.getPgid hgetPgid, field_setProc Proc.getSid hgetSid]
    exact ⟨h.led.pgid_lt q hq, h.led.sid_lt q hq⟩
  case reapedOnce =>
    refine h.reapedOnce.congr (fun _ hc => hc) ?_ (fun _ _ hu => hu) ?_ rfl
    · intro c _ hnone
      rw [hpids]
      exact hnone
    · intro u c status hu
      rw [hpids]
      exact h.reapedOnce.removed u c status hu

/-- `kproc_create` with an identifier from ahead. -/
theorem kproc (h : s.Ids) {pid : Nat} {pids : PidAllocator} (hlow : s.pids.next ≤ pid)
    (hlt : pid < tidFirst) (hnext : pids.next = pid + 1)
    (hfresh : (s.withKproc pid pids).Fresh) : (s.withKproc pid pids).Ids := by
  have hne := h.fresh.pid_ne hlow
  have hnone : ∀ c, s.Public c → s.allproc (s.procs c).pid = none →
      (s.withKproc pid pids).allproc (s.procs c).pid = none := by
    intro c hc hnone
    rw [allproc_withKproc, update_of_ne (hne c hc.1)]
    exact hnone
  constructor
  case fresh => exact hfresh
  case tids =>
    have hraise : { s with pids := pids, kernel := s.kernel ++ [s.nextProc] }.Tids := by
      refine h.tids.congr rfl le_rfl ?_ rfl (fun _ _ => rfl) (fun _ _ => rfl) (fun _ _ hu => hu)
        h.tids.counts
      rw [hnext]
      exact hlt
    have hproc : (s.newKproc pid pids).Tids := hraise.newProc hlt hne
    exact hproc.congr rfl le_rfl hproc.pids_le rfl (fun _ _ => rfl) (fun _ _ => rfl)
      (fun _ _ hu => hu) hproc.counts
  case led =>
    have hle : s.pids.next ≤ pids.next := by
      rw [hnext]
      exact Nat.le_succ_of_le hlow
    refine h.led.congr hle ?_ (fun _ _ hu => hu)
    intro p hp
    rcases Nat.lt_succ_iff_lt_or_eq.mp hp with hp | rfl
    · rw [procs_withKproc (s := s) hp]
      exact ⟨(h.led.pgid_lt p hp).trans_le hle, (h.led.sid_lt p hp).trans_le hle⟩
    · rw [last_withKproc]
      change pid < pids.next ∧ pid < pids.next
      rw [hnext]
      exact ⟨Nat.lt_succ_self pid, Nat.lt_succ_self pid⟩
  case reapedOnce =>
    refine h.reapedOnce.congr (fun _ hc => ⟨Nat.lt_succ_of_lt hc.1, hc.2⟩) ?_
      (fun _ _ hu => hu) ?_ rfl
    · intro c hc hgone
      rw [procs_withKproc hc.1]
      exact hnone c hc hgone
    intro u c status hu
    have hc := h.fresh.known u c (by
      change s.calls u = .reapFree c status at hu
      rw [hu]
      exact (.head _))
    rw [procs_withKproc hc.1]
    exact hnone c hc (h.reapedOnce.removed u c status hu)

/-- Identifiers stay unique, and so does who reaps a child. -/
theorem step {op : ProcOp} (h : s.Ids) (hdistinct : s.Distinct op)
    (hstep : s.step op = .ok s') : s'.Ids := by
  have hfresh := h.fresh.step hdistinct.unwrapped hstep
  cases stepped_of_step hstep with
  | @enter t e ht hruns hidle => exact h.enter ht hruns e
  | next hnext => exact h.next hdistinct hnext
  | subreaper | signal => exact h.setProc rfl rfl rfl rfl
  | kproc hkproc =>
    obtain ⟨pid, hpid, hlow, hlt, -⟩ := allocate_spec hdistinct (by decide)
    dsimp only [ProcSystem.step] at hkproc
    rw [hpid] at hkproc
    cases hkproc
    exact h.kproc hlow hlt rfl hfresh

end Ids

theorem ids_boot : boot.Ids := by
  constructor
  case fresh => exact fresh_boot
  case tids =>
    constructor
    case pids_le | first_le | le_max => decide
    case low => exact fun _ _ _ => ⟨0, Nat.zero_lt_one, rfl⟩
    case high =>
      intro t ht hhigh
      have hinit : ¬tidFirst ≤ pidInit := by decide
      exact absurd hhigh hinit
    case apart =>
      intro t ht u hu _
      rw [lt_one_iff.mp ht, lt_one_iff.mp hu]
    case taken | counts => exact nofun
  case led =>
    have hinit : pidInit < new.next := by decide
    exact ⟨fun _ _ => hinit, fun _ _ => hinit, nofun⟩
  case reapedOnce =>
    constructor
    case once | removed | gone => exact nofun
    case nodup => exact nodup_nil

/-- As long as identifiers are not used up and no two threads reap one child: no two processes
in the table have the same identifier, and no two threads that are alive; an identifier that is
handed out names no process in the table, and no group or session of one; and a wait that reaps
returns the exit of a child once. -/
theorem ids_of_visits (h : Visits step Distinct boot s) :
    (∀ pid p pid' q, s.allproc pid = some p → s.allproc pid' = some q →
      (s.procs p).pid = (s.procs q).pid → p = q) ∧
    (∀ t < s.nextThread, ∀ u < s.nextThread, (s.threads t).dead = false →
      (s.threads u).dead = false → (s.threads t).tid = (s.threads u).tid → t = u) ∧
    (∀ t, s.calls t = .cloneAllocate → s.Distinct (.next t) →
      ∃ pid s', s.step (.next t) = .ok s' ∧ s'.calls t = .cloneInherit pid ∧
        ∀ pid' p, s.allproc pid' = some p →
          pid ≠ (s.procs p).pid ∧ pid ≠ (s.procs p).getPgid ∧ pid ≠ (s.procs p).getSid) ∧
    (s.returned.map Prod.fst).Nodup := by
  have hids : s.Ids :=
    h.invariant (I := Ids) ids_boot fun _ _ _ hs hdistinct hstep => hs.step hdistinct hstep
  have hfresh := hids.fresh
  refine ⟨?_, fun t ht u hu _ _ => hids.tids.apart t ht u hu, ?_, hids.reapedOnce.nodup⟩
  · intro pid p pid' q hp hq hpq
    exact hfresh.apart p (hfresh.table pid p hp).1.1 q (hfresh.table pid' q hq).1.1 hpq
  intro t hcall hdistinct
  dsimp only [Distinct] at hdistinct
  rw [hcall] at hdistinct
  obtain ⟨pid, hpid, hlow, -⟩ := allocate_spec hdistinct (by decide)
  have hstep : s.step (.next t) = .ok ({ s with
      pids := ⟨pid + 1, Function.update s.pids.bits pid true⟩ }.setCall t
        (.cloneInherit pid)) := by
    dsimp only [step, nextSection]
    rw [hcall]
    dsimp only [look, act]
    rw [hpid]
  refine ⟨pid, _, hstep, calls_setCall_self, ?_⟩
  · intro pid' p hp
    have hlt := (hfresh.table pid' p hp).1.1
    exact ⟨((hfresh.pid_lt p hlt).trans_le hlow).ne', ((hids.led.pgid_lt p hlt).trans_le hlow).ne',
      ((hids.led.sid_lt p hlt).trans_le hlow).ne'⟩

/-- Init clones a process and a thread. The child exits, and is waited for. -/
theorem ids_reaped : ∃ s, Visits step Distinct boot s ∧
    s.returned = [(1, .exited 7)] ∧ s.allproc 2 = none ∧ (s.threads 2).tid = 10000 ∧
      (s.returned.map Prod.fst).Nodup := by
  obtain ⟨s, hs, hreturned, hnone, htid⟩ := exists_visits step Distinct boot
    [ProcOp.call 0 .cloneProc 4, ProcOp.call 0 .cloneThread 2, ProcOp.call 1 (.exit (.exited 7)) 6,
      ProcOp.call 0 (.wait ⟨.all, false, true, false, false, false⟩) 11].flatten
    (fun s => s.returned = [(1, .exited 7)] ∧ s.allproc 2 = none ∧ (s.threads 2).tid = 10000)
    (by decide)
  exact ⟨s, hs, hreturned, hnone, htid, (ids_of_visits hs).2.2.2⟩

/-- Two threads of init wait for one child. Both find it a zombie before either takes it out of
the table, and both return its status. -/
theorem not_reapedOnce : (Base.run step boot
      [ProcOp.call 0 .cloneProc 4, ProcOp.call 0 .cloneThread 2,
        ProcOp.call 1 (.exit (.exited 7)) 6,
        ProcOp.call 0 (.wait ⟨.all, false, true, false, false, false⟩) 7,
        ProcOp.call 2 (.wait ⟨.all, false, true, false, false, false⟩) 7,
        List.replicate 4 (.next 0), List.replicate 4 (.next 2)].flatten).map
      (fun s => (s.returned, s.calls 0, s.calls 2)) =
        .ok ([(1, .exited 7), (1, .exited 7)], .idle, .idle) := by
  decide +kernel

end ProcSystem

end Petra.Proc
