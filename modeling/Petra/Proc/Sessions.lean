import Petra.Proc.Groups

/-! # Groups within sessions

A process joins a group when the process that the identifier of the group names is in its own
session. The session stays that of the group as long as this process does not start another.
-/

namespace Petra.Proc

open Base ProcSystem

namespace ProcSystem

variable {s s' : ProcSystem} {t u p q c g : Nat} {call call₀ : Call}

/-- The process that the identifier of the group names is in the session. -/
def InSession (s : ProcSystem) (g sid : Nat) : Prop :=
  ∃ l < s.nextProc, (s.procs l).pid = g ∧ (s.procs l).getSid = sid

/-- Nobody is in the group of process `p`, or on the way to it. -/
structure Alone (s : ProcSystem) (p : Nat) : Prop where
  own : (s.procs p).getPgid ≠ (s.procs p).pid
  others : ∀ q, s.Member q → q ≠ p → (s.procs q).getPgid ≠ (s.procs p).pid
  joining : ∀ u, (s.calls u).names ≠ some (s.procs p).pid

/-- What a call has found out about groups. -/
def Checked (s : ProcSystem) (t : Nat) : Call → Prop
  | .pgLeaderSid _ g l => (s.procs l).pid = g
  | .pgOwnSid _ g sid => s.InSession g sid
  | .pgOld q g | .pgWrite q g _ => s.InSession g (s.procs q).getSid
  | .sidOldPgid | .sidOldSid _ | .sidWrite _ _ => s.Alone (s.self t)
  | _ => True

/-- A group lies in the session of the process that its identifier names. -/
structure Sessions (s : ProcSystem) : Prop where
  led : ∀ p, s.Member p → s.InSession (s.procs p).getPgid (s.procs p).getSid
  checked : ∀ t, s.Checked t (s.calls t)

theorem Member.lt (h : s.Member p) (hfresh : s.Fresh) : p < s.nextProc := by
  rcases h with hlisted | ⟨u, -, hu⟩
  · exact (hfresh.table _ p hlisted).1.1
  · exact (hfresh.hidden u p hu).1

theorem alone_of_leads (h : s.Checked u call) (hleads : call.Leads) : s.Alone (s.self u) := by
  cases call
  case sidOldPgid | sidOldSid | sidWrite => exact h
  all_goals exact hleads.elim

theorem changes_of_leads (hleads : (s.calls u).Leads) : s.changes u = some (s.self u) := by
  rw [changes]
  cases hcall : s.calls u <;> rw [hcall] at hleads
  case sidOldPgid | sidOldSid | sidWrite => rfl
  all_goals exact hleads.elim

theorem InSession.congr {sid : Nat} (h : s.InSession g sid) (hle : s.nextProc ≤ s'.nextProc)
    (hprocs : ∀ p < s.nextProc, (s'.procs p).pid = (s.procs p).pid ∧
      (s'.procs p).getSid = (s.procs p).getSid) : s'.InSession g sid := by
  obtain ⟨l, hl, hpid, hsid⟩ := h
  obtain ⟨hpid', hsid'⟩ := hprocs l hl
  exact ⟨l, hl.trans_le hle, hpid'.trans hpid, hsid'.trans hsid⟩

/-- A call keeps what it has found out where sessions stay, and where nobody gets into the group
of a process that starts a session. -/
theorem Checked.congr (h : s.Checked u call) (hself : s'.self u = s.self u)
    (hin : ∀ g sid, call.names = some g → s.InSession g sid → s'.InSession g sid)
    (hpids : ∀ p ∈ call.procs, (s'.procs p).pid = (s.procs p).pid)
    (hsids : ∀ p ∈ call.procs, call.changes (s.self u) = some p →
      (s'.procs p).getSid = (s.procs p).getSid)
    (halone : call.Leads → s.Alone (s.self u) → s'.Alone (s.self u)) : s'.Checked u call := by
  cases call <;> dsimp only [Checked] at h ⊢
  case pgLeaderSid q g l =>
    rw [hpids l (.tail _ List.mem_cons_self)]
    exact h
  case pgOwnSid q g sid => exact hin g sid rfl h
  case pgOld q g | pgWrite q g old =>
    rw [hsids q (.head _) rfl]
    exact hin g _ rfl h
  case sidOldPgid | sidOldSid old | sidWrite a b =>
    rw [hself]
    exact halone trivial h

namespace Sessions

theorem look_names (hlook : s.look t call₀ = some call) (hg : call.names = some g) :
    call₀.names = some g ∨ ∃ q, call₀ = .pgLeader q g := by
  revert hlook
  fun_cases look s t call₀ <;> intro hlook <;>
    grind [Call.names, Option.map_eq_some_iff]

theorem names_act (hact : s.act t call₀ = some s') : (s'.calls t).names ≠ some g := by
  revert hact
  fun_cases act s t call₀ <;> intro hact <;> cases hact <;> rw [calls_setCall_self]
  all_goals first
    | (intro hg; cases hg)
    | (split <;> simp [Call.names])

theorem checked_act (hact : s.act t call₀ = some s') : s.Checked t (s'.calls t) := by
  revert hact
  fun_cases act s t call₀ <;> intro hact <;> cases hact <;> rw [calls_setCall_self]
  all_goals first
    | trivial
    | (split <;> trivial)

theorem names_of_leads (h : call.Leads) : call.names = none := by
  cases call
  case sidOldPgid | sidOldSid | sidWrite => rfl
  all_goals exact h.elim

/-- Every session stays. A member is as it was, or is in the session of its group and in the
group of nobody who starts a session. -/
theorem of_frame (h : s.Sessions) (hfresh : s.Fresh) (hle : s.nextProc ≤ s'.nextProc)
    (hprocs : ∀ p < s.nextProc, (s'.procs p).pid = (s.procs p).pid ∧
      (s'.procs p).getSid = (s.procs p).getSid) (hself : ∀ u < s.nextThread, s'.self u = s.self u)
    (hbusy : ∀ u, s'.calls u ≠ .idle → u < s.nextThread ∧ s.self u < s.nextProc ∧
      ∀ p ∈ (s'.calls u).procs, p < s.nextProc) (hchecked : ∀ u, s.Checked u (s'.calls u))
    (hnames : ∀ v g, (s'.calls v).names = some g → (s.calls v).names = some g ∨
      ∀ u, (s'.calls u).Leads → (s.procs (s.self u)).pid ≠ g) (hown : ∀ u, (s'.calls u).Leads →
      (s'.procs (s.self u)).getPgid = (s.procs (s.self u)).getPgid) (hmember : ∀ q, s'.Member q →
      (s.Member q ∧ (s'.procs q).getPgid = (s.procs q).getPgid) ∨
      (s'.InSession (s'.procs q).getPgid (s'.procs q).getSid ∧
        ∀ u, (s'.calls u).Leads → (s'.procs q).getPgid ≠ (s.procs (s.self u)).pid)) :
    s'.Sessions := by
  have hin : ∀ g sid, s.InSession g sid → s'.InSession g sid := fun g sid h => h.congr hle hprocs
  constructor
  case led =>
    intro q hq
    rcases hmember q hq with ⟨hold, hpgid⟩ | ⟨hnew, -⟩
    · rw [hpgid, (hprocs q (hold.lt hfresh)).2]
      exact hin _ _ (h.led q hold)
    · exact hnew
  case checked =>
    intro u
    by_cases hidle : s'.calls u = .idle
    · rw [hidle]
      trivial
    obtain ⟨hu, hselfu, hknown⟩ := hbusy u hidle
    refine (hchecked u).congr (hself u hu) (fun g sid _ => hin g sid)
      (fun p hp => (hprocs p (hknown p hp)).1) (fun p hp _ => (hprocs p (hknown p hp)).2) ?_
    intro hleads halone
    have hpid := (hprocs _ hselfu).1
    constructor
    case own =>
      rw [hown u hleads, hpid]
      exact halone.own
    case others =>
      intro q hq hne
      rw [hpid]
      rcases hmember q hq with ⟨hold, hpgid⟩ | ⟨-, hnew⟩
      · rw [hpgid]
        exact halone.others q hold hne
      · exact hnew u hleads
    case joining =>
      intro v hv
      rw [hpid] at hv
      rcases hnames v _ hv with hv' | hfree
      · exact halone.joining v hv'
      · exact hfree u hleads rfl

theorem lt_of_leads (hfresh : s.Fresh) (hleads : (s.calls u).Leads) : u < s.nextThread :=
  lt_of_changes hfresh (changes_of_leads hleads)

theorem self_lt_of_leads (hfresh : s.Fresh) (hleads : (s.calls u).Leads) :
    s.self u < s.nextProc := by
  refine (hfresh.busy u ?_).2.1
  intro hidle
  rw [hidle] at hleads
  exact hleads

theorem member_of_setCall (hsettled : call.Settled) (hq : (s.setCall t call).Member q) :
    s.Member q := by
  rcases hq with hlisted | ⟨u, hu, hcall⟩
  · exact .inl hlisted
  by_cases hut : u = t
  · rw [hut, calls_setCall_self] at hcall
    rw [hcall] at hsettled
    exact hsettled.elim
  · rw [calls_setCall_of_ne hut] at hcall
    exact .inr ⟨u, hu, hcall⟩

/-- Only the call of one thread goes on. -/
theorem setCall (h : s.Sessions) (hfresh : s.Fresh) (hfresh' : (s.setCall t call).Fresh)
    (hsettled : call.Settled) (hchecked : s.Checked t call)
    (hnames : ∀ g, call.names = some g → (s.calls t).names = some g ∨
      ∀ u, (s.calls u).Leads → (s.procs (s.self u)).pid ≠ g) : (s.setCall t call).Sessions := by
  refine h.of_frame hfresh le_rfl (fun _ _ => ⟨rfl, rfl⟩) (fun _ _ => rfl) ?_ ?_ ?_
    (fun _ _ => rfl) (fun q hq => .inl ⟨member_of_setCall hsettled hq, rfl⟩)
  · intro u hu
    exact ⟨(hfresh'.busy u hu).1, (hfresh'.busy u hu).2.1, fun p hp => (hfresh'.known u p hp).1⟩
  · exact forall_setCall hchecked fun u _ => h.checked u
  intro v g hg
  by_cases hvt : v = t
  · rw [hvt, calls_setCall_self] at hg
    rcases hnames g hg with hold | hfree
    · rw [hvt]
      exact .inl hold
    refine .inr fun u hu => ?_
    by_cases hut : u = t
    · rw [hut, calls_setCall_self] at hu
      rw [names_of_leads hu] at hg
      cases hg
    · rw [calls_setCall_of_ne hut] at hu
      exact hfree u hu
  · rw [calls_setCall_of_ne hvt] at hg
    exact .inl hg

theorem look_other (hlook : s.look t call₀ = some call) (hchanges : call₀.changes 0 = none)
    (hcheck : call₀ ≠ .sidCheck) : s.Checked t call := by
  revert hlook
  fun_cases look s t call₀ <;> intro hlook <;>
    grind [Checked, Call.changes, Option.map_eq_some_iff]

section

variable (h : s.Sessions) (hfresh : s.Fresh) (horderly : s.Orderly (.next t))
  (hlook : s.look t (s.calls t) = some call)

include h hfresh horderly hlook

theorem look_checked : s.Checked t call := by
  have hold := h.checked t
  have hknown := hfresh.known t
  dsimp only [Orderly] at horderly
  cases hcall : s.calls t <;> rw [hcall] at hlook hold hknown horderly
  case pgParent q g =>
    dsimp only [look] at hlook
    split at hlook
    · cases hlook
      trivial
    split at hlook
    · cases hlook
      trivial
    next hg =>
      cases hlook
      have hq := hknown q (.head _)
      exact ⟨q, hq.1, (not_not.mp hg).symm, rfl⟩
  case pgFind q g =>
    dsimp only [look] at hlook
    split at hlook
    · cases hlook
      trivial
    next l hl =>
      cases hlook
      exact (hfresh.table g l hl).2
  case pgLeaderSid q g l =>
    cases hlook
    have hl := hknown l (.tail _ List.mem_cons_self)
    exact ⟨l, hl.1, hold, rfl⟩
  case pgOwnSid q g sid =>
    dsimp only [look] at hlook
    split at hlook
    · cases hlook
      trivial
    next hsid =>
      cases hlook
      rw [not_not] at hsid
      rw [hsid] at hold
      exact hold
  case pgOld q g =>
    cases hlook
    exact hold
  case sidCheck =>
    dsimp only [look] at hlook
    split at hlook
    · cases hlook
      trivial
    next hown =>
      cases hlook
      obtain ⟨-, -, hnames, hothers⟩ := horderly
      constructor
      case own => exact hown
      case others => exact fun q hq => hothers q (hq.lt hfresh) hq
      case joining =>
        intro u hu
        refine hnames u (hfresh.busy u ?_).1 hu
        intro hidle
        rw [hidle] at hu
        cases hu
  case sidOldPgid | sidOldSid old =>
    cases hlook
    exact hold
  case pgWrite | pgUpdate | sidWrite | sidUpdate => cases hlook
  all_goals exact look_other hlook rfl nofun

theorem look : (s.setCall t call).Sessions := by
  obtain ⟨hsettled, hknown⟩ := hfresh.look_known hlook
  have hbusy : s.calls t ≠ .idle := by
    intro hidle
    rw [hidle] at hlook
    cases hlook
  refine h.setCall hfresh (hfresh.advance hbusy hsettled hknown) hsettled
    (h.look_checked hfresh horderly hlook) ?_
  intro g hg
  rcases look_names hlook hg with hold | ⟨q, hcall⟩
  · exact .inl hold
  · dsimp only [Orderly] at horderly
    rw [hcall] at horderly
    exact .inr fun u hu => horderly.2.2 u (lt_of_leads hfresh hu) hu

end

/-- Whoever is on the way to a session after an action was so before. -/
theorem leads_act (hact : s.act t call₀ = some s') : ¬(s'.calls t).Leads := by
  revert hact
  fun_cases act s t call₀ <;> intro hact <;> cases hact <;> rw [calls_setCall_self]
  all_goals first
    | exact id
    | (split <;> exact id)

/-- An action that writes no session. -/
theorem act_of_frame (h : s.Sessions) (hfresh : s.Fresh) (hact : s.act t (s.calls t) = some s')
    (hsid : ∀ oldPgid oldSid, s.calls t ≠ .sidWrite oldPgid oldSid)
    (hown : ∀ u ≠ t, (s.calls u).Leads →
      (s'.procs (s.self u)).getPgid = (s.procs (s.self u)).getPgid) (hmember : ∀ q, s'.Member q →
      (s.Member q ∧ (s'.procs q).getPgid = (s.procs q).getPgid) ∨
      (s'.InSession (s'.procs q).getPgid (s'.procs q).getSid ∧ ∀ u ≠ t, (s.calls u).Leads →
          (s'.procs q).getPgid ≠ (s.procs (s.self u)).pid)) : s'.Sessions := by
  obtain ⟨ht, hself⟩ := hfresh.busy t (busy_of_act hact)
  have hold : ∀ u, (s'.calls u).Leads → u ≠ t ∧ (s.calls u).Leads := by
    intro u hleads
    by_cases hut : u = t
    · rw [hut] at hleads
      exact absurd hleads (leads_act hact)
    · rw [(act_frame hact).calls hut] at hleads
      exact ⟨hut, hleads⟩
  refine h.of_frame hfresh ((act_frame hact).nextProc_le)
    (fun p hp => ⟨pid_act hact hp, getSid_act hact hp hsid⟩) (fun _ => self_act hact) ?_ ?_
    ?_ (fun u hu => hown u (hold u hu).1 (hold u hu).2) ?_
  · intro u hu
    by_cases hut : u = t
    · subst hut
      refine ⟨ht, hself.1, ?_⟩
      intro p hp
      rcases procs_act hact hp with hold' | hinsert
      · exact (hfresh.known u p hold').1
      · exact (hfresh.hidden u p hinsert).1
    · rw [(act_frame hact).calls hut] at hu ⊢
      exact ⟨(hfresh.busy u hu).1, (hfresh.busy u hu).2.1, fun p hp => (hfresh.known u p hp).1⟩
  · exact forall_act hact (checked_act hact) fun u _ => h.checked u
  · exact fun v g hg => .inl (held_act hact (fun _ hg => absurd hg (names_act hact)) v g hg)
  · intro q hq
    rcases hmember q hq with hold' | ⟨hin, hnew⟩
    · exact .inl hold'
    · exact .inr ⟨hin, fun u hu => hnew u (hold u hu).1 (hold u hu).2⟩

/-- No section but the making of a process adds a member. -/
theorem member_act (hfresh : s.Fresh) (hfresh' : s'.Fresh)
    (hact : s.act t (s.calls t) = some s') (hinherit : ∀ pid, s.calls t ≠ .cloneInherit pid)
    (hq : s'.Member q) : s.Member q := by
  have hlt : q < s.nextProc := by
    rw [← (act_frame hact).nextProc hinherit]
    exact hq.lt hfresh'
  rcases hq with hlisted | ⟨u, -, hu⟩
  · rw [Listed, pid_act hact hlt] at hlisted
    cases hcall : s.calls t
    case cloneInsert c =>
      rw [hcall] at hact
      cases hact
      have hd := hfresh.hidden t c hcall
      by_cases hpid : (s.procs q).pid = (s.procs c).pid
      · rw [hfresh.apart q hlt c hd.1 hpid]
        exact .inr ⟨t, (hfresh.busy t (by simp [hcall])).1, hcall⟩
      · exact .inl ((Function.update_of_ne hpid ..).symm.trans hlisted)
    case reapRemove c status =>
      rw [hcall] at hact
      cases hact
      change (s.allprocRemove (s.procs c).pid).allproc (s.procs q).pid = some q at hlisted
      by_cases hpid : (s.procs q).pid = (s.procs c).pid
      · rw [hpid, allproc_allprocRemove] at hlisted
        cases hlisted
      · rw [allproc_allprocRemove_of_ne hpid] at hlisted
        exact .inl hlisted
    all_goals
      rw [hcall] at hact
      rw [(act_frame hact).allproc (by simp) (by simp)] at hlisted
      exact .inl hlisted
  · by_cases hut : u = t
    · rw [hut] at hu
      obtain ⟨⟨pid, hpid⟩, -⟩ := (act_trail hact).cloneInsert hu
      exact absurd hpid (hinherit pid)
    · rw [(act_frame hact).calls hut] at hu
      exact .inr ⟨u, (hfresh.busy u (by simp [hu])).1, hu⟩

variable (h : s.Sessions) (hfresh : s.Fresh) (hfresh' : s'.Fresh)
  (hact : s.act t (s.calls t) = some s')

include h hfresh hfresh' hact

/-- A child is in the group and the session of its parent. -/
theorem inherit (hlisted : s.Listed (s.self t)) {pid : Nat}
    (hcall : s.calls t = .cloneInherit pid) : s'.Sessions := by
  have hpgid : ∀ p < s.nextProc, (s'.procs p).getPgid = (s.procs p).getPgid := by
    intro p hp
    exact getPgid_act hact hp (by simp [hcall]) (by simp [hcall])
  have hchild : s'.nextProc = s.nextProc + 1 ∧
      (s'.procs s.nextProc).getPgid = (s.procs (s.self t)).getPgid ∧
      (s'.procs s.nextProc).getSid = (s.procs (s.self t)).getSid := by
    rw [hcall] at hact
    cases hact
    dsimp only [ProcSystem.setCall, ProcSystem.newProc]
    rw [Function.update_self]
    exact ⟨rfl, rfl, rfl⟩
  obtain ⟨hnext, hchildPgid, hchildSid⟩ := hchild
  refine h.act_of_frame hfresh hact (by simp [hcall])
    (fun u _ hleads => hpgid _ (self_lt_of_leads hfresh hleads)) ?_
  intro q hq
  have hlt := hq.lt hfresh'
  rw [hnext] at hlt
  rcases Nat.lt_succ_iff_lt_or_eq.mp hlt with hlt | rfl
  · refine .inl ⟨?_, hpgid q hlt⟩
    rcases hq with hq | ⟨u, -, hu⟩
    · rw [Listed, pid_act hact hlt, (act_frame hact).allproc (by simp [hcall])
        (by simp [hcall])] at hq
      exact .inl hq
    · by_cases hut : u = t
      · rw [hut] at hu
        exact absurd ((act_trail hact).cloneInsert hu).2 hlt.ne
      · rw [(act_frame hact).calls hut] at hu
        exact .inr ⟨u, (hfresh.busy u (by simp [hu])).1, hu⟩
  · rw [hchildPgid, hchildSid]
    refine .inr ⟨?_, ?_⟩
    · refine (h.led _ (.inl hlisted)).congr (act_frame hact).nextProc_le ?_
      exact fun p hp => ⟨pid_act hact hp, getSid_act hact hp (by simp [hcall])⟩
    · intro u _ hleads
      have halone := alone_of_leads (h.checked u) hleads
      by_cases hsame : s.self t = s.self u
      · rw [hsame]
        exact halone.own
      · exact halone.others _ (.inl hlisted) hsame

/-- A process is moved to a group of its session. -/
theorem write (hexclusive : s.Exclusive) {old : Nat} (hcall : s.calls t = .pgWrite q g old) :
    s'.Sessions := by
  have hq : s.changes t = some q := changes_eq hcall
  have hin : s.InSession g (s.procs q).getSid := by
    have hchecked := h.checked t
    rw [hcall] at hchecked
    exact hchecked
  have hprocs : ∀ p ≠ q, s'.procs p = s.procs p := by
    intro p hpq
    rw [hcall] at hact
    cases hact
    exact procs_setProc_of_ne hpq
  have hproc : s'.procs q = { s.procs q with pgid := some g } := by
    rw [hcall] at hact
    cases hact
    exact procs_setProc_self
  -- Whoever is on the way to a session is another process, and `g` is not its group.
  have hleads : ∀ u ≠ t, (s.calls u).Leads → s.self u ≠ q ∧ g ≠ (s.procs (s.self u)).pid := by
    intro u hut hleads
    constructor
    · intro hself
      have hchanges := changes_of_leads hleads
      rw [hself] at hchanges
      exact hut (hexclusive.one u t q hchanges hq)
    · rintro rfl
      refine (alone_of_leads (h.checked u) hleads).joining t ?_
      rw [hcall]
      rfl
  have hsids : ∀ p < s.nextProc, (s'.procs p).getSid = (s.procs p).getSid :=
    fun p hp => getSid_act hact hp (hcall ▸ nofun)
  refine h.act_of_frame hfresh hact (hcall ▸ nofun) ?_ ?_
  · intro u hut hu
    rw [hprocs _ (hleads u hut hu).1]
  intro p hp
  have hold := member_act hfresh hfresh' hact (hcall ▸ nofun) hp
  by_cases hpq : p = q
  · subst hpq
    have hpgid : (s'.procs p).getPgid = g := by
      rw [hproc]
      rfl
    rw [hpgid]
    refine .inr ⟨?_, fun u hut hu => (hleads u hut hu).2⟩
    rw [hsids p (hold.lt hfresh)]
    exact hin.congr (act_frame hact).nextProc_le fun p hp => ⟨pid_act hact hp, hsids p hp⟩
  · rw [hprocs p hpq]
    exact .inl ⟨hold, rfl⟩

/-- A process that is alone in its group starts a session. -/
theorem startSession (hexclusive : s.Exclusive) {oldPgid oldSid : Nat}
    (hcall : s.calls t = .sidWrite oldPgid oldSid) : s'.Sessions := by
  have hself := (hfresh.busy t (hcall ▸ nofun)).2
  have hp : s.changes t = some (s.self t) := changes_eq hcall
  have halone : s.Alone (s.self t) := by
    have hchecked := h.checked t
    rw [hcall] at hchecked
    exact hchecked
  have hprocs : ∀ q ≠ s.self t, s'.procs q = s.procs q := by
    intro q hq
    rw [hcall] at hact
    cases hact
    exact procs_setProc_of_ne hq
  have hproc : s'.procs (s.self t) = { s.procs (s.self t) with
      sid := some (s.procs (s.self t)).pid, pgid := some (s.procs (s.self t)).pid } := by
    rw [hcall] at hact
    cases hact
    exact procs_setProc_self
  have hnext : s'.nextProc = s.nextProc := (act_frame hact).nextProc (hcall ▸ nofun)
  -- A session of another group is that of another process.
  have hin : ∀ g sid, g ≠ (s.procs (s.self t)).pid → s.InSession g sid → s'.InSession g sid := by
    rintro g sid hne ⟨l, hl, hpid, hsid⟩
    have hls : l ≠ s.self t := by
      rintro rfl
      exact hne hpid.symm
    refine ⟨l, ?_, ?_, ?_⟩
    · rw [hnext]
      exact hl
    · rw [hprocs l hls]
      exact hpid
    · rw [hprocs l hls]
      exact hsid
  constructor
  case led =>
    intro q hq
    have hold := member_act hfresh hfresh' hact (hcall ▸ nofun) hq
    by_cases hqs : q = s.self t
    · rw [hqs]
      refine ⟨s.self t, ?_, ?_, ?_⟩
      · rw [hnext]
        exact hself.1
      · rw [hproc]
        rfl
      · rw [hproc]
    · rw [hprocs q hqs]
      exact hin _ _ (halone.others q hold hqs) (h.led q hold)
  case checked =>
    intro u
    by_cases hut : u = t
    · rw [hut]
      rw [hcall] at hact
      cases hact
      rw [calls_setCall_self]
      trivial
    rw [(act_frame hact).calls hut]
    by_cases hidle : s.calls u = .idle
    · rw [hidle]
      trivial
    obtain ⟨hu, hselfu⟩ := hfresh.busy u hidle
    have hother : ∀ q, s.changes u = some q → q ≠ s.self t := by
      rintro q hq rfl
      exact hut (hexclusive.one u t _ hq hp)
    refine (h.checked u).congr (self_act hact hu) ?_
      (fun q hq => pid_act hact (hfresh.known u q hq).1) ?_ ?_
    · intro g sid hg
      refine hin g sid ?_
      rintro rfl
      exact halone.joining u hg
    · intro q _ hq
      rw [hprocs q (hother q hq)]
    intro hleads halone'
    have hne := hother _ (changes_of_leads hleads)
    constructor
    case own =>
      rw [hprocs _ hne]
      exact halone'.own
    case others =>
      intro q hq hqu
      have hold := member_act hfresh hfresh' hact (hcall ▸ nofun) hq
      rw [hprocs _ hne]
      by_cases hqs : q = s.self t
      · rw [hqs, hproc]
        intro hpgid
        exact hne (hfresh.apart _ hself.1 _ hselfu.1 hpgid).symm
      · rw [hprocs q hqs]
        exact halone'.others q hold hqu
    case joining =>
      intro v hv
      rw [hprocs _ hne] at hv
      by_cases hvt : v = t
      · rw [hvt] at hv
        exact absurd hv (names_act hact)
      · rw [(act_frame hact).calls hvt] at hv
        exact halone'.joining v hv

theorem act (hexclusive : s.Exclusive) (horderly : s.Orderly (.next t)) : s'.Sessions := by
  dsimp only [Orderly] at horderly
  cases hcall : s.calls t
  case cloneInherit pid =>
    rw [hcall] at horderly
    exact h.inherit hfresh hfresh' hact horderly hcall
  case pgWrite q g old => exact h.write hfresh hfresh' hact hexclusive hcall
  case sidWrite oldPgid oldSid => exact h.startSession hfresh hfresh' hact hexclusive hcall
  all_goals
    have hpgid : ∀ p < s.nextProc, (s'.procs p).getPgid = (s.procs p).getPgid :=
      fun p hp => getPgid_act hact hp (hcall ▸ nofun) (hcall ▸ nofun)
    refine h.act_of_frame hfresh hact (hcall ▸ nofun)
      (fun u _ hleads => hpgid _ (self_lt_of_leads hfresh hleads)) fun q hq => ?_
    have hold := member_act hfresh hfresh' hact (hcall ▸ nofun) hq
    exact .inl ⟨hold, hpgid q (hold.lt hfresh)⟩

end Sessions

end ProcSystem

end Petra.Proc
