import Petra.Proc.Fresh

/-! # Groups and sessions

The table keeps, besides the processes, an index of groups and one of sessions. A process is
written first and the index later, from a value that was read before. While the calls that change
one process come one after the other, the index is right whenever no call is under way; and
while no process starts a session whose identifier others have as their group, a group lies in
one session.
-/

namespace Petra.Proc

open Base ProcSystem
open Function (update_self update_of_ne)

/-- The process whose group or session a call of `self` changes, from its first check on. -/
def Call.changes (self : Nat) : Call → Option Nat
  | .pgParent q _ | .pgFind q _ | .pgLeaderSid q _ _ | .pgOwnSid q _ _ | .pgOld q _
  | .pgWrite q _ _ | .pgUpdate q _ _ => some q
  | .sidOldPgid | .sidOldSid _ | .sidWrite _ _ | .sidUpdate _ _ => some self
  | _ => none

/-- The group that a call moves its target to. -/
def Call.names : Call → Option Nat
  | .pgParent _ g | .pgFind _ g | .pgLeaderSid _ g _ | .pgOwnSid _ g _ | .pgOld _ g
  | .pgWrite _ g _ => some g
  | _ => none

/-- The call is on its way to start a session. -/
def Call.Leads : Call → Prop
  | .sidOldPgid | .sidOldSid _ | .sidWrite _ _ => True
  | _ => False

instance : (call : Call) → Decidable call.Leads := fun call => by
  induction call using Call.casesOn <;> dsimp only [Call.Leads] <;> infer_instance

namespace ProcSystem

variable {s s' : ProcSystem} {t u p q c g : Nat} {call call₀ : Call}

def changes (s : ProcSystem) (u : Nat) : Option Nat := (s.calls u).changes (s.self u)

/-- The table has the process, or is about to get it. -/
def Member (s : ProcSystem) (p : Nat) : Prop :=
  s.Listed p ∨ ∃ u < s.nextThread, s.calls u = .cloneInsert p

instance (s : ProcSystem) (p : Nat) : Decidable (s.Member p) :=
  inferInstanceAs (Decidable (s.Listed p ∨ ∃ u < s.nextThread, s.calls u = .cloneInsert p))

/-- Identifiers are not used again. A process that clones is in the table. The group and the
session of a process are changed by one call at a time, while it is in the table. No call moves a
process into a group while the process of this identifier starts a session, and it does not start
one while others are in that group. -/
def Orderly (s : ProcSystem) : ProcOp → Prop
  | .next t =>
    match s.calls t with
    | .cloneAllocate => s.pids.FreeBelow pidMax
    | .cloneInherit _ => s.Listed (s.self t)
    | .pgLeader q g =>
      s.Listed q ∧ (∀ u < s.nextThread, s.changes u ≠ some q) ∧
        ∀ u < s.nextThread, (s.calls u).Leads → (s.procs (s.self u)).pid ≠ g
    | .sidCheck =>
      s.Listed (s.self t) ∧ (∀ u < s.nextThread, s.changes u ≠ some (s.self t)) ∧
        (∀ u < s.nextThread, (s.calls u).names ≠ some (s.procs (s.self t)).pid) ∧
        ∀ q < s.nextProc, s.Member q → q ≠ s.self t →
          (s.procs q).getPgid ≠ (s.procs (s.self t)).pid
    | .reapRemove c _ => ∀ u < s.nextThread, s.changes u ≠ some c
    | _ => True
  | .kproc => s.pids.FreeBelow pidMax
  | _ => True

instance (s : ProcSystem) : (op : ProcOp) → Decidable (s.Orderly op)
  | .next t => by
    dsimp only [Orderly]
    induction s.calls t using Call.casesOn <;> infer_instance
  | .kproc => inferInstanceAs (Decidable (s.pids.FreeBelow pidMax))
  | .enter .. | .subreaper .. | .signal .. => .isTrue trivial

theorem Orderly.unwrapped {op : ProcOp} (h : s.Orderly op) : s.Unwrapped op := by
  cases op with
  | next t =>
    intro hcall
    dsimp only [Orderly] at h
    rw [hcall] at h
    exact h
  | kproc => exact h
  | enter t e => trivial
  | subreaper t on => trivial
  | signal p stopStatus => trivial

theorem lt_of_changes (hfresh : s.Fresh) (hu : s.changes u = some q) : u < s.nextThread := by
  refine (hfresh.busy u ?_).1
  intro hidle
  rw [changes, hidle] at hu
  cases hu

/-! ## One change at a time -/

structure Exclusive (s : ProcSystem) : Prop where
  one : ∀ t u q, s.changes t = some q → s.changes u = some q → t = u
  listed : ∀ t q, s.changes t = some q → s.Listed q

namespace Exclusive

theorem look_changes (hlook : s.look t call₀ = some call) (hq : call.changes p = some q) :
    call₀.changes p = some q ∨ (∃ g, call₀ = .pgLeader q g) ∨ (call₀ = .sidCheck ∧ p = q) := by
  revert hlook
  fun_cases look s t call₀ <;> intro hlook <;>
    grind [Call.changes, Option.map_eq_some_iff]

theorem changes_act (hact : s.act t call₀ = some s') (hq : (s'.calls t).changes p = some q) :
    call₀.changes p = some q := by
  revert hact
  fun_cases act s t call₀ <;> intro hact <;> cases hact <;>
    rw [calls_setCall_self] at hq
  all_goals first
    | exact hq
    | (split at hq <;> cases hq)
    | cases hq

theorem changes_setCall_of_ne (hut : u ≠ t) : (s.setCall t call).changes u = s.changes u := by
  rw [changes, calls_setCall_of_ne hut]
  rfl

/-- A call goes on, and changes what it changed or what nobody changes. -/
theorem setCall (h : s.Exclusive)
    (hnew : ∀ q, call.changes (s.self t) = some q → s.changes t = some q ∨
      (s.Listed q ∧ ∀ u, s.changes u ≠ some q)) : (s.setCall t call).Exclusive := by
  have hcases : ∀ u q, (s.setCall t call).changes u = some q →
      s.changes u = some q ∨ (u = t ∧ s.Listed q ∧ ∀ v, s.changes v ≠ some q) := by
    intro u q hu
    by_cases hut : u = t
    · subst hut
      rw [changes, calls_setCall_self] at hu
      rcases hnew q hu with hold | hfree
      · exact .inl hold
      · exact .inr ⟨rfl, hfree⟩
    · rw [changes_setCall_of_ne hut] at hu
      exact .inl hu
  constructor
  case one =>
    intro u v q hu hv
    rcases hcases u q hu with hu' | ⟨rfl, -, hfree⟩
    · rcases hcases v q hv with hv' | ⟨-, -, hfree⟩
      · exact h.one u v q hu' hv'
      · exact absurd hu' (hfree u)
    · rcases hcases v q hv with hv' | ⟨rfl, -⟩
      · exact absurd hv' (hfree v)
      · rfl
  case listed =>
    intro u q hu
    rcases hcases u q hu with hu' | ⟨-, hlisted, -⟩
    · exact h.listed u q hu'
    · exact hlisted

theorem look (h : s.Exclusive) (hfresh : s.Fresh) (horderly : s.Orderly (.next t))
    (hlook : s.look t (s.calls t) = some call) : (s.setCall t call).Exclusive := by
  apply h.setCall
  intro q hq
  dsimp only [Orderly] at horderly
  rcases look_changes hlook hq with hold | ⟨g, hcall⟩ | ⟨hcall, rfl⟩
  · exact .inl hold
  all_goals
    rw [hcall] at horderly
    obtain ⟨hlisted, hfree, -⟩ := horderly
    exact .inr ⟨hlisted, fun u hu => hfree u (lt_of_changes hfresh hu) hu⟩

/-- A process stays in the table while a call changes it. -/
theorem listed_act (hfresh : s.Fresh) (horderly : s.Orderly (.next t))
    (hact : s.act t (s.calls t) = some s') (hq : s.changes u = some q) (hlisted : s.Listed q) :
    s'.Listed q := by
  have hpublic := (hfresh.table _ q hlisted).1
  dsimp only [Orderly] at horderly
  rw [Listed, pid_act hact hpublic.1]
  cases hcall : s.calls t <;> rw [hcall] at hact horderly
  case cloneInsert d =>
    cases hact
    have hd := hfresh.hidden t d hcall
    refine (update_of_ne ?_ ..).trans hlisted
    intro heq
    rw [Listed, heq, hd.2.1] at hlisted
    cases hlisted
  case reapRemove d status =>
    cases hact
    have hd := hfresh.known t d (hcall ▸ (.head _))
    refine (allproc_allprocRemove_of_ne ?_).trans hlisted
    intro heq
    rw [hfresh.apart q hpublic.1 d hd.1 heq] at hq
    exact horderly u (lt_of_changes hfresh hq) hq
  all_goals
    rw [(act_frame hact).allproc nofun nofun]
    exact hlisted

theorem act (h : s.Exclusive) (hfresh : s.Fresh) (horderly : s.Orderly (.next t))
    (hact : s.act t (s.calls t) = some s') : s'.Exclusive := by
  have hold : ∀ u q, s'.changes u = some q → s.changes u = some q := by
    intro u q hu
    have hbusy : s.calls u ≠ .idle := by
      intro hidle
      by_cases hut : u = t
      · rw [hut] at hidle
        rw [hidle] at hact
        cases hact
      · rw [changes, (act_frame hact).calls hut, hidle] at hu
        cases hu
    rw [changes, self_act hact (hfresh.busy u hbusy).1] at hu
    by_cases hut : u = t
    · subst hut
      exact changes_act hact hu
    · rwa [(act_frame hact).calls hut] at hu
  constructor
  case one => exact fun u v q hu hv => h.one u v q (hold u q hu) (hold v q hv)
  case listed =>
    intro u q hu
    have hu' := hold u q hu
    exact listed_act hfresh horderly hact hu' (h.listed u q hu')

end Exclusive

/-! ## The index -/

/-- The call of `t` has written process `p`, and is about to update the index. -/
def Pending (s : ProcSystem) (t p : Nat) : Prop :=
  match s.calls t with
  | .pgUpdate q _ _ => q = p
  | .sidUpdate _ _ => s.self t = p
  | _ => False

/-- What a call has read of the process it changes, and what the index has of it. -/
def Reads (s : ProcSystem) (t : Nat) (pgidOf sidOf : Nat → Nat) : Call → Prop
  | .pgWrite q _ old => old = (s.procs q).getPgid
  | .pgUpdate q g old =>
    old = pgidOf q ∧ g = (s.procs q).getPgid ∧ sidOf q = (s.procs q).getSid
  | .sidOldSid oldPgid => oldPgid = (s.procs (s.self t)).getPgid
  | .sidWrite oldPgid oldSid =>
    oldPgid = (s.procs (s.self t)).getPgid ∧ oldSid = (s.procs (s.self t)).getSid
  | .sidUpdate oldPgid oldSid =>
    oldPgid = pgidOf (s.self t) ∧ oldSid = sidOf (s.self t) ∧
      (s.procs (s.self t)).getPgid = (s.procs (s.self t)).pid ∧
      (s.procs (s.self t)).getSid = (s.procs (s.self t)).pid
  | _ => True

/-- The index has each process of the table under one group and one session, which are its own
unless a call is about to update them. -/
structure Indexed (s : ProcSystem) (pgidOf sidOf : Nat → Nat) : Prop where
  pgrp : ∀ g pid, s.pgrpMap.Has g pid ↔ ∃ p, s.allproc pid = some p ∧ g = pgidOf p
  session : ∀ sid pid, s.sessionMap.Has sid pid ↔ ∃ p, s.allproc pid = some p ∧ sid = sidOf p
  settled : ∀ p, s.Listed p → (∀ t, ¬s.Pending t p) →
    pgidOf p = (s.procs p).getPgid ∧ sidOf p = (s.procs p).getSid
  reads : ∀ t, s.Reads t pgidOf sidOf (s.calls t)

variable {pgidOf sidOf pgidOf' sidOf' : Nat → Nat}

theorem changes_eq (hcall : s.calls t = call) : s.changes t = call.changes (s.self t) := by
  rw [changes, hcall]

theorem changes_of_pending (h : s.Pending t p) : s.changes t = some p := by
  unfold Pending at h
  split at h
  next hcall => exact h ▸ changes_eq hcall
  next hcall => exact h ▸ changes_eq hcall
  next => exact h.elim

/-- A process has the identifier and the groups it had. -/
abbrev SameIds (p p' : Proc) : Prop :=
  p'.pid = p.pid ∧ p'.getPgid = p.getPgid ∧ p'.getSid = p.getSid

/-- A call reads nothing but the process it changes. -/
theorem Reads.congr (h : s.Reads u pgidOf sidOf call) (hself : s'.self u = s.self u)
    (hsame : ∀ p, call.changes (s.self u) = some p →
      SameIds (s.procs p) (s'.procs p) ∧ pgidOf' p = pgidOf p ∧ sidOf' p = sidOf p) :
    s'.Reads u pgidOf' sidOf' call := by
  cases call <;> dsimp only [Reads] at h ⊢
  case pgWrite q g old =>
    obtain ⟨⟨-, hpgid, -⟩, -⟩ := hsame q rfl
    rw [hpgid]
    exact h
  case pgUpdate q g old =>
    obtain ⟨⟨-, hpgid, hsid⟩, hp, hs⟩ := hsame q rfl
    rw [hpgid, hsid, hp, hs]
    exact h
  case sidOldSid oldPgid =>
    obtain ⟨⟨-, hpgid, -⟩, -⟩ := hsame _ rfl
    rw [hself, hpgid]
    exact h
  case sidWrite oldPgid oldSid =>
    obtain ⟨⟨-, hpgid, hsid⟩, -⟩ := hsame _ rfl
    rw [hself, hpgid, hsid]
    exact h
  case sidUpdate oldPgid oldSid =>
    obtain ⟨⟨hpid, hpgid, hsid⟩, hp, hs⟩ := hsame _ rfl
    rw [hself, hpid, hpgid, hsid, hp, hs]
    exact h

/-- A call that changes nothing has nothing to keep. -/
theorem reads_of_changes (h : ∀ self, call.changes self = none) : s.Reads t pgidOf sidOf call := by
  cases call
  case pgWrite | pgUpdate | sidOldSid | sidWrite | sidUpdate => cases h 0
  all_goals trivial

namespace Indexed

variable (h : s.Indexed pgidOf sidOf)

include h

/-- A process that nobody is about to update is in the index under its own groups. -/
theorem settled_of_changes (hexclusive : s.Exclusive) (hlisted : s.Listed q)
    (hq : s.changes t = some q) (hpending : ¬s.Pending t q) :
    pgidOf q = (s.procs q).getPgid ∧ sidOf q = (s.procs q).getSid := by
  refine h.settled q hlisted ?_
  intro u hu
  rw [hexclusive.one u t q (changes_of_pending hu) hq] at hu
  exact hpending hu

/-- The processes and the index are as they were. -/
theorem congr (hfresh : s.Fresh) (hpgrp : s'.pgrpMap = s.pgrpMap)
    (hsession : s'.sessionMap = s.sessionMap) (hallproc : s'.allproc = s.allproc)
    (hprocs : ∀ p < s.nextProc, SameIds (s.procs p) (s'.procs p))
    (hpending : ∀ u p, s.Pending u p → s'.Pending u p)
    (hreads : ∀ u, s'.Reads u pgidOf sidOf (s'.calls u)) : s'.Indexed pgidOf sidOf where
  pgrp := by
    rw [hpgrp, hallproc]
    exact h.pgrp
  session := by
    rw [hsession, hallproc]
    exact h.session
  settled p hp hfree := by
    rw [Listed, hallproc] at hp
    obtain ⟨⟨hlt, -⟩, hpid⟩ := hfresh.table _ p hp
    obtain ⟨hpid', hpgid, hsid⟩ := hprocs p hlt
    rw [hpid'] at hp
    rw [hpgid, hsid]
    exact h.settled p hp fun u hu => hfree u (hpending u p hu)
  reads := hreads

theorem reads_of_ne (hfresh : s.Fresh) (hcalls : s'.calls u = s.calls u)
    (hself : u < s.nextThread → s'.self u = s.self u)
    (hprocs : ∀ p < s.nextProc, s.changes u = some p →
      SameIds (s.procs p) (s'.procs p) ∧ pgidOf' p = pgidOf p ∧ sidOf' p = sidOf p)
    (hlisted : ∀ q, s.changes u = some q → s.Listed q) :
    s'.Reads u pgidOf' sidOf' (s'.calls u) := by
  rw [hcalls]
  by_cases hidle : s.calls u = .idle
  · rw [hidle]
    trivial
  · refine (h.reads u).congr (hself (hfresh.busy u hidle).1) ?_
    intro p hp
    exact hprocs p (hfresh.table _ p (hlisted p hp)).1.1 hp

theorem setCall (hfresh : s.Fresh) (hpending : ∀ p, ¬s.Pending t p)
    (hreads : s.Reads t pgidOf sidOf call) : (s.setCall t call).Indexed pgidOf sidOf := by
  refine h.congr hfresh rfl rfl rfl (fun _ _ => ⟨rfl, rfl, rfl⟩) ?_ ?_
  · intro u p hu
    have hut : u ≠ t := by
      rintro rfl
      exact hpending p hu
    unfold Pending at hu ⊢
    rw [calls_setCall_of_ne hut]
    exact hu
  · exact forall_setCall hreads fun u _ => h.reads u

omit h in
/-- A reading section reads what is there. -/
theorem look_reads (hlook : s.look t call₀ = some call)
    (hold : s.Reads t pgidOf sidOf call₀) : s.Reads t pgidOf sidOf call := by
  revert hlook
  fun_cases look s t call₀ <;> intro hlook <;>
    grind [Reads, Option.map_eq_some_iff]

theorem look (hfresh : s.Fresh) (hlook : s.look t (s.calls t) = some call) :
    (s.setCall t call).Indexed pgidOf sidOf := by
  refine h.setCall hfresh ?_ (look_reads hlook (h.reads t))
  intro p hp
  unfold Pending at hp
  split at hp
  next hcall =>
    rw [hcall] at hlook
    cases hlook
  next hcall =>
    rw [hcall] at hlook
    cases hlook
  next => exact hp

/-- The sections that change neither groups nor the table. -/
theorem quiet (hfresh : s.Fresh) (hexclusive : s.Exclusive) (hcall : s.calls t = call₀)
    (hact : s.act t call₀ = some s') (hchanges : ∀ self, call₀.changes self = none)
    (hinsert : ∀ c, call₀ ≠ .cloneInsert c) (hremove : ∀ c status, call₀ ≠ .reapRemove c status) :
    s'.Indexed pgidOf sidOf := by
  have hne : ∀ {call : Call}, call.changes 0 ≠ none → call₀ ≠ call := by
    rintro call hcall rfl
    exact hcall (hchanges 0)
  have hsid : ∀ oldPgid oldSid, call₀ ≠ .sidWrite oldPgid oldSid := fun _ _ => hne nofun
  have hsidUpdate : ∀ oldPgid oldSid, call₀ ≠ .sidUpdate oldPgid oldSid := fun _ _ => hne nofun
  have hprocs : ∀ p < s.nextProc, SameIds (s.procs p) (s'.procs p) :=
    fun p hp =>
      ⟨pid_act hact hp, getPgid_act hact hp (fun _ _ _ => hne nofun) hsid, getSid_act hact hp hsid⟩
  have hframe := act_frame hact
  refine h.congr hfresh (hframe.pgrpMap hinsert hremove (fun _ _ _ => hne nofun) hsidUpdate)
    (hframe.sessionMap hinsert hremove hsidUpdate) (hframe.allproc hinsert hremove) hprocs ?_ ?_
  · intro u p hu
    have hut : u ≠ t := by
      rintro rfl
      have hchanges' := changes_of_pending hu
      rw [changes, hcall, hchanges] at hchanges'
      cases hchanges'
    have hlt := lt_of_changes hfresh (changes_of_pending hu)
    unfold Pending at hu ⊢
    rw [(act_frame hact).calls hut, self_act hact hlt]
    exact hu
  · intro u
    by_cases hut : u = t
    · subst hut
      have hnone : ∀ self, (s'.calls u).changes self = none := by
        intro self
        cases hq : (s'.calls u).changes self with
        | none => rfl
        | some q =>
          have hold := Exclusive.changes_act hact hq
          rw [hchanges] at hold
          cases hold
      exact reads_of_changes hnone
    · refine h.reads_of_ne hfresh ((act_frame hact).calls hut) (self_act hact) ?_
        (hexclusive.listed u)
      intro p hp _
      exact ⟨hprocs p hp, rfl, rfl⟩

/-- A process that was not in the table is entered with the groups it has. -/
theorem insert (hnone : s.allproc (s.procs c).pid = none)
    (hreads : ∀ u, s.Reads u (Function.update pgidOf c (s.procs c).getPgid)
      (Function.update sidOf c (s.procs c).getSid) (s.calls u))
    (hkeyed : ∀ pid p, s.allproc pid = some p → (s.procs p).pid = pid) :
    (s.allprocInsert c).Indexed (Function.update pgidOf c (s.procs c).getPgid)
      (Function.update sidOf c (s.procs c).getSid) := by
  -- The others keep their place in the index.
  have hother : ∀ pid p, s.allproc pid = some p → p ≠ c := by
    rintro pid p hp rfl
    rw [hkeyed pid p hp, hp] at hnone
    cases hnone
  have hindex : ∀ (m : Multimap Nat Nat) (of : Nat → Nat) (key : Nat), m.Indexes s.allproc of →
      (m.add key (s.procs c).pid).Indexes (s.allprocInsert c).allproc
        (Function.update of c key) := by
    intro m of key hm
    refine hm.change (a := (s.procs c).pid) ?_ fun pid hpid => ⟨update_of_ne hpid .., ?_, ?_⟩
    · simp [Multimap.has_add, hm _ _, hnone, allprocInsert]
    · simp [Multimap.has_add, hpid]
    · exact fun p hp => update_of_ne (hother pid p hp) ..
  constructor
  case pgrp => exact hindex s.pgrpMap pgidOf _ h.pgrp
  case session => exact hindex s.sessionMap sidOf _ h.session
  case settled =>
    intro p hp hfree
    by_cases hpc : p = c
    · subst hpc
      rw [update_self, update_self]
      exact ⟨rfl, rfl⟩
    rw [update_of_ne hpc, update_of_ne hpc]
    refine h.settled p ?_ hfree
    have hpid : (s.procs p).pid ≠ (s.procs c).pid := by
      intro heq
      dsimp only [Listed, allprocInsert] at hp
      rw [heq, update_self, Option.some.injEq] at hp
      exact hpc hp.symm
    exact (update_of_ne hpid ..).symm.trans hp
  case reads => exact hreads

/-- A settled process is taken out of the table and of the index. -/
theorem remove (hkeyed : ∀ pid p, s.allproc pid = some p →
      (s.procs p).pid = pid) {pid : Nat} (hfree : ∀ p, s.allproc pid = some p → ∀ t, ¬s.Pending t p) :
    (s.allprocRemove pid).Indexed pgidOf sidOf := by
  cases hp : s.allproc pid with
  | none =>
    rw [allprocRemove, hp]
    exact h
  | some p =>
    have hlisted : s.Listed p := by
      rw [Listed, hkeyed pid p hp]
      exact hp
    obtain ⟨hpgid, hsid⟩ := h.settled p hlisted (hfree p hp)
    have hindex : ∀ (m : Multimap Nat Nat) (of : Nat → Nat), m.Indexes s.allproc of →
        (m.remove (of p) pid).Indexes (Function.update s.allproc pid none) of := by
      intro m of hm
      refine hm.change (a := pid) ?_ fun pid' hpid => ⟨update_of_ne hpid .., ?_, fun _ _ => rfl⟩
      · simp [Multimap.has_remove, hm _ _, hp]
      · simp [Multimap.has_remove, hpid]
    rw [allprocRemove, hp]
    dsimp only
    rw [← hpgid, ← hsid]
    constructor
    case pgrp => exact hindex s.pgrpMap pgidOf h.pgrp
    case session => exact hindex s.sessionMap sidOf h.session
    case settled =>
      intro q hq hfree'
      refine h.settled q ?_ hfree'
      by_cases hpid : (s.procs q).pid = pid
      · simp [Listed, hpid] at hq
      · simpa [Listed, hpid] using hq
    case reads => exact h.reads

/-- One process is written, or its place in the index, by the call that changes it. -/
theorem change (hfresh : s.Fresh) (hexclusive : s.Exclusive) (hq : s.changes t = some q)
    (hcalls : ∀ u, u ≠ t → s'.calls u = s.calls u) (hthreads : s'.threads = s.threads)
    (hallproc : s'.allproc = s.allproc)
    (hprocs : ∀ p, p ≠ q → s'.procs p = s.procs p ∧ pgidOf' p = pgidOf p ∧ sidOf' p = sidOf p)
    (hpgrp : s'.pgrpMap.Indexes s.allproc pgidOf')
    (hsession : s'.sessionMap.Indexes s.allproc sidOf')
    (hsettled : (∀ t, ¬s'.Pending t q) →
      pgidOf' q = (s'.procs q).getPgid ∧ sidOf' q = (s'.procs q).getSid)
    (hreads : s'.Reads t pgidOf' sidOf' (s'.calls t)) : s'.Indexed pgidOf' sidOf' where
  pgrp := by
    rw [hallproc]
    exact hpgrp
  session := by
    rw [hallproc]
    exact hsession
  settled p hp hfree := by
    by_cases hpq : p = q
    · subst hpq
      exact hsettled hfree
    obtain ⟨hproc, hpgid, hsid⟩ := hprocs p hpq
    rw [Listed, hallproc, hproc] at hp
    rw [hproc, hpgid, hsid]
    refine h.settled p hp fun u hu => hfree u ?_
    have hut : u ≠ t := by
      rintro rfl
      have hp' := changes_of_pending hu
      rw [hq, Option.some.injEq] at hp'
      exact hpq hp'.symm
    unfold Pending at hu ⊢
    rw [hcalls u hut, self, hthreads]
    exact hu
  reads u := by
    by_cases hut : u = t
    · rw [hut]
      exact hreads
    refine h.reads_of_ne hfresh (hcalls u hut) (fun _ => by rw [self, hthreads]; rfl) ?_
      (hexclusive.listed u)
    intro p _ hp
    have hpq : p ≠ q := by
      rintro rfl
      exact hut (hexclusive.one u t p hp hq)
    simp [SameIds, hprocs p hpq]

/-- A process has been written, and its call goes on to the index. -/
theorem write (hfresh : s.Fresh) (hexclusive : s.Exclusive) {proc : Proc}
    (hq : s.changes t = some q)
    (hpending : ((s.setProc q proc).setCall t call).Pending t q)
    (hreads : ((s.setProc q proc).setCall t call).Reads t pgidOf sidOf call) :
    ((s.setProc q proc).setCall t call).Indexed pgidOf sidOf := by
  refine h.change hfresh hexclusive hq (fun u hut => calls_setCall_of_ne hut) rfl rfl
    (fun p hpq => ⟨procs_setProc_of_ne hpq, rfl, rfl⟩) h.pgrp h.session ?_ ?_
  · exact fun hfree => absurd hpending (hfree t)
  · rw [calls_setCall_self]
    exact hreads

/-- The index gets what was written, and the call is over. -/
theorem update (hfresh : s.Fresh) (hexclusive : s.Exclusive) (hq : s.changes t = some q)
    {pgrpMap sessionMap : Multimap Nat Nat}
    (hpgrp : ∀ g pid, pgrpMap.Has g pid ↔ if pid = (s.procs q).pid
      then g = (s.procs q).getPgid else s.pgrpMap.Has g pid)
    (hsession : ∀ sid pid, sessionMap.Has sid pid ↔ if pid = (s.procs q).pid
      then sid = (s.procs q).getSid else s.sessionMap.Has sid pid) :
    ({ s with pgrpMap := pgrpMap, sessionMap := sessionMap }.setCall t .idle).Indexed
      (Function.update pgidOf q (s.procs q).getPgid)
      (Function.update sidOf q (s.procs q).getSid) := by
  have hlisted := hexclusive.listed t q hq
  have hindex : ∀ (m m' : Multimap Nat Nat) (of : Nat → Nat) (key : Nat), m.Indexes s.allproc of →
      (∀ g pid, m'.Has g pid ↔ if pid = (s.procs q).pid then g = key else m.Has g pid) →
      m'.Indexes s.allproc (Function.update of q key) := by
    intro m m' of key hm hm'
    refine hm.change (a := (s.procs q).pid) ?_ fun pid hpid => ⟨rfl, ?_, ?_⟩
    · simp [hm', show s.allproc _ = _ from hlisted]
    · simp [hm', hpid]
    · intro p hp
      refine update_of_ne ?_ ..
      rintro rfl
      exact hpid (hfresh.table pid p hp).2.symm
  refine h.change hfresh hexclusive hq (fun u hut => calls_setCall_of_ne hut) rfl rfl
    (fun p hpq => ⟨rfl, update_of_ne hpq .., update_of_ne hpq ..⟩)
    (hindex s.pgrpMap pgrpMap pgidOf _ h.pgrp hpgrp)
    (hindex s.sessionMap sessionMap sidOf _ h.session hsession) ?_ ?_
  · rw [update_self, update_self]
    exact fun _ => ⟨rfl, rfl⟩
  · rw [calls_setCall_self]
    trivial

/-- What the index has of the process that a call changes. -/
theorem has_iff (hlisted : s.Listed q) : (∀ g, s.pgrpMap.Has g (s.procs q).pid ↔ g = pgidOf q) ∧
      ∀ sid, s.sessionMap.Has sid (s.procs q).pid ↔ sid = sidOf q := by
  constructor
  · intro g
    rw [h.pgrp, hlisted]
    simp
  · intro sid
    rw [h.session, hlisted]
    simp

theorem act (hfresh : s.Fresh) (hexclusive : s.Exclusive) (horderly : s.Orderly (.next t))
    (hact : s.act t (s.calls t) = some s') : ∃ pgidOf' sidOf', s'.Indexed pgidOf' sidOf' := by
  have hkeyed : ∀ pid p, s.allproc pid = some p → (s.procs p).pid = pid :=
    fun pid p hp => (hfresh.table pid p hp).2
  have hreads := h.reads t
  dsimp only [Orderly] at horderly
  cases hcall : s.calls t <;> rw [hcall] at hact hreads
  case cloneInsert c =>
    obtain ⟨hlt, hnone, -⟩ := hfresh.hidden t c hcall
    cases hact
    -- Nobody changes a process that is not in the table.
    have hne : ∀ u p, s.changes u = some p → p ≠ c := by
      rintro u p hp rfl
      have hlisted := hexclusive.listed u p hp
      rw [Listed, hnone] at hlisted
      cases hlisted
    have hidle : (s.setCall t (.clonePush c)).Indexed pgidOf sidOf := by
      refine h.setCall hfresh ?_ trivial
      intro p hp
      unfold Pending at hp
      rw [hcall] at hp
      exact hp
    refine ⟨_, _, hidle.insert hnone ?_ hkeyed⟩
    intro u
    refine (hidle.reads u).congr rfl ?_
    intro p hp
    have hpc : p ≠ c := by
      by_cases hut : u = t
      · rw [hut, calls_setCall_self] at hp
        cases hp
      · rw [calls_setCall_of_ne hut] at hp
        exact hne u p hp
    rw [update_of_ne hpc, update_of_ne hpc]
    exact ⟨⟨rfl, rfl, rfl⟩, rfl, rfl⟩
  case reapRemove c status =>
    have hc := hfresh.known t c (hcall ▸ (.head _))
    rw [hcall] at horderly
    cases hact
    have hremove : (s.allprocRemove (s.procs c).pid).Indexed pgidOf sidOf := by
      refine h.remove hkeyed ?_
      intro p hp u hu
      obtain ⟨hp', hpid⟩ := hfresh.table _ p hp
      have hpc := hfresh.apart p hp'.1 c hc.1 hpid
      have hchanges := changes_of_pending hu
      rw [hpc] at hchanges
      exact horderly u (lt_of_changes hfresh hchanges) hchanges
    refine ⟨pgidOf, sidOf, hremove.setCall (hfresh.allprocRemove _) ?_ trivial⟩
    intro p hp
    rw [allprocRemove_eq, Pending] at hp
    rw [hcall] at hp
    exact hp
  case pgWrite q g old =>
    have hq : s.changes t = some q := changes_eq hcall
    have hnot : ¬s.Pending t q := by
      rw [Pending, hcall]
      exact id
    have hsettled := h.settled_of_changes hexclusive (hexclusive.listed t q hq) hq hnot
    cases hact
    refine ⟨pgidOf, sidOf, h.write hfresh hexclusive hq ?_ ?_⟩
    · rw [Pending, calls_setCall_self]
    refine ⟨?_, ?_, ?_⟩
    · rw [hsettled.1]
      exact hreads
    · dsimp only [ProcSystem.setCall]
      rw [procs_setProc_self]
      rfl
    · rw [hsettled.2]
      dsimp only [ProcSystem.setCall]
      rw [procs_setProc_self]
      rfl
  case sidWrite oldPgid oldSid =>
    have hq : s.changes t = some (s.self t) := changes_eq hcall
    have hnot : ¬s.Pending t (s.self t) := by
      rw [Pending, hcall]
      exact id
    have hsettled := h.settled_of_changes hexclusive (hexclusive.listed t _ hq) hq hnot
    cases hact
    refine ⟨pgidOf, sidOf, h.write hfresh hexclusive hq ?_ ?_⟩
    · rw [Pending, calls_setCall_self]
      rfl
    refine ⟨hreads.1.trans hsettled.1.symm, hreads.2.trans hsettled.2.symm, ?_, ?_⟩
    · change ((s.setProc (s.self t) _).procs (s.self t)).getPgid =
        ((s.setProc (s.self t) _).procs (s.self t)).pid
      rw [procs_setProc_self]
      rfl
    · change ((s.setProc (s.self t) _).procs (s.self t)).getSid =
        ((s.setProc (s.self t) _).procs (s.self t)).pid
      rw [procs_setProc_self]
      rfl
  case pgUpdate q g old =>
    have hq : s.changes t = some q := changes_eq hcall
    have hlisted := hexclusive.listed t q hq
    obtain ⟨hhas, hhasSid⟩ := h.has_iff hlisted
    cases hact
    obtain ⟨rfl, rfl, hsid⟩ := hreads
    refine ⟨_, _, h.update hfresh hexclusive hq (fun g pid => Multimap.has_move hhas) ?_⟩
    intro sid pid
    split
    next hpid => rw [hpid, hhasSid, hsid]
    next => exact Iff.rfl
  case sidUpdate oldPgid oldSid =>
    have hq : s.changes t = some (s.self t) := changes_eq hcall
    have hlisted := hexclusive.listed t _ hq
    obtain ⟨hhas, hhasSid⟩ := h.has_iff hlisted
    cases hact
    obtain ⟨rfl, rfl, hpgid, hsid⟩ := hreads
    refine ⟨_, _, h.update hfresh hexclusive hq ?_ ?_⟩
    · intro g pid
      rw [hpgid]
      exact Multimap.has_move hhas
    · intro sid pid
      rw [hsid]
      exact Multimap.has_move hhasSid
  all_goals
    first
      | exact ⟨pgidOf, sidOf, h.quiet hfresh hexclusive hcall hact (fun _ => rfl) nofun nofun⟩
      | cases hact

end Indexed

end ProcSystem

end Petra.Proc
