import Petra.Base.Filed
import Petra.Proc.Reapers

/-! # Parents and children

A child knows its parent, and the parent has the child in a list. While a process is made or
exits, the identifier of a child is on its way: a call has put it into the table and not into the
list yet, or has taken it from one list and not put it into another yet. An identifier is in one
of these places at most, and there once.
-/

namespace Petra.Proc

open Base Function List Call ProcSystem

/-- Where the identifier of a child is kept. -/
inductive Place
  /-- Among the children of a process. -/
  | child (p : Nat)
  /-- With the exit that a thread makes. -/
  | taken (t : Nat)
  /-- With the thread that makes the child. -/
  | born (t : Nat)
  deriving DecidableEq

/-- The children that an exit has taken. -/
def Call.taken : Call → List Nat
  | .exitReaper children _ _ | .exitThreads children _ | .exitMark _ children _
  | .exitReparent children _ => children
  | _ => []

/-- The child that its parent does not have in its list yet. -/
def Call.born : Call → List Nat
  | .clonePush c => [c]
  | _ => []

namespace ProcSystem

variable {s s' : ProcSystem} {t u p q c r pid : Nat} {call call₀ : Call} {children : List Nat}

def lists (s : ProcSystem) : Place → List Nat
  | .child p => if p < s.nextProc then (s.procs p).children else []
  | .taken t => (s.calls t).taken
  | .born t => (s.calls t).born.map fun c => (s.procs c).pid

structure Tree (s : ProcSystem) : Prop where
  filed : Filed s.lists
  known : ∀ place, ∀ pid ∈ s.lists place, ∃ d, s.Public d ∧ (s.procs d).pid = pid
  linked : ∀ p pid, pid ∈ s.lists (.child p) → (s.procs p).state = .alive ∧
    ∀ c, s.allproc pid = some c → (s.procs c).ppid = some (s.procs p).pid
  made : ∀ t c, s.calls t = .cloneInsert c ∨ s.calls t = .clonePush c →
    (s.procs c).ppid = some (s.procs (s.self t)).pid
  covered : ∀ pid c, s.allproc pid = some c → (s.procs c).ppid ≠ none →
    (∃ place, pid ∈ s.lists place) ∨ ∃ t status, s.calls t = .reapRemove c status
  own : ∀ c < s.nextProc, (s.procs c).ppid = none → c = 0 ∨ c ∈ s.kernel

/-! ## What the sections change -/

theorem look_taken (hlook : s.look t call₀ = some call) :
    call.taken = call₀.taken ∧ call.born = call₀.born := by
  revert hlook
  fun_cases look s t call₀ <;> intro hlook <;>
    grind [taken, born, Option.map_eq_some_iff]

section

variable (hact : s.act t call₀ = some s')

include hact

theorem taken_act (hexit : ∀ status, call₀ ≠ .exitStart status)
    (hreparent : ∀ children r, call₀ ≠ .exitReparent children r) :
    (s'.calls t).taken = call₀.taken := by
  revert hact
  fun_cases act s t call₀ <;> intro hact <;> cases hact <;> rw [calls_setCall_self]
  all_goals first
    | rfl
    | exact absurd rfl (hexit _)
    | exact absurd rfl (hreparent _ _)
    | (split <;> rfl)

theorem born_act (hinsert : ∀ c, call₀ ≠ .cloneInsert c) (hpush : ∀ c, call₀ ≠ .clonePush c) :
    (s'.calls t).born = call₀.born := by
  revert hact
  fun_cases act s t call₀ <;> intro hact <;> cases hact <;> rw [calls_setCall_self]
  all_goals first
    | rfl
    | exact absurd rfl (hinsert _)
    | exact absurd rfl (hpush _)
    | (split <;> rfl)

theorem clonePush_act (hcall : s'.calls t = .clonePush c) : call₀ = .cloneInsert c := by
  revert hact
  fun_cases act s t call₀ <;> intro hact <;> cases hact <;> rw [calls_setCall_self] at hcall
  all_goals first
    | (cases hcall; rfl)
    | cases hcall
    | (split at hcall <;> cases hcall)

theorem reapRemove_act {status : ExitStatus} (hcall : call₀ = .reapRemove c status) :
    s'.allproc (s.procs c).pid = none := by
  rw [hcall] at hact
  cases hact
  exact allproc_allprocRemove _

theorem kernel_act : s'.kernel = s.kernel := by
  revert hact
  fun_cases act s t call₀ <;> intro hact <;> cases hact
  all_goals first
    | rfl
    | (rw [runThreads_eq]; rfl)
    | (rw [treeReparentChildren_eq]; rfl)
    | (rw [allprocRemove_eq]; rfl)

/-- The children of a process are written when it gets or reaps one, and when it exits. -/
theorem children_act (hp : p < s.nextProc) (hpush : ∀ c, call₀ ≠ .clonePush c)
    (hexit : ∀ status, call₀ ≠ .exitStart status)
    (hreparent : ∀ children r, call₀ ≠ .exitReparent children r)
    (hretain : ∀ c status, call₀ ≠ .reapRetain c status) :
    (s'.procs p).children = (s.procs p).children := by
  cases call₀
  case clonePush => exact absurd rfl (hpush _)
  case exitStart => exact absurd rfl (hexit _)
  case exitReparent => exact absurd rfl (hreparent _ _)
  case reapRetain => exact absurd rfl (hretain _ _)
  all_goals exact (congrArg Proc.children (kept_act hact hp) :)

/-- The parent of a process is written when it becomes an orphan. -/
theorem ppid_act (hp : p < s.nextProc) (hreparent : ∀ children r, call₀ ≠ .exitReparent children r) :
    (s'.procs p).ppid = (s.procs p).ppid := by
  cases call₀
  case exitReparent => exact absurd rfl (hreparent _ _)
  all_goals exact (congrArg Proc.ppid (kept_act hact hp) :)

/-- Nothing comes into the table but a process that its call inserts. -/
theorem allproc_of_act (hinsert : ∀ c, call₀ ≠ .cloneInsert c) (hc : s'.allproc pid = some c) :
    s.allproc pid = some c := by
  cases call₀
  case reapRemove d status =>
    cases hact
    change (s.allprocRemove (s.procs d).pid).allproc pid = some c at hc
    by_cases hpid : pid = (s.procs d).pid
    · rw [hpid, allproc_allprocRemove] at hc
      cases hc
    · rw [allproc_allprocRemove_of_ne hpid] at hc
      exact hc
  all_goals
    rw [(act_frame hact).allproc hinsert nofun] at hc
    exact hc

end

/-! ## Orphans -/

theorem ppid_setParents (r : Nat) (children : List Nat) (c : Nat) :
    ((s.setParents r children).procs c).ppid =
      if ∃ pid ∈ children, s.allproc pid = some c then some r else (s.procs c).ppid := by
  induction children generalizing s with
  | nil => simp [setParents]
  | cons pid children ih =>
    have hone : ((s.setParents r [pid]).procs c).ppid =
        if s.allproc pid = some c then some r else (s.procs c).ppid := by
      dsimp only [setParents, foldl_cons, foldl_nil]
      cases s.allproc pid with
      | none => rfl
      | some d =>
        by_cases hcd : c = d
        · rw [hcd, procs_setProc_self, if_pos rfl]
        · rw [procs_setProc_of_ne hcd, if_neg fun heq => hcd (Option.some.inj heq).symm]
    have hcons : s.setParents r (pid :: children) =
        (s.setParents r [pid]).setParents r children := rfl
    have hallproc : (s.setParents r [pid]).allproc = s.allproc := by
      rw [setParents_eq]
    rw [hcons, ih, hallproc, hone]
    by_cases hrest : ∃ pid' ∈ children, s.allproc pid' = some c <;> simp [hrest]

/-- The reaper gets the children, and the children the reaper. -/
theorem treeReparentChildren_spec (hr : s.allproc r = some q) (children : List Nat) :
    (∀ p, ((s.treeReparentChildren children r).procs p).children =
      if p = q then (s.procs p).children ++ children else (s.procs p).children) ∧
    ∀ p, ((s.treeReparentChildren children r).procs p).ppid =
      ((s.setParents r children).procs p).ppid := by
  have hchildren : ∀ p, ((s.setParents r children).procs p).children = (s.procs p).children :=
    proc_setParents Proc.children (fun _ _ => rfl) r children
  have hr' : (s.setParents r children).allproc r = some q := by
    rw [setParents_eq]
    exact hr
  have hstate : s.treeReparentChildren children r =
      (s.setParents r children).setProc q { (s.setParents r children).procs q with
        children := ((s.setParents r children).procs q).children ++ children } := by
    unfold treeReparentChildren
    dsimp only
    rw [hr']
  rw [hstate]
  constructor
  · intro p
    by_cases hpq : p = q
    · rw [hpq, procs_setProc_self, if_pos rfl, hchildren]
    · rw [procs_setProc_of_ne hpq, if_neg hpq, hchildren]
  · exact field_setProc Proc.ppid rfl

/-! ## The lists -/

theorem mem_lists_child (hp : pid ∈ s.lists (.child p)) :
    p < s.nextProc ∧ pid ∈ (s.procs p).children := by
  dsimp only [lists] at hp
  split at hp
  next hlt => exact ⟨hlt, hp⟩
  next => cases hp

theorem lists_child (hp : p < s.nextProc) : s.lists (.child p) = (s.procs p).children := if_pos hp

theorem lists_call (hcall : s.calls t = call) : s.lists (.taken t) = call.taken ∧
    s.lists (.born t) = call.born.map fun c => (s.procs c).pid := by
  subst hcall
  exact ⟨rfl, rfl⟩

/-- No list changes where no call takes or brings a child. -/
theorem lists_congr (hle : s.nextProc ≤ s'.nextProc)
    (hchildren : ∀ p < s.nextProc, (s'.procs p).children = (s.procs p).children)
    (hnew : ∀ p, s.nextProc ≤ p → p < s'.nextProc → (s'.procs p).children = [])
    (htaken : ∀ t, (s'.calls t).taken = (s.calls t).taken)
    (hborn : ∀ t, (s'.calls t).born = (s.calls t).born)
    (hpids : ∀ t, ∀ c ∈ (s.calls t).born, (s'.procs c).pid = (s.procs c).pid) :
    s'.lists = s.lists := by
  funext place
  cases place with
  | child p =>
    dsimp only [lists]
    by_cases hp : p < s.nextProc
    · rw [if_pos hp, if_pos (hp.trans_le hle), hchildren p hp]
    · split
      next hp' => exact hnew p (Nat.not_lt.mp hp) hp'
      next => rfl
  | taken t => exact htaken t
  | born t =>
    dsimp only [lists]
    rw [hborn]
    exact map_congr_left (hpids t)

theorem Fresh.pid_born (hfresh : s.Fresh) (hc : c ∈ (s.calls t).born) :
    s.calls t = .clonePush c ∧ s.Public c := by
  have hcall : s.calls t = .clonePush c := by
    cases hcall : s.calls t <;> rw [hcall] at hc
    case clonePush d =>
      rw [born, mem_singleton] at hc
      rw [hc]
    all_goals cases hc
  exact ⟨hcall, hfresh.known t c (hcall ▸ (.head _))⟩

/-- The lists after a section, from those of its own thread and of the process that it writes. -/
theorem lists_act {lists : Place → List Nat} (hfresh : s.Fresh)
    (hact : s.act t (s.calls t) = some s') (hnext : s'.nextProc = s.nextProc) (hq : q < s.nextProc)
    (hself : (s'.procs q).children = lists (.child q))
    (hchildren : ∀ p ≠ q, (s'.procs p).children = (s.procs p).children ∧
      lists (.child p) = s.lists (.child p))
    (htaken : (s'.calls t).taken = lists (.taken t)) (hborn : s'.lists (.born t) = lists (.born t))
    (hothers : ∀ u ≠ t, lists (.taken u) = s.lists (.taken u) ∧
      lists (.born u) = s.lists (.born u)) : s'.lists = lists := by
  funext place
  cases place with
  | child p =>
    by_cases hp : p = q
    · rw [hp, lists_child (by rw [hnext]; exact hq), hself]
    · rw [(hchildren p hp).2]
      dsimp only [ProcSystem.lists]
      rw [hnext, (hchildren p hp).1]
  | taken u =>
    by_cases hut : u = t
    · rw [hut]
      exact htaken
    · rw [(hothers u hut).1]
      exact congrArg taken ((act_frame hact).calls hut)
  | born u =>
    by_cases hut : u = t
    · rw [hut, hborn]
    · rw [(hothers u hut).2]
      dsimp only [ProcSystem.lists]
      rw [(act_frame hact).calls hut]
      exact map_congr_left fun d hd => pid_act hact (hfresh.pid_born hd).2.1

/-- A process that a call is making is there, and so is the one that makes it. -/
theorem Fresh.making (hfresh : s.Fresh)
    (hcall : s.calls u = .cloneInsert c ∨ s.calls u = .clonePush c) :
    c < s.nextProc ∧ u < s.nextThread ∧ s.Public (s.self u) := by
  rcases hcall with hcall | hcall
  · exact ⟨(hfresh.hidden u c hcall).1, hfresh.busy u (hcall ▸ nofun)⟩
  · exact ⟨(hfresh.known u c (hcall ▸ (.head _))).1,
      hfresh.busy u (hcall ▸ nofun)⟩

theorem remove_act (hfresh : s.Fresh) (hact : s.act t (s.calls t) = some s') (u c : Nat)
    (status : ExitStatus) (hu : s.calls u = .reapRemove c status) :
    s'.calls u = .reapRemove c status ∨ ∀ pid, s'.allproc pid ≠ some c := by
  by_cases hut : u = t
  · subst hut
    right
    intro pid hc
    have hnone := reapRemove_act hact hu
    have hold := allproc_of_act hact (hu ▸ nofun) hc
    rw [(hfresh.table pid c hold).2, hc] at hnone
    cases hnone
  · rw [(act_frame hact).calls hut]
    exact .inl hu

namespace Tree

variable (h : s.Tree)

include h

section

variable
    (hmade : ∀ t c, s'.calls t = .cloneInsert c ∨ s'.calls t = .clonePush c →
      (s'.procs c).ppid = some (s'.procs (s'.self t)).pid)
    (hown : ∀ c < s'.nextProc, (s'.procs c).ppid = none → c = 0 ∨ c ∈ s'.kernel)

include hmade hown

section

variable
    (hlisted : ∀ pid c, s'.allproc pid = some c → (s'.procs c).ppid ≠ none →
      (s.allproc pid = some c ∧ (s.procs c).ppid ≠ none) ∨ ∃ place, pid ∈ s'.lists place)
    (hlinked : ∀ p pid, pid ∈ s'.lists (.child p) → (s'.procs p).state = .alive ∧
      ∀ c, s'.allproc pid = some c → (s'.procs c).ppid = some (s'.procs p).pid)

include hlisted hlinked

/-- Children go from list to list. One that goes out of the lists is being removed. -/
theorem of_lists (hpublic : ∀ d, s.Public d → s'.Public d)
    (hpids : ∀ d < s.nextProc, (s'.procs d).pid = (s.procs d).pid) (hfiled : Filed s'.lists)
    (hsub : ∀ place, ∀ pid ∈ s'.lists place, ∃ place', pid ∈ s.lists place')
    (hkeep : ∀ place, ∀ pid ∈ s.lists place, ∀ c, s'.allproc pid = some c →
      (∃ place', pid ∈ s'.lists place') ∨ ∃ t status, s'.calls t = .reapRemove c status)
    (hremove : ∀ t c status, s.calls t = .reapRemove c status →
      s'.calls t = .reapRemove c status ∨ ∀ pid, s'.allproc pid ≠ some c) : s'.Tree where
  filed := hfiled
  known place pid hpid := by
    obtain ⟨place', hpid'⟩ := hsub place pid hpid
    obtain ⟨d, hd, rfl⟩ := h.known place' pid hpid'
    exact ⟨d, hpublic d hd, hpids d hd.1⟩
  linked := hlinked
  made := hmade
  covered pid c hc hppid := by
    rcases hlisted pid c hc hppid with ⟨hold, hppid'⟩ | hplace
    · rcases h.covered pid c hold hppid' with ⟨place, hplace⟩ | ⟨t, status, ht⟩
      · exact hkeep place pid hplace c hc
      · rcases hremove t c status ht with ht' | hgone
        · exact .inr ⟨t, status, ht'⟩
        · exact absurd hc (hgone pid)
    · exact .inl hplace
  own := hown

/-- All the children of one place go to another. -/
theorem of_give {old new : Place} (hfresh : s.Fresh) (hact : s.act t (s.calls t) = some s')
    (hlists : s'.lists = give s.lists old new) (hne : old ≠ new) : s'.Tree := by
  refine h.of_lists hmade hown hlisted hlinked (fun d hd => hd.act hact)
    (fun _ => pid_act hact) ?_ ?_ ?_ (remove_act hfresh hact)
  · rw [hlists]
    exact h.filed.give hne
  · intro place pid hpid
    rw [hlists] at hpid
    exact (mem_give hne).mp ⟨place, hpid⟩
  · intro place pid hpid c _
    rw [hlists]
    exact .inl ((mem_give hne).mpr ⟨place, hpid⟩)

end

/-- No list changes. -/
theorem of_same (hpublic : ∀ d, s.Public d → s'.Public d)
    (hpids : ∀ d < s.nextProc, (s'.procs d).pid = (s.procs d).pid) (hlists : s'.lists = s.lists)
    (halive : ∀ p < s.nextProc, (s.procs p).state = .alive → (s'.procs p).state = .alive)
    (hlisted : ∀ pid c, s'.allproc pid = some c → (s.allproc pid = some c ∧ c < s.nextProc) ∨
      ((s'.procs c).ppid = none ∧ ∀ place, pid ∉ s.lists place))
    (hppid : ∀ c < s.nextProc, (s'.procs c).ppid = (s.procs c).ppid)
    (hremove : ∀ t c status, s.calls t = .reapRemove c status →
      s'.calls t = .reapRemove c status ∨ ∀ pid, s'.allproc pid ≠ some c) : s'.Tree := by
  refine h.of_lists hmade hown ?_ ?_ hpublic hpids (by rw [hlists]; exact h.filed) ?_ ?_ hremove
  · intro pid c hc hne
    rcases hlisted pid c hc with ⟨hold, hlt⟩ | ⟨hnone, -⟩
    · rw [hppid c hlt] at hne
      exact .inl ⟨hold, hne⟩
    · exact absurd hnone hne
  · rw [hlists]
    intro p pid hpid
    obtain ⟨hp, -⟩ := mem_lists_child hpid
    obtain ⟨hstate, hlink⟩ := h.linked p pid hpid
    refine ⟨halive p hp hstate, ?_⟩
    intro c hc
    rcases hlisted pid c hc with ⟨hold, hlt⟩ | ⟨-, hnot⟩
    · rw [hppid c hlt, hpids p hp]
      exact hlink c hold
    · exact absurd hpid (hnot _)
  · rw [hlists]
    exact fun place pid hpid => ⟨place, hpid⟩
  · rw [hlists]
    exact fun place pid hpid _ _ => .inl ⟨place, hpid⟩

end

/-- A call goes on, and has the children that it had. -/
theorem setCall (htaken : call.taken = (s.calls t).taken) (hborn : call.born = (s.calls t).born)
    (hinsert : ∀ c, call ≠ .cloneInsert c) (hpush : ∀ c, call ≠ .clonePush c)
    (hremove : ∀ c status, s.calls t ≠ .reapRemove c status) (hfresh : s.Fresh) :
    (s.setCall t call).Tree := by
  have hlists : (s.setCall t call).lists = s.lists := by
    refine lists_congr le_rfl (fun _ _ => rfl) ?_ ?_ ?_ (fun _ _ _ => rfl)
    · exact fun p hge hlt => absurd hlt (Nat.not_lt.mpr hge)
    · exact forall_setCall (P := fun u call => call.taken = (s.calls u).taken) htaken fun _ _ => rfl
    · exact forall_setCall (P := fun u call => call.born = (s.calls u).born) hborn fun _ _ => rfl
  refine h.of_same ?_ h.own (fun d hd => hd.setCall (hinsert d)) (fun _ _ => rfl) hlists
    (fun _ _ halive => halive) (fun pid c hc => .inl ⟨hc, (hfresh.table pid c hc).1.1⟩)
    (fun _ _ => rfl) ?_
  · intro u c hu
    exact h.made u c (hu.imp (fun hu => calls_of_setCall hu (hinsert c))
      fun hu => calls_of_setCall hu (hpush c))
  intro u c status hu
  left
  rw [calls_setCall_of_ne]
  · exact hu
  · rintro rfl
    exact hremove c status hu

/-! ## Calls that act -/

variable {status : ExitStatus}

variable (hfresh : s.Fresh) (hact : s.act t (s.calls t) = some s')

include hfresh hact

/-- A section that leaves no orphans keeps what is said of new processes. -/
theorem made_act (hreparent : ∀ children r, s.calls t ≠ .exitReparent children r) (u c : Nat)
    (hu : s'.calls u = .cloneInsert c ∨ s'.calls u = .clonePush c) :
    (s'.procs c).ppid = some (s'.procs (s'.self u)).pid := by
  obtain ⟨ht, hself⟩ := hfresh.busy t (busy_of_act hact)
  have hold : (s.calls u = .cloneInsert c ∨ s.calls u = .clonePush c) →
      (s'.procs c).ppid = some (s'.procs (s'.self u)).pid := by
    intro hcall
    obtain ⟨hc, hlt, hself'⟩ := hfresh.making hcall
    rw [self_act hact hlt, ppid_act hact hc hreparent, pid_act hact hself'.1]
    exact h.made u c hcall
  by_cases hut : u = t
  · subst hut
    rcases hu with hu | hu
    · obtain ⟨⟨pid, hcall⟩, rfl⟩ := (act_trail hact).cloneInsert hu
      rw [self_act hact ht, pid_act hact hself.1]
      rw [hcall] at hact
      cases hact
      dsimp only [ProcSystem.setCall, ProcSystem.newProc]
      rw [update_self]
      rfl
    · exact hold (.inl (clonePush_act hact hu))
  · rw [(act_frame hact).calls hut] at hu
    exact hold hu

omit hfresh in
theorem own_act (hppid : ∀ c < s.nextProc, (s'.procs c).ppid = none → (s.procs c).ppid = none)
    (c : Nat) (hc : c < s'.nextProc) (hnone : (s'.procs c).ppid = none) : c = 0 ∨ c ∈ s'.kernel := by
  rw [kernel_act hact]
  by_cases hlt : c < s.nextProc
  · exact h.own c hlt (hppid c hlt hnone)
  · rw [(newProc_of_act hact hc hlt).2.2] at hnone
    cases hnone

/-- The sections that take or bring no child. -/
theorem quiet (hinsert : ∀ c, s.calls t ≠ .cloneInsert c) (hpush : ∀ c, s.calls t ≠ .clonePush c)
    (hexit : ∀ status, s.calls t ≠ .exitStart status)
    (hreparent : ∀ children r, s.calls t ≠ .exitReparent children r)
    (hretain : ∀ c status, s.calls t ≠ .reapRetain c status) : s'.Tree := by
  have hlists : s'.lists = s.lists := by
    refine lists_congr ((act_frame hact).nextProc_le)
      (fun p hp => children_act hact hp hpush hexit hreparent hretain)
      (fun p hge hlt => (newProc_of_act hact hlt (Nat.not_lt.mpr hge)).2.1) ?_ ?_
      (fun u c hc => pid_act hact (hfresh.pid_born hc).2.1)
    · exact forall_act (P := fun u call => call.taken = (s.calls u).taken) hact
        (taken_act hact hexit hreparent) fun _ _ => rfl
    · exact forall_act (P := fun u call => call.born = (s.calls u).born) hact
        (born_act hact hinsert hpush) fun _ _ => rfl
  have hppid : ∀ c < s.nextProc, (s'.procs c).ppid = (s.procs c).ppid :=
    fun c hc => ppid_act hact hc hreparent
  refine h.of_same (h.made_act hfresh hact hreparent)
    (h.own_act hact fun c hc hnone => by rw [← hppid c hc]; exact hnone)
    (fun d hd => hd.act hact) (fun _ => pid_act hact) hlists ?_ ?_ hppid
    (remove_act hfresh hact)
  · intro p hp halive
    rw [state_act hact hp hexit]
    exact halive
  · intro pid c hc
    have hold := allproc_of_act hact hinsert hc
    exact .inl ⟨hold, (hfresh.table pid c hold).1.1⟩

/-- A new process is in the table, and its call is about to give it to its parent. -/
theorem insert (hfresh' : s'.Fresh) (hcall : s.calls t = .cloneInsert c) : s'.Tree := by
  obtain ⟨hc, hnone, honly⟩ := hfresh.hidden t c hcall
  have hs' : s' = (s.allprocInsert c).setCall t (.clonePush c) := by
    rw [hcall] at hact
    cases hact
    rfl
  -- Nobody has heard of the child.
  have hunknown : ∀ place, (s.procs c).pid ∉ s.lists place := by
    intro place hmem
    obtain ⟨d, hd, hpid⟩ := h.known place _ hmem
    rw [hfresh.apart d hd.1 c hc hpid] at hd
    exact hd.2 t hcall
  have hlists : s'.lists = update s.lists (.born t) [(s.procs c).pid] := by
    refine lists_act hfresh hact (by rw [hs']; rfl) hc ?_ ?_ ?_ ?_ fun u hut =>
      ⟨update_of_ne (by exact nofun) .., update_of_ne (mt Place.born.inj hut) ..⟩
    · rw [update_of_ne (by exact nofun), lists_child hc, hs']
      rfl
    · intro p _
      rw [update_of_ne (by exact nofun), hs']
      exact ⟨rfl, rfl⟩
    · rw [update_of_ne (show Place.taken t ≠ .born t from nofun), hs', calls_setCall_self,
        (lists_call hcall).1]
      rfl
    · rw [update_self, hs', (lists_call calls_setCall_self).2]
      rfl
  have hborn : s.lists (.born t) = [] := (lists_call hcall).2
  have hmem : ∀ place pid, pid ∈ s.lists place → pid ∈ s'.lists place := by
    intro place pid hpid
    rw [hlists, update_of_ne]
    · exact hpid
    · rintro rfl
      rw [hborn] at hpid
      cases hpid
  have hallproc : s'.allproc = update s.allproc (s.procs c).pid (some c) := by
    rw [hs']
    rfl
  have hprocs : s'.procs = s.procs := by
    rw [hs']
    rfl
  have hcalls : ∀ u ≠ t, s'.calls u = s.calls u := fun u hut => (act_frame hact).calls hut
  have hreparent : ∀ children r, s.calls t ≠ .exitReparent children r := by
    rw [hcall]
    exact nofun
  constructor
  case filed =>
    rw [hlists]
    refine h.filed.update (nodup_singleton _) ?_
    intro pid hpid place hplace
    rw [mem_singleton] at hpid
    rw [hpid] at hplace
    exact absurd hplace (hunknown place)
  case known =>
    intro place pid hpid
    rw [hprocs]
    have hcases : pid = (s.procs c).pid ∨ pid ∈ s.lists place := by
      rw [hlists] at hpid
      by_cases hplace : place = .born t
      · rw [hplace, update_self, mem_singleton] at hpid
        exact .inl hpid
      · rw [update_of_ne hplace] at hpid
        exact .inr hpid
    rcases hcases with rfl | hpid
    · refine ⟨c, hfresh'.known t c ?_, rfl⟩
      rw [hs', calls_setCall_self]
      exact (.head _)
    · obtain ⟨d, hd, hpid⟩ := h.known place pid hpid
      exact ⟨d, hd.act hact, hpid⟩
  case linked =>
    intro p pid hpid
    rw [hlists, update_of_ne (show Place.child p ≠ .born t from nofun)] at hpid
    rw [hprocs, hallproc]
    obtain ⟨halive, hlink⟩ := h.linked p pid hpid
    refine ⟨halive, ?_⟩
    intro d hd
    rw [update_of_ne] at hd
    · exact hlink d hd
    · rintro rfl
      exact hunknown _ hpid
  case made => exact h.made_act hfresh hact hreparent
  case covered =>
    intro pid d hd hppid
    by_cases hpid : pid = (s.procs c).pid
    · left
      refine ⟨.born t, ?_⟩
      rw [hlists, update_self, hpid]
      exact (.head _)
    rw [hallproc, update_of_ne hpid] at hd
    rw [hprocs] at hppid
    rcases h.covered pid d hd hppid with ⟨place, hplace⟩ | ⟨u, status, hu⟩
    · exact .inl ⟨place, hmem place pid hplace⟩
    · refine .inr ⟨u, status, ?_⟩
      rw [hcalls u]
      · exact hu
      · rintro rfl
        cases hcall.symm.trans hu
  case own =>
    refine h.own_act hact ?_
    rw [hprocs]
    exact fun _ _ hnone => hnone

/-- The children of one place go to another, and no child gets another parent. -/
theorem of_give_ppid {old new : Place} (hlists : s'.lists = give s.lists old new) (hne : old ≠ new)
    (hcall : s.calls t = call) (hinherit : ∀ pid, call ≠ .cloneInherit pid)
    (hinsert : ∀ c, call ≠ .cloneInsert c) (hreparent : ∀ children r, call ≠ .exitReparent children r)
    (hlinked : ∀ p pid, pid ∈ s'.lists (.child p) → (s'.procs p).state = .alive ∧
      ∀ c, s.allproc pid = some c → (s.procs c).ppid = some (s.procs p).pid) : s'.Tree := by
  subst hcall
  have hppid : ∀ c < s.nextProc, (s'.procs c).ppid = (s.procs c).ppid :=
    fun c hc => ppid_act hact hc hreparent
  refine h.of_give (h.made_act hfresh hact hreparent)
    (h.own_act hact fun c hc hnone => by rw [← hppid c hc]; exact hnone) ?_ ?_ hfresh hact
    hlists hne
  · intro pid c hc hne
    have hold := allproc_of_act hact hinsert hc
    rw [hppid c (hfresh.table pid c hold).1.1] at hne
    exact .inl ⟨hold, hne⟩
  intro p pid hpid
  obtain ⟨halive, hlink⟩ := hlinked p pid hpid
  refine ⟨halive, ?_⟩
  intro c hc
  have hold := allproc_of_act hact hinsert hc
  have hp := (mem_lists_child hpid).1
  rw [(act_frame hact).nextProc hinherit] at hp
  rw [hppid c (hfresh.table pid c hold).1.1, pid_act hact hp]
  exact hlink c hold

/-- A new process comes among the children of its parent. -/
theorem push (hstanding : s.Standing) (hcall : s.calls t = .clonePush c) : s'.Tree := by
  obtain ⟨ht, hself⟩ := hfresh.busy t (hcall ▸ nofun)
  have hc := hfresh.known t c (hcall ▸ (.head _))
  have hchildren : ∀ p, (s'.procs p).children =
      if p = s.self t then (s.procs p).children ++ [(s.procs c).pid]
      else (s.procs p).children := by
    intro p
    rw [hcall] at hact
    cases hact
    rw [runThreads_eq]
    dsimp only [ProcSystem.setCall]
    by_cases hp : p = s.self t
    · rw [hp, procs_setProc_self, if_pos rfl]
    · rw [procs_setProc_of_ne hp, if_neg hp]
  have hidle : s'.calls t = .idle := by
    rw [hcall] at hact
    cases hact
    exact calls_setCall_self
  have hnext : s'.nextProc = s.nextProc := (act_frame hact).nextProc (hcall ▸ nofun)
  have hborn : s.lists (.born t) = [(s.procs c).pid] := (lists_call hcall).2
  have hlists : s'.lists = give s.lists (.born t) (.child (s.self t)) := by
    refine lists_act hfresh hact hnext hself.1 ?_ ?_ ?_ ?_ fun u hut =>
      ⟨give_of_ne nofun nofun, give_of_ne (mt Place.born.inj hut) nofun⟩
    · rw [give_new, hborn, lists_child hself.1, hchildren, if_pos rfl]
    · intro p hp
      rw [hchildren, if_neg hp]
      exact ⟨rfl, give_of_ne nofun (mt Place.child.inj hp)⟩
    · rw [give_of_ne (by exact nofun) (by exact nofun), hidle, (lists_call hcall).1]
      rfl
    · rw [give_old (by exact nofun), (lists_call hidle).2]
      rfl
  refine h.of_give_ppid hfresh hact hlists nofun hcall nofun nofun nofun ?_
  intro p pid hpid
  have hp := (mem_lists_child hpid).1
  rw [hnext] at hp
  rw [state_act hact hp (hcall ▸ nofun)]
  rw [hlists] at hpid
  rcases mem_of_mem_give hpid nofun with hold | ⟨hps, hnew⟩
  · exact h.linked p pid hold
  cases hps
  rw [hborn, mem_singleton] at hnew
  refine ⟨hstanding.cloning t (by rw [hcall]; trivial), ?_⟩
  intro d hd
  obtain ⟨hd', hpid'⟩ := hfresh.table pid d hd
  rw [hfresh.apart d hd'.1 c hc.1 (hpid'.trans hnew)]
  exact h.made t c (.inr hcall)

/-- A process exits, and its children go with the call. -/
theorem exit (hcall : s.calls t = .exitStart status) : s'.Tree := by
  obtain ⟨ht, hself⟩ := hfresh.busy t (hcall ▸ nofun)
  by_cases hzombie : (s.procs (s.self t)).state = .zombie
  · rw [hcall] at hact
    dsimp only [act] at hact
    rw [if_pos hzombie] at hact
    cases hact
    refine h.setCall ?_ ?_ nofun nofun ?_ hfresh <;> rw [hcall]
    · rfl
    · rfl
    · exact nofun
  have hprocs : ∀ p ≠ s.self t, s'.procs p = s.procs p := by
    rw [hcall] at hact
    exact (exitStart_act hact).1
  have hs' : (s'.procs (s.self t)).children = [] ∧
      (s'.calls t).taken = (s.procs (s.self t)).children ∧ (s'.calls t).born = [] := by
    rw [hcall] at hact
    dsimp only [act] at hact
    rw [if_neg hzombie] at hact
    cases hact
    refine ⟨?_, ?_, ?_⟩
    · dsimp only [ProcSystem.setCall]
      rw [procs_setProc_self]
    · rw [calls_setCall_self]
      rfl
    · rw [calls_setCall_self]
      rfl
  obtain ⟨hempty, htaken, hborn⟩ := hs'
  have hnext : s'.nextProc = s.nextProc := (act_frame hact).nextProc (hcall ▸ nofun)
  have hlists : s'.lists = give s.lists (.child (s.self t)) (.taken t) := by
    refine lists_act hfresh hact hnext hself.1 ?_ ?_ ?_ ?_ fun u hut =>
      ⟨give_of_ne nofun (mt Place.taken.inj hut), give_of_ne nofun nofun⟩
    · rw [give_old (by exact nofun), hempty]
    · intro p hp
      rw [hprocs p hp]
      exact ⟨rfl, give_of_ne (mt Place.child.inj hp) nofun⟩
    · rw [htaken, give_new, lists_child hself.1, (lists_call hcall).1]
      rfl
    · rw [give_of_ne (by exact nofun) (by exact nofun), (lists_call hcall).2, lists, hborn]
      rfl
  refine h.of_give_ppid hfresh hact hlists nofun hcall nofun nofun nofun ?_
  intro p pid hpid
  rw [hlists] at hpid
  by_cases hps : p = s.self t
  · rw [hps, give_old (by exact nofun)] at hpid
    cases hpid
  · rw [give_of_ne (mt Place.child.inj hps) (by exact nofun)] at hpid
    rw [hprocs p hps]
    exact h.linked p pid hpid

/-- The children that an exit has taken go to the reaper. -/
theorem reparent (hstanding : s.Standing) (hcall : s.calls t = .exitReparent children r) :
    s'.Tree := by
  by_cases hempty : children = []
  · rw [hcall] at hact
    dsimp only [act] at hact
    rw [if_pos hempty] at hact
    cases hact
    refine h.setCall ?_ ?_ nofun nofun ?_ hfresh <;> rw [hcall]
    · exact hempty.symm
    · rfl
    · exact nofun
  obtain ⟨q, hq, halive⟩ := hstanding.reaper t r (by rw [hcall]; rfl)
  obtain ⟨hqpublic, hqpid⟩ := hfresh.table r q hq
  obtain ⟨hchildren, hppid⟩ := treeReparentChildren_spec hq children
  have hs' : s' = (s.treeReparentChildren children r).setCall t .idle := by
    rw [hcall] at hact
    dsimp only [act] at hact
    rw [if_neg hempty] at hact
    cases hact
    rfl
  have hprocs : s'.procs = (s.treeReparentChildren children r).procs := by
    rw [hs']
    rfl
  have hidle : s'.calls t = .idle := by
    rw [hs']
    exact calls_setCall_self
  have hallproc : s'.allproc = s.allproc :=
    (act_frame hact).allproc (hcall ▸ nofun) (hcall ▸ nofun)
  have hnext : s'.nextProc = s.nextProc := (act_frame hact).nextProc (hcall ▸ nofun)
  have htaken : s.lists (.taken t) = children := (lists_call hcall).1
  have hlists : s'.lists = give s.lists (.taken t) (.child q) := by
    refine lists_act hfresh hact hnext hqpublic.1 ?_ ?_ ?_ ?_ fun u hut =>
      ⟨give_of_ne (mt Place.taken.inj hut) nofun, give_of_ne nofun nofun⟩
    · rw [give_new, htaken, lists_child hqpublic.1, hprocs, hchildren, if_pos rfl]
    · intro p hp
      rw [hprocs, hchildren, if_neg hp]
      exact ⟨rfl, give_of_ne nofun (mt Place.child.inj hp)⟩
    · rw [give_old (by exact nofun), hidle]
      rfl
    · rw [give_of_ne (by exact nofun) (by exact nofun), (lists_call hidle).2, (lists_call hcall).2]
      rfl
  -- Whoever was not taken keeps its parent.
  have hother : ∀ c, (∀ pid ∈ children, s.allproc pid ≠ some c) →
      (s'.procs c).ppid = (s.procs c).ppid := by
    intro c hc
    rw [hprocs, hppid, ppid_setParents, if_neg]
    exact fun ⟨pid, hpid, hc'⟩ => hc pid hpid hc'
  have horphan : ∀ pid c, pid ∈ children → s.allproc pid = some c → (s'.procs c).ppid = some r := by
    intro pid c hpid hc
    rw [hprocs, hppid, ppid_setParents, if_pos ⟨pid, hpid, hc⟩]
  have hpid_eq : ∀ pid pid' c, s.allproc pid = some c → s.allproc pid' = some c → pid' = pid :=
    fun pid pid' c hc hc' => (hfresh.table pid' c hc').2.symm.trans (hfresh.table pid c hc).2
  refine h.of_give ?_ (h.own_act hact ?_) ?_ ?_ hfresh hact hlists nofun
  · intro u c hu
    have hut : u ≠ t := by
      rintro rfl
      rw [hidle] at hu
      rcases hu with hu | hu <;> cases hu
    rw [(act_frame hact).calls hut] at hu
    obtain ⟨-, hlt, hself⟩ := hfresh.making hu
    rw [self_act hact hlt, pid_act hact hself.1, hother c]
    · exact h.made u c hu
    intro pid hpid hc
    obtain ⟨hpublic, hpid'⟩ := hfresh.table pid c hc
    rcases hu with hu | hu
    · exact hpublic.2 u hu
    have hborn : pid ∈ s.lists (.born u) := by
      rw [(lists_call hu).2, ← hpid']
      exact (.head _)
    rw [← htaken] at hpid
    cases h.filed.apart _ _ pid hborn hpid
  · intro d _ hd
    rw [hother d] at hd
    · exact hd
    · intro pid hpid hd'
      rw [horphan pid d hpid hd'] at hd
      cases hd
  · intro pid c hc hne
    rw [hallproc] at hc
    by_cases hpid : pid ∈ children
    · refine .inr ⟨.child q, ?_⟩
      rw [hlists, give_new, htaken]
      exact mem_append_right _ hpid
    refine .inl ⟨hc, ?_⟩
    rw [hother c] at hne
    · exact hne
    · intro pid' hpid' hc'
      rw [hpid_eq pid pid' c hc hc'] at hpid'
      exact hpid hpid'
  · intro p pid hpid
    have hp := (mem_lists_child hpid).1
    rw [hnext] at hp
    rw [state_act hact hp (hcall ▸ nofun), hallproc, pid_act hact hp]
    rw [hlists] at hpid
    rcases mem_of_mem_give hpid nofun with hold | ⟨hpq, hnew⟩
    -- The children of a process were not taken by an exit.
    · obtain ⟨halive', hlink⟩ := h.linked p pid hold
      refine ⟨halive', ?_⟩
      intro c hc
      rw [hother c]
      · exact hlink c hc
      · intro pid' hpid' hc'
        rw [← htaken, hpid_eq pid pid' c hc hc'] at hpid'
        cases h.filed.apart _ _ pid hold hpid'
    · cases hpq
      rw [hqpid]
      rw [htaken] at hnew
      exact ⟨halive, fun c hc => horphan pid c hnew hc⟩

/-- A child that its parent reaps goes out of the list, and its call removes it. -/
theorem retain (hcall : s.calls t = .reapRetain c status) : s'.Tree := by
  obtain ⟨ht, hself⟩ := hfresh.busy t (hcall ▸ nofun)
  have hc := hfresh.known t c (hcall ▸ (.head _))
  have hprocs : ∀ p ≠ s.self t, s'.procs p = s.procs p := by
    intro p hp
    rw [hcall] at hact
    cases hact
    exact procs_setProc_of_ne hp
  have hchildren : (s'.procs (s.self t)).children =
      (s.procs (s.self t)).children.filter fun pid => pid ≠ (s.procs c).pid := by
    rw [hcall] at hact
    cases hact
    dsimp only [ProcSystem.setCall]
    rw [procs_setProc_self]
  have hcall' : s'.calls t = .reapRemove c status := by
    rw [hcall] at hact
    cases hact
    exact calls_setCall_self
  have hallproc : s'.allproc = s.allproc :=
    (act_frame hact).allproc (hcall ▸ nofun) (hcall ▸ nofun)
  have hnext : s'.nextProc = s.nextProc := (act_frame hact).nextProc (hcall ▸ nofun)
  have hppid : ∀ d < s.nextProc, (s'.procs d).ppid = (s.procs d).ppid :=
    fun d hd => ppid_act hact hd (hcall ▸ nofun)
  have hlists : s'.lists = update s.lists (.child (s.self t))
      ((s.lists (.child (s.self t))).filter fun pid => pid ≠ (s.procs c).pid) := by
    refine lists_act hfresh hact hnext hself.1 ?_ ?_ ?_ ?_ fun u _ =>
      ⟨update_of_ne (by exact nofun) .., update_of_ne (by exact nofun) ..⟩
    · rw [update_self, lists_child hself.1, hchildren]
    · intro p hp
      rw [hprocs p hp]
      exact ⟨rfl, update_of_ne (mt Place.child.inj hp) ..⟩
    all_goals
      rw [update_of_ne (by exact nofun)]
      dsimp only [lists]
      rw [hcall', hcall]
      rfl
  have hmem : ∀ place pid, pid ∈ s'.lists place → pid ∈ s.lists place := by
    intro place pid hpid
    rw [hlists] at hpid
    by_cases hplace : place = .child (s.self t)
    · rw [hplace, update_self] at hpid
      rw [hplace]
      exact mem_of_mem_filter hpid
    · rw [update_of_ne hplace] at hpid
      exact hpid
  refine h.of_lists (h.made_act hfresh hact (hcall ▸ nofun))
    (h.own_act hact fun d hd hnone => by rw [← hppid d hd]; exact hnone) ?_ ?_
    (fun d hd => hd.act hact) (fun _ => pid_act hact) ?_
    (fun place pid hpid => ⟨place, hmem place pid hpid⟩) ?_ (remove_act hfresh hact)
  · intro pid d hd hne
    rw [hallproc] at hd
    rw [hppid d (hfresh.table pid d hd).1.1] at hne
    exact .inl ⟨hd, hne⟩
  · intro p pid hpid
    have hp := (mem_lists_child hpid).1
    rw [hnext] at hp
    obtain ⟨halive, hlink⟩ := h.linked p pid (hmem _ pid hpid)
    rw [state_act hact hp (hcall ▸ nofun), hallproc, pid_act hact hp]
    refine ⟨halive, ?_⟩
    intro d hd
    rw [hppid d (hfresh.table pid d hd).1.1]
    exact hlink d hd
  · rw [hlists]
    exact h.filed.shrink filter_sublist
  · intro place pid hpid d hd
    rw [hallproc] at hd
    by_cases hpid' : pid = (s.procs c).pid
    · obtain ⟨hd', hdpid⟩ := hfresh.table pid d hd
      rw [hfresh.apart d hd'.1 c hc.1 (hdpid.trans hpid')]
      exact .inr ⟨t, status, hcall'⟩
    refine .inl ⟨place, ?_⟩
    rw [hlists]
    by_cases hplace : place = .child (s.self t)
    · rw [hplace] at hpid ⊢
      rw [update_self, mem_filter]
      exact ⟨hpid, by simpa using hpid'⟩
    · rw [update_of_ne hplace]
      exact hpid

theorem act (hfresh' : s'.Fresh) (hstanding : s.Standing) : s'.Tree := by
  cases hcall : s.calls t
  case cloneInsert c => exact h.insert hfresh hact hfresh' hcall
  case clonePush c => exact h.push hfresh hact hstanding hcall
  case exitStart status => exact h.exit hfresh hact hcall
  case exitReparent children r => exact h.reparent hfresh hact hstanding hcall
  case reapRetain c status => exact h.retain hfresh hact hcall
  all_goals
    refine h.quiet hfresh hact ?_ ?_ ?_ ?_ ?_ <;> rw [hcall] <;> exact nofun

end Tree

end ProcSystem

end Petra.Proc
