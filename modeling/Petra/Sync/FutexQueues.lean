import Petra.Base.Filed
import Petra.Sync.Futex

/-! # The queues of the futex table

Waits, wakes and requeues move waiters in and out of the queues of any keys. A requeue takes
the queue of its first key out of the table, and puts what is left back over whatever is there
then. A wait that ends looks for its waiter under the key it started with.
-/

namespace Petra.Sync

open Base Function List

/-- The sections of calls on any words. `cur` is what the word is read as. -/
inductive FutexOp
  | compare (call : Nat) (isPrivate : Bool) (vmar uaddr : Nat) (cur val bitset : UInt32)
  | append (call : Nat)
  /-- Woken, timed out or interrupted. -/
  | leave (call : Nat)
  | wake (isPrivate : Bool) (vmar uaddr : Nat) (val bitset : UInt32)
  | requeue (isPrivate : Bool) (vmar uaddr uaddr2 : Nat) (val val2 : UInt32)
  | cmpRequeue (isPrivate : Bool) (vmar uaddr uaddr2 : Nat) (val val2 val3 cur : UInt32)

namespace FutexQueues

/-- The calls whose waiters are under a key, in order. -/
def queue (s : FutexQueues) (key : FutexKey) : List Nat := (s.table key).map FutexWaiter.woken

/-- Wake `val` waiters of `key1` and move the next `val2` to `key2`. -/
def requeueWaiters (s : FutexQueues) (key1 key2 : FutexKey) (val val2 : UInt32) : FutexQueues :=
  let waiters := s.table key1
  let table := update s.table key1 []
  let flags := (waiters.take val.toNat).map FutexWaiter.woken
  let waiters := waiters.drop val.toNat
  let table := update table key2 (table key2 ++ waiters.take val2.toNat)
  let waiters := waiters.drop val2.toNat
  { s with
    table := if waiters.isEmpty then table else update table key1 waiters
    woken := fun flag => s.woken flag || flags.contains flag }

/-- One section of a call. A section that its call cannot take now is not a step; a call that
fails changes nothing. -/
def step (s : FutexQueues) : FutexOp → Except Unit FutexQueues
  | .compare call isPrivate vmar uaddr cur val bitset =>
    match s.calls call with
    | .idle =>
      if uaddr % 4 = 0 ∧ bitset ≠ 0 ∧ cur = val then
        .ok (s.setCall call (.compared (FutexKey.new isPrivate vmar uaddr) val bitset))
      else .ok (s.setCall call .returned)
    | _ => .error ()
  | .append call =>
    match s.calls call with
    | .compared key val bitset =>
      .ok ((s.pushWaiter key ⟨call, bitset⟩).setCall call (.waiting key val))
    | _ => .error ()
  | .leave call =>
    match s.calls call with
    | .waiting key _ => .ok ((s.removeWaiter key call).setCall call .returned)
    | _ => .error ()
  | .wake isPrivate vmar uaddr val bitset =>
    if uaddr % 4 = 0 ∧ bitset ≠ 0 then
      .ok (s.wakeWaiters (FutexKey.new isPrivate vmar uaddr) val bitset)
    else .ok s
  | .requeue isPrivate vmar uaddr uaddr2 val val2 =>
    if uaddr % 4 = 0 ∧ uaddr2 % 4 = 0 then
      .ok (s.requeueWaiters (FutexKey.new isPrivate vmar uaddr)
        (FutexKey.new isPrivate vmar uaddr2) val val2)
    else .ok s
  | .cmpRequeue isPrivate vmar uaddr uaddr2 val val2 val3 cur =>
    if uaddr % 4 = 0 ∧ uaddr2 % 4 = 0 ∧ cur = val3 then
      .ok (s.requeueWaiters (FutexKey.new isPrivate vmar uaddr)
        (FutexKey.new isPrivate vmar uaddr2) val val2)
    else .ok s

def initial : FutexQueues where
  table := fun _ => []
  woken := fun _ => false
  calls := fun _ => .idle

/-- A call has started and not finished waiting. -/
def Waits (s : FutexQueues) (call : Nat) : Prop := ∃ key val, s.calls call = .waiting key val

/-- The waiters in the table are those of the calls that wait and are not woken. -/
structure Conserved (s : FutexQueues) : Prop where
  filed : Filed s.queue
  mem : ∀ call, (∃ key, call ∈ s.queue key) ↔ s.Waits call ∧ s.woken call = false
  fresh : ∀ call, s.calls call = .idle ∨ (∃ key val bitset, s.calls call = .compared key val bitset) →
    s.woken call = false

/-! ### When waiters are kept -/

/-- A requeue onto its own key moves nobody or leaves nobody. -/
def KeepsWaiters (s : FutexQueues) (key1 key2 : FutexKey) (val val2 : UInt32) : Prop :=
  key1 ≠ key2 ∨ val2 = 0 ∨ (s.table key1).length ≤ val.toNat + val2.toNat
deriving Decidable

/-- A wait that ends was woken, or its waiter is still under the key it started with. -/
def Careful (s : FutexQueues) : FutexOp → Prop
  | .leave call =>
    match s.calls call with
    | .waiting key _ => s.woken call = true ∨ call ∈ s.queue key
    | _ => True
  | .requeue isPrivate vmar uaddr uaddr2 val val2
  | .cmpRequeue isPrivate vmar uaddr uaddr2 val val2 _ _ =>
    s.KeepsWaiters (FutexKey.new isPrivate vmar uaddr) (FutexKey.new isPrivate vmar uaddr2)
      val val2
  | _ => True

instance (s : FutexQueues) : (op : FutexOp) → Decidable (s.Careful op)
  | .leave call =>
    match h : s.calls call with
    | .waiting key _ => decidable_of_iff (s.woken call = true ∨ call ∈ s.queue key)
        (by simp [Careful, h])
    | .idle => .isTrue (by simp [Careful, h])
    | .compared _ _ _ => .isTrue (by simp [Careful, h])
    | .returned => .isTrue (by simp [Careful, h])
  | .requeue _ _ _ _ _ _ => inferInstanceAs (Decidable (KeepsWaiters ..))
  | .cmpRequeue _ _ _ _ _ _ _ _ => inferInstanceAs (Decidable (KeepsWaiters ..))
  | .compare _ _ _ _ _ _ _ => .isTrue trivial
  | .append _ => .isTrue trivial
  | .wake _ _ _ _ _ => .isTrue trivial

/-! ### Waiters are moved, not lost -/

variable {s s' : FutexQueues} {key key1 key2 : FutexKey} {call : Nat}

theorem queue_of_table {l : List FutexWaiter} (htable : s'.table = update s.table key l) :
    s'.queue = update s.queue key (l.map FutexWaiter.woken) := by
  funext key'
  dsimp only [queue]
  rw [htable]
  by_cases hkey : key' = key
  · subst hkey
    rw [update_self, update_self]
  · rw [update_of_ne hkey, update_of_ne hkey]
    rfl

/-- A waiter stays or is woken. -/
theorem perm_wakeLoop (bitset : UInt32) (left : Nat) (ws : List FutexWaiter) :
    (ws.map FutexWaiter.woken).Perm
      ((wakeLoop bitset left ws).1.map FutexWaiter.woken ++ (wakeLoop bitset left ws).2) := by
  fun_induction wakeLoop bitset left ws with
  | case1 => exact .refl _
  | case2 =>
    rw [append_nil]
  | case3 left w ws hmatch rest flags heq ih =>
    rw [heq] at ih
    exact (ih.cons w.woken).trans perm_middle.symm
  | case4 left w ws hmiss rest flags heq ih =>
    rw [heq] at ih
    exact ih.cons w.woken

namespace Conserved

/-- Some waiters of one key are woken and the others stay. -/
theorem wakes (h : s.Conserved) {rest : List FutexWaiter} {flags : List Nat}
    (hsub : rest.Sublist (s.table key))
    (hperm : (s.queue key).Perm (rest.map FutexWaiter.woken ++ flags)) :
    Conserved { s with
      table := update s.table key rest
      woken := fun flag => s.woken flag || flags.contains flag } := by
  have hqueue : queue { s with
      table := update s.table key rest
      woken := fun flag => s.woken flag || flags.contains flag } =
      update s.queue key (rest.map FutexWaiter.woken) := queue_of_table rfl
  have hnodup := hperm.nodup_iff.mp (h.filed.once key)
  refine ⟨?_, ?_, ?_⟩
  · rw [hqueue]
    exact h.filed.shrink (hsub.map _)
  · intro call
    rw [hqueue, mem_update_iff]
    rw [Bool.or_eq_false_iff, contains_eq_mem, decide_eq_false_iff_not]
    constructor
    · intro hmem
      have hold : ∃ key', call ∈ s.queue key' ∧ (key' = key → call ∉ flags) := by
        rcases hmem with hmem | ⟨key', hkey, hmem⟩
        · refine ⟨key, hperm.mem_iff.mpr (mem_append_left _ hmem), fun _ hflag => ?_⟩
          exact (nodup_append.mp hnodup).2.2 _ hmem _ hflag rfl
        · exact ⟨key', hmem, fun heq => absurd heq hkey⟩
      obtain ⟨key', hin, hflags⟩ := hold
      obtain ⟨hwaits, hwoken⟩ := (h.mem call).mp ⟨key', hin⟩
      refine ⟨hwaits, hwoken, ?_⟩
      intro hflag
      have hkey : call ∈ s.queue key := hperm.mem_iff.mpr (mem_append_right _ hflag)
      exact hflags (h.filed.apart _ _ _ hin hkey) hflag
    · intro hcall
      obtain ⟨hwaits, hwoken, hflag⟩ := hcall
      obtain ⟨key', hin⟩ := (h.mem call).mpr ⟨hwaits, hwoken⟩
      by_cases hkey : key' = key
      · subst hkey
        rcases mem_append.mp (hperm.mem_iff.mp hin) with hrest | hflag'
        · exact .inl hrest
        · exact absurd hflag' hflag
      · exact .inr ⟨key', hkey, hin⟩
  · intro call hcall
    dsimp only at hcall ⊢
    rw [h.fresh call hcall, Bool.false_or, contains_eq_mem, decide_eq_false_iff_not]
    -- A call that does not wait has no waiter that could be woken.
    intro hflag
    obtain ⟨⟨key', val, hwaiting⟩, -⟩ :=
      (h.mem call).mp ⟨key, hperm.mem_iff.mpr (mem_append_right _ hflag)⟩
    rcases hcall with hidle | ⟨_, _, _, hcompared⟩
    · rw [hwaiting] at hidle
      cases hidle
    · rw [hwaiting] at hcompared
      cases hcompared

theorem wakeWaiters (h : s.Conserved) (key : FutexKey) (val bitset : UInt32) :
    (s.wakeWaiters key val bitset).Conserved :=
  h.wakes (sublist_wakeLoop bitset val.toNat (s.table key))
    (perm_wakeLoop bitset val.toNat (s.table key))

/-- The calls and flags stay, and the same waiters are in the table. -/
theorem of_same (h : s.Conserved) (hfiled : Filed s'.queue) (hcalls : s'.calls = s.calls)
    (hwoken : s'.woken = s.woken)
    (hmem : ∀ call, (∃ key, call ∈ s'.queue key) ↔ ∃ key, call ∈ s.queue key) : s'.Conserved := by
  refine ⟨hfiled, ?_, ?_⟩
  · intro call
    rw [hmem, h.mem]
    unfold Waits
    rw [hcalls, hwoken]
  · rw [hcalls, hwoken]
    exact h.fresh

end Conserved

/-- The second part of a requeue: the next `val2` waiters of `key1` go to `key2`. -/
def moveWaiters (s : FutexQueues) (key1 key2 : FutexKey) (val2 : Nat) : FutexQueues :=
  let waiters := s.table key1
  let table := update s.table key1 []
  let table := update table key2 (table key2 ++ waiters.take val2)
  let waiters := waiters.drop val2
  { s with table := if waiters.isEmpty then table else update table key1 waiters }

theorem requeueWaiters_eq (s : FutexQueues) (key1 key2 : FutexKey) (val val2 : UInt32) :
    s.requeueWaiters key1 key2 val val2 = moveWaiters { s with
        table := update s.table key1 ((s.table key1).drop val.toNat)
        woken := fun flag => s.woken flag ||
          ((s.table key1).take val.toNat |>.map FutexWaiter.woken).contains flag }
        key1 key2 val2.toNat := by
  simp only [requeueWaiters, moveWaiters, update_self, update_idem]

/-- Between two keys, some waiters go to the end of the other queue and the others stay. -/
theorem moveWaiters_table (hkeys : key1 ≠ key2) (val2 : Nat) :
    (s.moveWaiters key1 key2 val2).table =
      update (update s.table key1 ((s.table key1).drop val2)) key2
        (s.table key2 ++ (s.table key1).take val2) := by
  funext key
  simp only [moveWaiters, update_of_ne hkeys.symm]
  by_cases hleft : ((s.table key1).drop val2).isEmpty = true
  · rw [if_pos hleft, isEmpty_iff.mp hleft]
  · rw [if_neg hleft, update_comm hkeys, update_idem, update_comm hkeys.symm]

/-- On one key, a move that takes all waiters or none changes nothing. -/
theorem moveWaiters_self {val2 : Nat} (h : val2 = 0 ∨ (s.table key).length ≤ val2) :
    s.moveWaiters key key val2 = s := by
  have htable : (if ((s.table key).drop val2).isEmpty then
      update s.table key ((s.table key).take val2)
      else update s.table key ((s.table key).drop val2)) = s.table := by
    rcases h with rfl | hall
    · rw [drop_zero, take_zero]
      split_ifs with hempty
      · rw [← isEmpty_iff.mp hempty, update_eq_self]
      · exact update_eq_self ..
    · rw [drop_of_length_le hall, take_of_length_le hall]
      exact update_eq_self ..
  simp only [moveWaiters, update_self, update_idem, nil_append, htable]

namespace Conserved

variable (h : s.Conserved)

include h

theorem moveWaiters {val2 : Nat} (hkeeps : key1 ≠ key2 ∨ val2 = 0 ∨ (s.table key1).length ≤ val2) :
    (s.moveWaiters key1 key2 val2).Conserved := by
  by_cases hkeys : key1 = key2
  · subst hkeys
    rw [moveWaiters_self (hkeeps.resolve_left fun hne => hne rfl)]
    exact h
  have htable := @moveWaiters_table s key1 key2 hkeys val2
  have hqueue : (s.moveWaiters key1 key2 val2).queue =
      update (update s.queue key1 ((s.queue key1).drop val2)) key2
        (s.queue key2 ++ (s.queue key1).take val2) := by
    refine (queue_of_table (s := { s with
      table := update s.table key1 ((s.table key1).drop val2) }) htable).trans ?_
    rw [queue_of_table (s := s) rfl, map_drop, map_append, map_take]
    rfl
  have hsplit : s.queue key1 = (s.queue key1).take val2 ++ (s.queue key1).drop val2 :=
    (take_append_drop ..).symm
  refine h.of_same ?_ rfl rfl fun call => ?_ <;> rw [hqueue]
  · exact h.filed.split hkeys hsplit
  · exact mem_split hkeys hsplit

theorem requeueWaiters {val val2 : UInt32} (hkeeps : s.KeepsWaiters key1 key2 val val2) :
    (s.requeueWaiters key1 key2 val val2).Conserved := by
  rw [requeueWaiters_eq]
  have hsplit : (s.queue key1).Perm (((s.table key1).drop val.toNat).map FutexWaiter.woken ++
      ((s.table key1).take val.toNat).map FutexWaiter.woken) := by
    rw [← map_append]
    refine List.Perm.map _ ?_
    exact (List.Perm.of_eq (take_append_drop ..).symm).trans perm_append_comm
  refine (h.wakes (drop_sublist ..) hsplit).moveWaiters ?_
  rcases hkeeps with hkeys | hnone | hall
  · exact .inl hkeys
  · right
    left
    rw [hnone]
    rfl
  · right
    right
    dsimp only
    rw [update_self, length_drop]
    omega

theorem pushWaiter {val bitset : UInt32} (hcall : s.calls call = .compared key val bitset) :
    ((s.pushWaiter key ⟨call, bitset⟩).setCall call (.waiting key val)).Conserved := by
  have hnew : ∀ key', call ∉ s.queue key' := by
    intro key' hmem
    obtain ⟨⟨_, _, hwaiting⟩, -⟩ := (h.mem call).mp ⟨key', hmem⟩
    rw [hcall] at hwaiting
    cases hwaiting
  have hqueue : ((s.pushWaiter key ⟨call, bitset⟩).setCall call (.waiting key val)).queue =
      update s.queue key (s.queue key ++ [call]) := by
    refine (queue_of_table rfl).trans ?_
    rw [map_append]
    rfl
  refine ⟨?_, ?_, ?_⟩
  · rw [hqueue]
    refine h.filed.update ?_ ?_
    · rw [nodup_append]
      refine ⟨h.filed.once key, nodup_singleton _, ?_⟩
      intro a ha b hb heq
      rw [mem_singleton.mp hb] at heq
      exact hnew key (heq ▸ ha)
    · intro a ha key' hkey'
      rcases mem_append.mp ha with ha | ha
      · exact h.filed.apart _ _ a hkey' ha
      · rw [mem_singleton.mp ha] at hkey'
        exact absurd hkey' (hnew key')
  · intro other
    rw [hqueue, mem_update_iff]
    have hold : (other ∈ s.queue key ++ [call] ∨ ∃ key', key' ≠ key ∧ other ∈ s.queue key') ↔
        other = call ∨ ∃ key', other ∈ s.queue key' := by
      rw [mem_append, mem_singleton]
      constructor
      · intro hmem
        rcases hmem with (hmem | rfl) | ⟨key', -, hmem⟩
        · exact .inr ⟨key, hmem⟩
        · exact .inl rfl
        · exact .inr ⟨key', hmem⟩
      · intro hmem
        rcases hmem with rfl | ⟨key', hmem⟩
        · exact .inl (.inr rfl)
        · by_cases hkey : key' = key
          · exact .inl (.inl (hkey ▸ hmem))
          · exact .inr ⟨key', hkey, hmem⟩
    rw [hold, h.mem]
    dsimp only [Waits, setCall]
    by_cases hsame : other = call
    · subst hsame
      rw [update_self]
      refine ⟨fun _ => ⟨⟨_, _, rfl⟩, ?_⟩, fun _ => .inl rfl⟩
      exact h.fresh other (.inr ⟨_, _, _, hcall⟩)
    · rw [update_of_ne hsame]
      exact ⟨fun hmem => hmem.resolve_left hsame, .inr⟩
  · intro other hother
    refine h.fresh other ?_
    dsimp only [setCall] at hother
    by_cases hsame : other = call
    · subst hsame
      exact .inr ⟨_, _, _, hcall⟩
    · rwa [update_of_ne hsame] at hother

/-- A wait ends: its waiter is gone already, or it is where the call looks for it. -/
theorem leave {val : UInt32} (hcall : s.calls call = .waiting key val)
    (hcareful : s.woken call = true ∨ call ∈ s.queue key) :
    ((s.removeWaiter key call).setCall call .returned).Conserved := by
  have hqueue : ((s.removeWaiter key call).setCall call .returned).queue =
      update s.queue key ((s.queue key).filter fun other => other ≠ call) := by
    refine (queue_of_table rfl).trans ?_
    congr 1
    unfold queue
    rw [filter_map]
    rfl
  have hgone : ∀ key', call ∈ s.queue key' → key' = key := by
    intro key' hmem
    rcases hcareful with hwoken | hin
    · have hnot := ((h.mem call).mp ⟨key', hmem⟩).2
      rw [hwoken] at hnot
      cases hnot
    · exact h.filed.apart _ _ call hmem hin
  refine ⟨?_, ?_, ?_⟩
  · rw [hqueue]
    exact h.filed.shrink filter_sublist
  · intro other
    rw [hqueue, mem_update_iff]
    dsimp only [Waits, setCall]
    by_cases hsame : other = call
    · subst hsame
      rw [update_self]
      constructor
      · intro hmem
        rcases hmem with hmem | ⟨key', hne, hmem⟩
        · simp at hmem
        · exact absurd (hgone key' hmem) hne
      · intro hwaits
        obtain ⟨⟨_, _, hwaiting⟩, -⟩ := hwaits
        cases hwaiting
    · rw [update_of_ne hsame]
      refine Iff.trans ?_ (h.mem other)
      constructor
      · intro hmem
        rcases hmem with hmem | ⟨key', -, hmem⟩
        · exact ⟨key, (mem_filter.mp hmem).1⟩
        · exact ⟨key', hmem⟩
      intro hmem
      obtain ⟨key', hmem⟩ := hmem
      by_cases hkey : key' = key
      · subst hkey
        exact .inl (mem_filter.mpr ⟨hmem, by simpa using hsame⟩)
      · exact .inr ⟨key', hkey, hmem⟩
  · intro other hother
    refine h.fresh other ?_
    dsimp only [setCall] at hother
    by_cases hsame : other = call
    · subst hsame
      rw [update_self] at hother
      rcases hother with hother | ⟨_, _, _, hother⟩
      · cases hother
      · cases hother
    · rwa [update_of_ne hsame] at hother

/-- A call that has not waited is settled otherwise. -/
theorem setCall {c : WaitCall} (hidle : s.calls call = .idle) (hc : ∀ key val, c ≠ .waiting key val) :
    (s.setCall call c).Conserved := by
  refine ⟨h.filed, ?_, ?_⟩
  · intro other
    refine (h.mem other).trans ?_
    dsimp only [Waits, FutexQueues.setCall]
    by_cases hsame : other = call
    · subst hsame
      rw [update_self]
      constructor
      · intro hwaits
        obtain ⟨⟨_, _, hwaiting⟩, -⟩ := hwaits
        rw [hidle] at hwaiting
        cases hwaiting
      · intro hwaits
        obtain ⟨⟨key, val, hwaiting⟩, -⟩ := hwaits
        exact absurd hwaiting (hc key val)
    · rw [update_of_ne hsame]
  · intro other hother
    refine h.fresh other ?_
    dsimp only [FutexQueues.setCall] at hother
    by_cases hsame : other = call
    · exact .inl (hsame ▸ hidle)
    · rwa [update_of_ne hsame] at hother

/-- The table and the calls that wait stay in step. -/
theorem step {op : FutexOp} (hcareful : s.Careful op) (hstep : s.step op = .ok s') :
    s'.Conserved := by
  cases op <;> simp only [FutexQueues.step] at hstep
  case compare call isPrivate vmar uaddr cur val bitset =>
    split at hstep
    next hcall =>
      split_ifs at hstep <;> cases hstep
      all_goals exact h.setCall hcall nofun
    · cases hstep
  case append call =>
    split at hstep
    next hcall =>
      cases hstep
      exact h.pushWaiter hcall
    · cases hstep
  case leave call =>
    split at hstep
    next hcall =>
      cases hstep
      refine h.leave hcall ?_
      simpa only [Careful, hcall] using hcareful
    · cases hstep
  case wake isPrivate vmar uaddr val bitset =>
    split_ifs at hstep
    · cases hstep
      exact h.wakeWaiters _ _ _
    · cases hstep
      exact h
  case requeue | cmpRequeue =>
    split_ifs at hstep
    · cases hstep
      exact h.requeueWaiters hcareful
    · cases hstep
      exact h

end Conserved

/-- Whoever is under the first key after a requeue was there before, in the same order. -/
theorem sublist_requeueWaiters (s : FutexQueues) (key1 key2 : FutexKey) (val val2 : UInt32)
    (hkeeps : s.KeepsWaiters key1 key2 val val2) :
    ((s.requeueWaiters key1 key2 val val2).queue key1).Sublist (s.queue key1) := by
  rw [requeueWaiters_eq]
  by_cases hkeys : key1 = key2
  · subst hkeys
    rw [moveWaiters_self]
    · dsimp only [queue]
      rw [update_self]
      exact (drop_sublist ..).map _
    refine (hkeeps.resolve_left fun hne => hne rfl).imp (fun hnone => ?_) fun hall => ?_
    · rw [hnone]
      rfl
    · dsimp only
      rw [update_self, length_drop]
      omega
  · dsimp only [queue]
    rw [moveWaiters_table hkeys, update_of_ne hkeys, update_self]
    dsimp only
    rw [update_self]
    exact ((drop_sublist ..).trans (drop_sublist ..)).map _

/-- The keys of a requeue. -/
def requeueKeys : FutexOp → Option (FutexKey × FutexKey)
  | .requeue isPrivate vmar uaddr uaddr2 _ _ | .cmpRequeue isPrivate vmar uaddr uaddr2 _ _ _ _ =>
    some (FutexKey.new isPrivate vmar uaddr, FutexKey.new isPrivate vmar uaddr2)
  | _ => none

theorem sublist_step {op : FutexOp} (hcareful : s.Careful op) (hstep : s.step op = .ok s')
    (hkeys : requeueKeys op = some (key1, key2)) : (s'.queue key1).Sublist (s.queue key1) := by
  cases op with
  | requeue isPrivate vmar uaddr uaddr2 val val2
  | cmpRequeue isPrivate vmar uaddr uaddr2 val val2 val3 cur =>
    cases hkeys
    simp only [step] at hstep
    split_ifs at hstep
    · cases hstep
      exact sublist_requeueWaiters s _ _ _ _ hcareful
    · cases hstep
      exact List.Sublist.refl _
  | compare | append | leave | wake => cases hkeys

theorem conserved_initial : initial.Conserved where
  filed := ⟨fun _ => nodup_nil, nofun⟩
  mem call := by
    constructor
    · intro hmem
      obtain ⟨_, hmem⟩ := hmem
      cases hmem
    · intro hwaits
      obtain ⟨⟨_, _, hwaiting⟩, -⟩ := hwaits
      cases hwaiting
  fresh _ _ := rfl

/-- **Waiters are conserved.** In a run in which a requeue onto its own key moves nobody or
leaves nobody, and a wait ends woken or with its waiter where it was first put, every call that
waits is woken or in exactly one queue, a call that has returned is in none, and a requeue does
not change the order of the waiters that stay. -/
theorem conserved_of_visits {s₀ : FutexQueues} (h₀ : s₀.Conserved) (h : Visits step Careful s₀ s) :
    (∀ call, s.Waits call → (s.woken call = true ∧ ∀ key, call ∉ s.queue key) ∨
        s.woken call = false ∧ ∃ key, (s.queue key).count call = 1 ∧
          ∀ key', key' ≠ key → call ∉ s.queue key') ∧
    (∀ call, s.calls call = .returned → ∀ key, call ∉ s.queue key) ∧
    ∀ op s' key1 key2, s.Careful op → s.step op = .ok s' →
      requeueKeys op = some (key1, key2) → (s'.queue key1).Sublist (s.queue key1) := by
  have hs := h.invariant (I := Conserved) h₀ fun _ _ _ hs hop hstep => hs.step hop hstep
  refine ⟨?_, ?_, fun op s' key1 key2 hop hstep hkeys => sublist_step hop hstep hkeys⟩
  · intro call hwaits
    cases hwoken : s.woken call with
    | true =>
      refine .inl ⟨rfl, fun key hmem => ?_⟩
      have hnot := ((hs.mem call).mp ⟨key, hmem⟩).2
      rw [hwoken] at hnot
      cases hnot
    | false =>
      obtain ⟨key, hmem⟩ := (hs.mem call).mpr ⟨hwaits, hwoken⟩
      refine .inr ⟨rfl, key, count_eq_one_of_mem (hs.filed.once key) hmem, ?_⟩
      exact fun key' hne hmem' => hne (hs.filed.apart _ _ call hmem' hmem)
  · intro call hreturned key hmem
    obtain ⟨⟨_, _, hwaiting⟩, -⟩ := (hs.mem call).mp ⟨key, hmem⟩
    rw [hreturned] at hwaiting
    cases hwaiting

/-- Two calls wait, the first is moved to another key, and the second times out. -/
def movedAndLeft : List FutexOp :=
  [.compare 0 true 4096 64 7 7 futexBitsetMatchAny, .append 0,
    .compare 1 true 4096 64 7 7 futexBitsetMatchAny, .append 1,
    .requeue true 4096 64 128 0 1, .leave 1]

theorem conserved_movedAndLeft : ∃ s, Visits step Careful initial s ∧
    (s.queue ⟨4096, 64⟩, s.queue ⟨4096, 128⟩, s.calls 1) = ([], [0], .returned) ∧
    ((s.woken 0 = true ∧ ∀ key, 0 ∉ s.queue key) ∨
      s.woken 0 = false ∧ ∃ key, (s.queue key).count 0 = 1 ∧
        ∀ key', key' ≠ key → 0 ∉ s.queue key') ∧ ∀ key, 1 ∉ s.queue key := by
  obtain ⟨s, hvisits, hqueues, hcall, hdone⟩ := exists_visits step Careful initial movedAndLeft
    (fun s => (s.queue ⟨4096, 64⟩, s.queue ⟨4096, 128⟩, s.calls 1) = ([], [0], .returned) ∧
      s.calls 0 = .waiting ⟨4096, 64⟩ 7 ∧ s.calls 1 = .returned) (by decide)
  obtain ⟨hwaits, hreturned, -⟩ := conserved_of_visits conserved_initial hvisits
  exact ⟨s, hvisits, hqueues, hwaits 0 ⟨_, _, hcall⟩, hreturned 1 hdone⟩

/-- The first call is moved to another key and times out there. -/
def movedAndGone : List FutexOp :=
  [.compare 0 true 4096 64 7 7 futexBitsetMatchAny, .append 0,
    .requeue true 4096 64 128 0 1, .leave 0]

/-- Of two calls under one key, a requeue onto this key is to move one. -/
def movedOntoItself : List FutexOp :=
  [.compare 0 true 4096 64 7 7 futexBitsetMatchAny, .append 0,
    .compare 1 true 4096 64 7 7 futexBitsetMatchAny, .append 1,
    .requeue true 4096 64 64 0 1]

/-- The call has returned and its waiter is still in the table. In the other run the call that
was to be moved waits, is not woken, and is under no key. -/
theorem not_conserved_moved : (∃ s, run step initial movedAndGone = .ok s ∧ s.calls 0 = .returned ∧
      0 ∈ s.queue ⟨4096, 128⟩) ∧
    ∃ s, run step initial movedOntoItself = .ok s ∧ s.Waits 0 ∧ s.woken 0 = false ∧
      ∀ key, 0 ∉ s.queue key := by
  constructor
  · exact exists_ok _ _ (by decide)
  · refine ⟨_, rfl, ⟨_, _, rfl⟩, rfl, ?_⟩
    intro key
    by_cases hkey : key = ⟨4096, 64⟩
    · subst hkey
      decide
    · -- No other key was used.
      simp [queue, requeueWaiters, pushWaiter, setCall, FutexKey.new, initial, hkey]

end FutexQueues

end Petra.Sync
