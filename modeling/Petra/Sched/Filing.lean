import Petra.Sched.RunQueue

/-! # Where tasks are filed

Every queued task can be found again: a fair task under the key its entity has now, a
real-time task in one of the queues whose bit is set. No task is there twice.
-/

namespace Petra.Sched

open Base Function List SortedMap Option RunQueue RqState

/-! ### The real-time queues -/

section Levels

variable {α : Type} {f g : Nat → List α} {n p : Nat} {a : α}

/-- Two families of lists, of which one has one more element in one list. -/
theorem flatMap_range_perm_cons (hp : p < n) (hsame : ∀ q ≠ p, f q = g q)
    (hmore : (f p).Perm (a :: g p)) :
    ((range n).flatMap f).Perm (a :: (range n).flatMap g) := by
  have hsplit : ∀ f : Nat → List α,
      ((range n).flatMap f).Perm (f p ++ ((range n).erase p).flatMap f) := by
    intro f
    simpa using (perm_cons_erase (mem_range.mpr hp)).flatMap_right f
  have hrest : ((range n).erase p).flatMap f = ((range n).erase p).flatMap g := by
    apply flatMap_congr
    intro q hq
    exact hsame q (nodup_range.mem_erase_iff.mp hq).1
  refine (hsplit f).trans ?_
  rw [hrest]
  exact (hmore.append_right _).trans ((hsplit g).symm.cons a)

/-- What holds of the new element and of the old ones holds of all. -/
theorem forall_mem_of_perm_cons {P : α → Prop} {l l' : List α} (hperm : l'.Perm (a :: l))
    (ha : P a) (h : ∀ b ∈ l, P b) : ∀ b ∈ l', P b := by
  intro b hb
  exact forall_mem_cons.mpr ⟨ha, h⟩ b (hperm.mem_iff.mp hb)

/-- The first element that meets a test stands in front of the others. -/
theorem perm_cons_eraseP {test : α → Bool} {l : List α} (h : l.find? test = some a) :
    l.Perm (a :: l.eraseP test) := by
  induction l with
  | nil => cases h
  | cons b l ih =>
    cases htest : test b with
    | true =>
      rw [find?_cons_of_pos htest] at h
      cases h
      rw [eraseP_cons_of_pos htest]
    | false =>
      rw [find?_cons_of_neg (by simp [htest])] at h
      rw [eraseP_cons_of_neg (by simp [htest])]
      exact ((ih h).cons b).trans (List.Perm.swap a b _)

end Levels

namespace RtRunQueue

variable {q q' : RtRunQueue} {entry e : SchedEntry} {prio task : Nat} {prios : List Nat}

def entries (q : RtRunQueue) : List SchedEntry := (List.range 100).flatMap q.prioQueues

structure Wf (q : RtRunQueue) : Prop where
  bitmap : ∀ p, q.prioBitmap p = true ↔ q.prioQueues p ≠ []
  level : ∀ p, q.prioQueues p ≠ [] → 1 ≤ p ∧ p < 100
  count : q.nrRunning = q.entries.length

theorem wf_new : new.Wf where
  bitmap p := by simp [new]
  level p h := absurd rfl h
  count := by simp [new, entries]

theorem entries_pushBack (h : prio < 100) :
    (q.pushBack prio entry).entries.Perm (entry :: q.entries) := by
  refine flatMap_range_perm_cons h (fun p hp => update_of_ne hp _ _) ?_
  change (update q.prioQueues prio (q.prioQueues prio ++ [entry]) prio).Perm _
  rw [update_self]
  exact perm_append_singleton ..

theorem Wf.pushBack (h : q.Wf) (hlow : 1 ≤ prio) (hhigh : prio < 100) :
    (q.pushBack prio entry).Wf where
  bitmap p := by
    by_cases hp : p = prio
    · subst hp
      simp [RtRunQueue.pushBack]
    · simpa [RtRunQueue.pushBack, update_of_ne hp] using h.bitmap p
  level p := by
    by_cases hp : p = prio
    · subst hp
      exact fun _ => ⟨hlow, hhigh⟩
    · simpa [RtRunQueue.pushBack, update_of_ne hp] using h.level p
  count := by
    rw [(entries_pushBack hhigh).length_eq, length_cons, ← h.count]
    rfl

/-- A queue that holds a task gives it up. -/
theorem remove_spec (h : q.Wf) (hfind : (q.prioQueues prio).find? (fun e => e.task = task) = some e) :
    e.task = task ∧ (q.remove prio task).Wf ∧ q.entries.Perm (e :: (q.remove prio task).entries) := by
  have hmem := mem_of_find?_eq_some hfind
  have htask : e.task = task := by simpa using find?_some hfind
  obtain ⟨hlow, hhigh⟩ := h.level prio (ne_nil_of_mem hmem)
  have hperm : q.entries.Perm (e :: (q.remove prio task).entries) := by
    refine flatMap_range_perm_cons hhigh (fun p hp => (update_of_ne hp _ _).symm) ?_
    change (q.prioQueues prio).Perm (e :: update q.prioQueues prio _ prio)
    rw [update_self]
    exact perm_cons_eraseP hfind
  refine ⟨htask, ⟨?_, ?_, ?_⟩, hperm⟩
  · intro p
    by_cases hp : p = prio
    · subst hp
      by_cases hrest : (q.prioQueues p).eraseP (fun e => e.task = task) = []
      · simp [remove, hrest]
      · simp only [remove, hrest, update_self]
        exact iff_of_true ((h.bitmap p).mpr (ne_nil_of_mem hmem)) hrest
    · have hbit : (q.remove prio task).prioBitmap p = q.prioBitmap p := by
        simp only [remove]
        split_ifs
        · rw [update_of_ne hp]
        · rfl
      rw [hbit, h.bitmap p]
      simp [remove, update_of_ne hp]
  · intro p hne
    by_cases hp : p = prio
    · subst hp
      exact ⟨hlow, hhigh⟩
    · apply h.level p
      simpa [remove, update_of_ne hp] using hne
  · have hlen := hperm.length_eq
    have hcount := h.count
    rw [length_cons] at hlen
    change q.nrRunning - 1 = _
    omega

theorem dequeueIn_spec (h : q.Wf) (hrun : q.dequeueIn task prios = some (e, q')) :
    e.task = task ∧ q'.Wf ∧ q.entries.Perm (e :: q'.entries) := by
  induction prios with
  | nil => cases hrun
  | cons prio prios ih =>
    unfold dequeueIn at hrun
    split_ifs at hrun with hbit
    · exact ih hrun
    split at hrun
    · exact ih hrun
    next found hfind =>
      cases hrun
      exact remove_spec h hfind

theorem dequeue_spec (h : q.Wf) (hrun : q.dequeue task = some (e, q')) :
    e.task = task ∧ q'.Wf ∧ q.entries.Perm (e :: q'.entries) := by
  unfold dequeue at hrun
  split_ifs at hrun
  exact dequeueIn_spec h hrun

theorem dequeueIn_isSome (h : q.Wf) (hprio : prio ∈ prios)
    (hmem : e ∈ q.prioQueues prio) : (q.dequeueIn e.task prios).isSome := by
  induction prios with
  | nil => cases hprio
  | cons prio' prios ih =>
    unfold dequeueIn
    by_cases hsame : prio = prio'
    · subst hsame
      have hbit := (h.bitmap prio).mpr (ne_nil_of_mem hmem)
      obtain ⟨found, hfound⟩ : ∃ found,
          (q.prioQueues prio).find? (fun e' => e'.task = e.task) = some found := by
        rw [← isSome_iff_exists, find?_isSome]
        exact ⟨e, hmem, by simp⟩
      simp [hbit, hfound]
    · have hrest := ih ((mem_cons.mp hprio).resolve_left hsame)
      split_ifs
      · exact hrest
      · cases (q.prioQueues prio').find? (fun e' => e'.task = e.task) with
        | none => exact hrest
        | some _ => rfl

theorem mem_entries : e ∈ q.entries ↔ ∃ p < 100, e ∈ q.prioQueues p := by
  simp [entries]

/-- A queued task is found. -/
theorem dequeue_isSome (h : q.Wf) (hmem : e ∈ q.entries) : (q.dequeue e.task).isSome := by
  obtain ⟨prio, -, hqueue⟩ := mem_entries.mp hmem
  obtain ⟨hlow, hhigh⟩ := h.level prio (ne_nil_of_mem hqueue)
  have hcount : q.nrRunning ≠ 0 := by
    rw [h.count]
    exact (length_pos_of_mem hmem).ne'
  unfold dequeue
  rw [if_neg hcount]
  refine dequeueIn_isSome h ?_ hqueue
  simp only [mem_reverse, mem_range'_1]
  omega

theorem mem_of_pickNext (h : q.Wf) (hpick : q.pickNext = some e) : e ∈ q.entries := by
  obtain ⟨highest, hhighest, hhead⟩ := bind_eq_some_iff.mp hpick
  have hmem : e ∈ q.prioQueues highest := mem_of_mem_head? (by simpa using hhead)
  exact mem_entries.mpr ⟨highest, (h.level highest (ne_nil_of_mem hmem)).2, hmem⟩

end RtRunQueue

/-! ### The fair queue -/

namespace EevdfRunQueue

variable {q q' : EevdfRunQueue} {ents : Entities} {entry e : SchedEntry}

/-- Every task is filed under the key it has now. -/
def Keyed (q : EevdfRunQueue) (ents : Entities) : Prop :=
  ∀ kv ∈ q.queued.entries, kv.1 = EevdfRunKey.of ents kv.2 false

theorem seq_of_key {ents : Entities} {a b : SchedEntry}
    (h : EevdfRunKey.of ents a false = EevdfRunKey.of ents b false) :
    (ents a.task).seq = (ents b.task).seq := by
  simp only [EevdfRunKey.of] at h
  have hpair := congrArg ofLex h
  simp only [ofLex_toLex, Prod.mk.injEq] at hpair
  have hinner := congrArg ofLex hpair.2
  simp only [ofLex_toLex, Prod.mk.injEq] at hinner
  exact hinner.2

theorem get?_of_mem (h : q.Keyed ents) (hmem : e ∈ q.queued.values) :
    q.queued.get? (EevdfRunKey.of ents e false) = some e := by
  obtain ⟨⟨key, e'⟩, hkv, rfl⟩ := mem_map.mp hmem
  rw [get?_eq_some, ← h _ hkv]
  exact hkv

/-- There is room under the key of a task that is not queued. -/
theorem get?_eq_none_of_not_mem (h : q.Keyed ents) (hseq : Function.Injective fun t => (ents t).seq)
    (hnew : entry.task ∉ q.queued.values.map SchedEntry.task) :
    q.queued.get? (EevdfRunKey.of ents entry false) = none := by
  rw [get?_eq_none]
  intro kv hkv heq
  apply hnew
  have htask : kv.2.task = entry.task := hseq (seq_of_key ((h kv hkv).symm.trans heq))
  rw [← htask]
  exact mem_map.mpr ⟨kv.2, mem_map.mpr ⟨kv, hkv, rfl⟩, rfl⟩

theorem queued_advanceMinVruntime (q : EevdfRunQueue) (ents : Entities) :
    (q.advanceMinVruntime ents).queued = q.queued ∧
      (q.advanceMinVruntime ents).current = q.current := by
  unfold advanceMinVruntime
  cases (q.active ents).min? with
  | none => exact ⟨rfl, rfl⟩
  | some smallest =>
    dsimp only
    split_ifs
    · exact ⟨rfl, rfl⟩
    · exact ⟨rfl, rfl⟩

theorem queued_unaccount (q : EevdfRunQueue) (ents : Entities) (task : Nat) :
    (q.unaccount ents task).queued = q.queued ∧ (q.unaccount ents task).current = q.current := by
  unfold unaccount
  dsimp only
  split_ifs
  · exact queued_advanceMinVruntime _ ents
  · exact ⟨rfl, rfl⟩

theorem values_insert (h : q.queued.get? (EevdfRunKey.of ents entry false) = none) :
    (q.insert ents entry).queued.values.Perm (entry :: q.queued.values) := by
  have hperm := insert_perm q.queued (EevdfRunKey.of ents entry false) entry
  rw [erase_of_get?_none h] at hperm
  exact hperm.map Prod.snd

theorem Keyed.insert (h : q.Keyed ents) : (q.insert ents entry).Keyed ents := by
  intro kv hkv
  rcases mem_insert.mp hkv with rfl | ⟨_, hold⟩
  · rfl
  · exact h kv hold

/-- What is taken out under the key of a queued task is this task. -/
theorem extract_spec (h : q.Keyed ents) (hmem : e ∈ q.queued.values) :
    ∃ q', q.extract ents e = .ok (e, q') ∧ q'.Keyed ents ∧ q'.current = q.current ∧
      q.queued.values.Perm (e :: q'.queued.values) := by
  have hget := get?_of_mem h hmem
  obtain ⟨hqueued, hcurrent⟩ := queued_unaccount
    { q with queued := q.queued.erase (EevdfRunKey.of ents e false) } ents e.task
  refine ⟨_, by simp only [extract, hget], ?_, hcurrent, ?_⟩
  · intro kv hkv
    rw [hqueued] at hkv
    exact h kv (mem_erase.mp hkv).2
  · rw [hqueued]
    exact (perm_erase hget).map Prod.snd

theorem mem_of_best (h : q.best ents = some e) : e ∈ q.queued.values := by
  rcases or_eq_some_iff.mp h with hfind | ⟨_, hhead⟩
  · exact mem_of_find?_eq_some hfind
  · exact mem_of_mem_head? (by simpa using hhead)

end EevdfRunQueue

/-! ### Both classes -/

namespace RunQueue

def queuedEntries (rq : RunQueue) : List SchedEntry := rq.rt.entries ++ rq.eevdf.queued.values

def queuedTasks (rq : RunQueue) : List Nat := rq.queuedEntries.map SchedEntry.task

/-- The running task, unless the CPU idles. -/
def runningTasks (rq : RunQueue) : List Nat :=
  (rq.current.toList.filter fun e => !e.isIdle).map SchedEntry.task

/-- The tasks that are queued or running, each as often as it is there. -/
def tasks (rq : RunQueue) : List Nat := rq.runningTasks ++ rq.queuedTasks

end RunQueue

/-- The entity is filed where it was before. -/
structure SameFiling (e e' : SchedEntity) : Prop where
  isRt : e'.isRt = e.isRt
  vruntime : e'.fair.vruntime = e.fair.vruntime
  deadline : e'.fair.deadline = e.fair.deadline

theorem SameFiling.refl (e : SchedEntity) : SameFiling e e := ⟨rfl, rfl, rfl⟩

/-- The queues are in order. -/
structure Queued (ents : Entities) (rq : RunQueue) : Prop where
  seq : Function.Injective fun t => (ents t).seq
  rt : rq.rt.Wf
  keyed : rq.eevdf.Keyed ents
  rtClass : ∀ e ∈ rq.rt.entries, (ents e.task).isRt = true
  fairClass : ∀ e ∈ rq.eevdf.queued.values, (ents e.task).isRt = false
  notIdle : ∀ e ∈ rq.queuedEntries, e.isIdle = false
  nodup : rq.queuedTasks.Nodup

namespace Queued

variable {ents ents' : Entities} {rq rq' : RunQueue} {entry e : SchedEntry}

variable (h : Queued ents rq) {s : RqState} {now : Nat} {current : SchedEntry}

include h

theorem congr (hrt : rq'.rt = rq.rt) (hqueued : rq'.eevdf.queued = rq.eevdf.queued)
    (hseq : ∀ t, (ents' t).seq = (ents t).seq)
    (hsame : ∀ e ∈ rq.queuedEntries, SameFiling (ents e.task) (ents' e.task)) :
    Queued ents' rq' := by
  have hentries : rq'.queuedEntries = rq.queuedEntries := by
    simp only [queuedEntries, hrt, hqueued]
  refine ⟨?_, hrt ▸ h.rt, ?_, ?_, ?_, ?_, ?_⟩
  · intro t u htu
    exact h.seq (by simpa only [hseq] using htu)
  · intro kv hkv
    rw [hqueued] at hkv
    have hfiled := hsame kv.2 (mem_append_right _ (mem_map.mpr ⟨kv, hkv, rfl⟩))
    rw [h.keyed kv hkv]
    simp only [EevdfRunKey.of, hfiled.vruntime, hfiled.deadline, hseq, Bool.false_eq_true, if_false]
  · intro e he
    rw [hrt] at he
    rw [(hsame e (mem_append_left _ he)).isRt]
    exact h.rtClass e he
  · intro e he
    rw [hqueued] at he
    rw [(hsame e (mem_append_right _ he)).isRt]
    exact h.fairClass e he
  · rw [hentries]
    exact h.notIdle
  · simpa only [queuedTasks, hentries] using h.nodup

/-- A new real-time task in the queue of a level. -/
theorem pushBack (rq' : RunQueue) (entry : SchedEntry) {prio : Nat} (hlow : 1 ≤ prio)
    (hhigh : prio < 100) (hidle : entry.isIdle = false) (hclass : (ents entry.task).isRt = true)
    (hnew : entry.task ∉ rq.queuedTasks) (hrt : rq'.rt = rq.rt.pushBack prio entry)
    (heevdf : rq'.eevdf.queued = rq.eevdf.queued) :
    Queued ents rq' ∧ rq'.queuedTasks.Perm (entry.task :: rq.queuedTasks) := by
  have hentries : rq'.rt.entries.Perm (entry :: rq.rt.entries) := by
    rw [hrt]
    exact RtRunQueue.entries_pushBack hhigh
  have hperm : rq'.queuedEntries.Perm (entry :: rq.queuedEntries) := by
    simp only [queuedEntries, heevdf]
    exact hentries.append_right _
  have htasks := hperm.map SchedEntry.task
  refine ⟨⟨h.seq, hrt ▸ h.rt.pushBack hlow hhigh, ?_, ?_, ?_, ?_, ?_⟩, htasks⟩
  · simpa only [EevdfRunQueue.Keyed, heevdf] using h.keyed
  · exact forall_mem_of_perm_cons hentries hclass h.rtClass
  · rw [heevdf]
    exact h.fairClass
  · exact forall_mem_of_perm_cons hperm hidle h.notIdle
  · exact htasks.nodup_iff.mpr (nodup_cons.mpr ⟨hnew, h.nodup⟩)

/-- A new fair task in the tree. -/
theorem insert (rq' : RunQueue) (entry : SchedEntry) (hidle : entry.isIdle = false)
    (hclass : (ents entry.task).isRt = false) (hnew : entry.task ∉ rq.queuedTasks)
    (hrt : rq'.rt = rq.rt) {q : EevdfRunQueue} (hq : q.queued = rq.eevdf.queued)
    (heevdf : rq'.eevdf.queued = (q.insert ents entry).queued) :
    Queued ents rq' ∧ rq'.queuedTasks.Perm (entry.task :: rq.queuedTasks) := by
  have hkeyed : q.Keyed ents := by
    simpa only [EevdfRunQueue.Keyed, hq] using h.keyed
  have hfree : q.queued.get? (EevdfRunKey.of ents entry false) = none := by
    refine EevdfRunQueue.get?_eq_none_of_not_mem hkeyed h.seq ?_
    intro hmem
    apply hnew
    rw [hq] at hmem
    simp only [queuedTasks, queuedEntries, map_append]
    exact mem_append_right _ hmem
  have hvalues : rq'.eevdf.queued.values.Perm (entry :: rq.eevdf.queued.values) := by
    rw [heevdf, ← hq]
    exact EevdfRunQueue.values_insert hfree
  have hperm : rq'.queuedEntries.Perm (entry :: rq.queuedEntries) := by
    simp only [queuedEntries, hrt]
    exact (hvalues.append_left _).trans perm_middle
  have htasks := hperm.map SchedEntry.task
  refine ⟨⟨h.seq, hrt ▸ h.rt, ?_, ?_, ?_, ?_, ?_⟩, htasks⟩
  · have hnewKeyed : (q.insert ents entry).Keyed ents := hkeyed.insert
    simpa only [EevdfRunQueue.Keyed, heevdf] using hnewKeyed
  · rw [hrt]
    exact h.rtClass
  · exact forall_mem_of_perm_cons hvalues hclass h.fairClass
  · exact forall_mem_of_perm_cons hperm hidle h.notIdle
  · exact htasks.nodup_iff.mpr (nodup_cons.mpr ⟨hnew, h.nodup⟩)

/-- Queues of which one entry was taken. -/
theorem of_perm (rq' : RunQueue) (hrt : rq'.rt.Wf) (hkeyed : rq'.eevdf.Keyed ents)
    (hrtEntries : ∀ e ∈ rq'.rt.entries, e ∈ rq.rt.entries)
    (hfairEntries : ∀ e ∈ rq'.eevdf.queued.values, e ∈ rq.eevdf.queued.values)
    (hperm : rq.queuedEntries.Perm (entry :: rq'.queuedEntries)) :
    Queued ents rq' ∧ rq.queuedTasks.Perm (entry.task :: rq'.queuedTasks) := by
  have htasks := hperm.map SchedEntry.task
  refine ⟨⟨h.seq, hrt, hkeyed, ?_, ?_, ?_, ?_⟩, htasks⟩
  · exact fun e he => h.rtClass e (hrtEntries e he)
  · exact fun e he => h.fairClass e (hfairEntries e he)
  · exact fun e he => h.notIdle e (hperm.mem_iff.mpr (.tail _ he))
  · exact (nodup_cons.mp (htasks.nodup_iff.mp h.nodup)).2

/-- A queued task is taken out of the queue of its class. -/
theorem takeOut (hmem : e ∈ rq.queuedEntries) :
    ∃ e' rq', (RqState.mk ents rq).takeOut e = .ok (e', rq') ∧ e'.task = e.task ∧
      e'.isIdle = false ∧ rq'.current = rq.current ∧ rq'.cpu = rq.cpu ∧
      rq'.eevdf.current = rq.eevdf.current ∧
      Queued ents rq' ∧ rq.queuedTasks.Perm (e.task :: rq'.queuedTasks) := by
  cases hclass : (ents e.task).isRt with
  | true =>
    have hrt : e ∈ rq.rt.entries := by
      rcases mem_append.mp hmem with hrt | hfair
      · exact hrt
      · rw [h.fairClass e hfair] at hclass
        cases hclass
    obtain ⟨⟨e', rt'⟩, hrun⟩ := isSome_iff_exists.mp (RtRunQueue.dequeue_isSome h.rt hrt)
    obtain ⟨htask, hwf, hperm⟩ := RtRunQueue.dequeue_spec h.rt hrun
    have hall : rq.queuedEntries.Perm (e' :: { rq with rt := rt' }.queuedEntries) :=
      hperm.append_right _
    have hmem' : e' ∈ rq.queuedEntries := hall.mem_iff.mpr (.head _)
    obtain ⟨hqueued, htasks⟩ := h.of_perm { rq with rt := rt' } hwf h.keyed
      (fun a ha => hperm.mem_iff.mpr (.tail _ ha)) (fun a ha => ha) hall
    rw [htask] at htasks
    refine ⟨e', { rq with rt := rt' }, ?_, htask, h.notIdle e' hmem', rfl, rfl, rfl, hqueued, htasks⟩
    simp only [RqState.takeOut, RqState.isRt, hclass, if_true, hrun]
  | false =>
    have hfair : e ∈ rq.eevdf.queued.values := by
      rcases mem_append.mp hmem with hrt | hfair
      · rw [h.rtClass e hrt] at hclass
        cases hclass
      · exact hfair
    obtain ⟨q', hrun, hkeyed, hcurrent, hperm⟩ := EevdfRunQueue.extract_spec h.keyed hfair
    have hall : rq.queuedEntries.Perm (e :: { rq with eevdf := q' }.queuedEntries) :=
      (hperm.append_left _).trans perm_middle
    obtain ⟨hqueued, htasks⟩ := h.of_perm { rq with eevdf := q' } h.rt hkeyed (fun a ha => ha)
      (fun a ha => hperm.mem_iff.mpr (.tail _ ha)) hall
    refine ⟨e, { rq with eevdf := q' }, ?_, rfl, h.notIdle e hmem, rfl, rfl, hcurrent, hqueued, htasks⟩
    simp only [RqState.takeOut, RqState.isRt, hclass, hrun, Bool.false_eq_true]
    rfl

/-- Changing the entity of a task. If it is queued, it stays where it is filed. -/
theorem modify (task : Nat) (f : SchedEntity → SchedEntity) (hseq : ∀ e, (f e).seq = e.seq)
    (hsame : task ∈ rq.queuedTasks → SameFiling (ents task) (f (ents task))) :
    Queued (ents.modify task f) rq := by
  refine h.congr rfl rfl ?_ ?_
  · intro t
    by_cases ht : t = task
    · subst ht
      rw [Entities.modify_self, hseq]
    · rw [Entities.modify_of_ne _ _ ht]
  · intro e he
    by_cases ht : e.task = task
    · rw [ht, Entities.modify_self]
      exact hsame (ht ▸ mem_map.mpr ⟨e, he, rfl⟩)
    · rw [Entities.modify_of_ne _ _ ht]
      exact .refl _

omit h in
theorem putBack_fair (hidle : current.isIdle = false)
    (hclass : (s.ents current.task).isRt = false) :
    s.putBack now current = ⟨s.ents, { s.rq with
      eevdf := s.rq.eevdf.insert s.ents { current with arrival := now } }⟩ := by
  simp [putBack, isRt, hidle, hclass]

omit h in
/-- The slice is renewed before the task is queued; its level does not depend on it. -/
theorem putBack_rt (hidle : current.isIdle = false) (hclass : (s.ents current.task).isRt = true) :
    ∃ f : SchedEntity → SchedEntity,
      (∀ e, (f e).seq = e.seq ∧ SameFiling e (f e) ∧ (f e).fair = e.fair) ∧
      s.putBack now current = ⟨s.ents.modify current.task f, { s.rq with
        rt := s.rq.rt.pushBack (s.ents current.task).rt.level { current with arrival := now } }⟩ := by
  by_cases hpolicy : (s.ents current.task).policy = schedRr
  · refine ⟨fun e => { e with rt := e.rt.resetTimeSlice }, fun e => ⟨rfl, ⟨rfl, rfl, rfl⟩, rfl⟩, ?_⟩
    simp only [putBack, isRt, hidle, hclass, hpolicy, if_true, if_false,
      RtRunQueue.yieldTask, RtRunQueue.enqueue, Entities.modify_self, ite_self, Bool.false_eq_true]
    rfl
  refine ⟨id, fun e => ⟨rfl, .refl e, rfl⟩, ?_⟩
  have hid : s.ents.modify current.task id = s.ents := by
    funext t
    simp [Entities.modify]
  simp only [putBack, isRt, hidle, hclass, hpolicy, if_true, if_false, hid,
    RtRunQueue.yieldTask, RtRunQueue.enqueue, ite_self, Bool.false_eq_true]

/-- The task that ran until now is queued again. -/
theorem putBack (hnew : current.isIdle = false → current.task ∉ rq.queuedTasks) {s' : RqState}
    (hs' : (RqState.mk ents rq).putBack now current = s') :
    Queued s'.ents s'.rq ∧ s'.rq.cpu = rq.cpu ∧ (∀ t, (s'.ents t).isRt = (ents t).isRt) ∧
      s'.rq.queuedTasks.Perm (if current.isIdle then rq.queuedTasks
        else current.task :: rq.queuedTasks) := by
  cases hidle : current.isIdle with
  | true =>
    have hsame : s' = ⟨ents, rq⟩ := by
      rw [← hs']
      simp [RqState.putBack, hidle]
    rw [hsame]
    exact ⟨h, rfl, fun _ => rfl, .refl _⟩
  | false =>
    have hnew := hnew hidle
    cases hclass : (ents current.task).isRt with
    | false =>
      rw [putBack_fair hidle hclass] at hs'
      subst hs'
      obtain ⟨hqueued, hperm⟩ := h.insert
        { rq with eevdf := rq.eevdf.insert ents { current with arrival := now } }
        { current with arrival := now } hidle hclass hnew rfl rfl rfl
      exact ⟨hqueued, rfl, fun _ => rfl, hperm⟩
    | true =>
      obtain ⟨f, hf, heq⟩ := @putBack_rt ⟨ents, rq⟩ now current hidle hclass
      rw [heq] at hs'
      subst hs'
      have hisRt : ∀ t, (ents.modify current.task f t).isRt = (ents t).isRt := by
        intro t
        by_cases ht : t = current.task
        · subst ht
          rw [Entities.modify_self]
          exact (hf _).2.1.isRt
        · rw [Entities.modify_of_ne _ _ ht]
      have hmid : Queued (ents.modify current.task f) rq :=
        h.modify current.task f (fun e => (hf e).1) fun _ => (hf _).2.1
      obtain ⟨hlow, hhigh⟩ := (ents current.task).rt.level_bounds
      obtain ⟨hqueued, hperm⟩ := hmid.pushBack
        { rq with
          rt := rq.rt.pushBack (ents current.task).rt.level { current with arrival := now } }
        { current with arrival := now } hlow hhigh hidle
        ((hisRt current.task).trans hclass) hnew rfl rfl
      exact ⟨hqueued, rfl, hisRt, hperm⟩

end Queued

/-! ### The running task -/

/-- The queues are in order, and the running task is not queued. -/
structure Filed (s : RqState) : Prop where
  queued : Queued s.ents s.rq
  apart : ∀ t ∈ s.rq.runningTasks, t ∉ s.rq.queuedTasks
  fairCurrent : ∀ e c, s.rq.eevdf.current = some e → s.rq.current = some c → e = c

namespace Filed

variable {s s' : RqState} {entry e : SchedEntry} {next : SchedEntry} {ents : Entities}

theorem nodup (h : Filed s) : s.rq.tasks.Nodup := by
  have hrunning : s.rq.runningTasks.Nodup := by
    unfold runningTasks
    cases s.rq.current with
    | none => simp
    | some c => cases hidle : c.isIdle <;> simp [hidle]
  exact List.Nodup.append hrunning h.queued.nodup h.apart

/-- The queues and the running task are the same, and the entities as far as it matters. -/
theorem congr (h : Filed s) (s' : RqState) (hcurrent : s'.rq.current = s.rq.current)
    (hfair : s'.rq.eevdf.current = s.rq.eevdf.current) (hrt : s'.rq.rt = s.rq.rt)
    (hqueued : s'.rq.eevdf.queued = s.rq.eevdf.queued)
    (hents : Queued s'.ents s.rq) : Filed s' ∧ s'.rq.tasks = s.rq.tasks := by
  have htasks : s'.rq.queuedTasks = s.rq.queuedTasks := by
    simp only [queuedTasks, queuedEntries, hrt, hqueued]
  have hrunning : s'.rq.runningTasks = s.rq.runningTasks := by
    simp only [runningTasks, hcurrent]
  refine ⟨⟨?_, ?_, ?_⟩, ?_⟩
  · exact hents.congr hrt hqueued (fun _ => rfl) (fun _ _ => .refl _)
  · rw [htasks, hrunning]
    exact h.apart
  · rw [hcurrent, hfair]
    exact h.fairCurrent
  · rw [tasks, tasks, htasks, hrunning]

/-- Charging the running fair task leaves the queue alone. -/
theorem chargeCurrent_spec (q : EevdfRunQueue) (ents : Entities) (deltaNs : Nat) :
    (q.chargeCurrent ents deltaNs).1.queued = q.queued ∧
      (q.chargeCurrent ents deltaNs).1.current = q.current ∧
      ((q.chargeCurrent ents deltaNs).2 = ents ∨ ∃ c, q.current = some c ∧
        (q.chargeCurrent ents deltaNs).2 =
          ents.modify c.task fun e => { e with fair := e.fair.charge deltaNs }) := by
  unfold EevdfRunQueue.chargeCurrent
  split_ifs with hdelta
  · exact ⟨rfl, rfl, .inl rfl⟩
  cases hcurrent : q.current with
  | none => exact ⟨rfl, hcurrent, .inl rfl⟩
  | some c =>
    dsimp only
    split_ifs
    · obtain ⟨hqueued, hsame⟩ := EevdfRunQueue.queued_advanceMinVruntime _ _
      exact ⟨hqueued, hsame, .inr ⟨c, rfl, rfl⟩⟩
    · exact ⟨rfl, rfl, .inr ⟨c, rfl, rfl⟩⟩

theorem chargeNs (h : Filed s) (deltaNs : Nat) :
    Filed (s.chargeNs deltaNs) ∧ (s.chargeNs deltaNs).rq.tasks = s.rq.tasks := by
  unfold RqState.chargeNs
  cases hcurrent : s.rq.current with
  | none => exact ⟨h, rfl⟩
  | some c =>
    dsimp only
    split_ifs with hclass
    · exact ⟨h, rfl⟩
    obtain ⟨hqueued, hfair, hents⟩ := chargeCurrent_spec s.rq.eevdf s.ents deltaNs
    refine h.congr _ rfl hfair rfl hqueued ?_
    rcases hents with hsame | ⟨e, he, hcharged⟩
    · rw [hsame]
      exact h.queued
    -- The fair class charges the task that runs, and this task is not queued.
    rw [hcharged]
    have hec : e = c := h.fairCurrent e c he hcurrent
    subst hec
    refine h.queued.modify e.task (fun e => { e with fair := e.fair.charge deltaNs })
      (fun _ => rfl) fun hmem => absurd hmem (h.apart e.task ?_)
    have hidle : e.isIdle = false := by
      cases hidle : e.isIdle with
      | true => simp [hidle] at hclass
      | false => rfl
    simp [runningTasks, hcurrent, hidle]

theorem charge (h : Filed s) (now : Nat) :
    Filed (s.charge now) ∧ (s.charge now).rq.tasks = s.rq.tasks := by
  obtain ⟨hfiled, htasks⟩ := h.congr { s with rq := { s.rq with lastUpdate := now } }
    rfl rfl rfl rfl h.queued
  unfold RqState.charge
  dsimp only
  split_ifs
  · exact ⟨hfiled, htasks⟩
  · obtain ⟨hfiled', htasks'⟩ := hfiled.chargeNs (satMul (now - s.rq.lastUpdate) nsecPerTick)
    exact ⟨hfiled', htasks'.trans htasks⟩

/-- A tick changes the time slice of the running task alone. -/
theorem tick {rq : RunQueue} (h : Queued ents rq) (q : RtRunQueue)
    (current : SchedEntry) (deltaNs : Nat) : Queued (q.tick ents current deltaNs).2 rq := by
  have hslice : ∀ ents : Entities, Queued ents rq → ∀ slice : Nat,
      Queued (ents.modify current.task fun e =>
        { e with rt := { e.rt with timeSliceNs := slice } }) rq :=
    fun ents hents _ => hents.modify current.task _ (fun _ => rfl) fun _ => ⟨rfl, rfl, rfl⟩
  unfold RtRunQueue.tick
  dsimp only
  split_ifs
  · exact h
  · exact hslice ents h _
  · exact hslice ents h _
  · exact hslice _ (hslice ents h _) defRtTimesliceNs
  · exact h

theorem shouldSwitch (h : Filed s) :
    Filed s.shouldSwitch.2 ∧ s.shouldSwitch.2.rq.tasks = s.rq.tasks := by
  unfold RqState.shouldSwitch
  cases hcurrent : s.rq.current with
  | none => exact ⟨h, rfl⟩
  | some c =>
    dsimp only
    split_ifs
    · exact ⟨h, rfl⟩
    · exact h.congr _ rfl rfl rfl rfl (tick h.queued s.rq.rt c nsecPerTick)
    · exact ⟨h, rfl⟩
    · exact ⟨h, rfl⟩

theorem setParams (h : Filed s) {task : Nat} {policy priority nice : Int}
    (hsame : task ∈ s.rq.queuedTasks →
      SameFiling (s.ents task) ((s.ents task).setParams policy priority nice)) :
    Filed (s.setParams task policy priority nice) := by
  have hseq : ∀ e : SchedEntity, (e.setParams policy priority nice).seq = e.seq := by
    intro e
    unfold SchedEntity.setParams
    split_ifs <;> rfl
  exact (h.congr (s.setParams task policy priority nice) rfl rfl rfl rfl
    (h.queued.modify task _ hseq hsame)).1

section

variable (q : EevdfRunQueue) (ents : Entities) (entry : SchedEntry) (isNew : Bool)

/-- Placing a task sets its virtual runtime and nothing else that matters to its filing. -/
theorem place_ents : ∃ vruntime, (q.place ents entry isNew).2 = ents.modify entry.task fun e =>
      { e with fair := { e.fair with vruntime := vruntime, placed := true } } := ⟨_, rfl⟩

theorem place_spec : ∃ q' : EevdfRunQueue, q'.queued = q.queued ∧ q'.current = q.current ∧
      (q.place ents entry isNew).1 = q'.insert (q.place ents entry isNew).2 entry := by
  by_cases hsum : q.sumWeight = 0
  · have hstart : ∃ minVruntime, (q.place ents entry isNew).1 =
        { q with minVruntime := minVruntime }.insert (q.place ents entry isNew).2 entry := by
      simp only [EevdfRunQueue.place, hsum]
      exact ⟨_, rfl⟩
    obtain ⟨minVruntime, heq⟩ := hstart
    exact ⟨{ q with minVruntime := minVruntime }, rfl, rfl, heq⟩
  · refine ⟨q, rfl, rfl, ?_⟩
    simp only [EevdfRunQueue.place, hsum, if_false]

end

/-- A task that is not there yet is placed. -/
theorem place (h : Filed s) (entry : SchedEntry) (isNew : Bool) (hidle : entry.isIdle = false)
    (hnew : entry.task ∉ s.rq.tasks) : Filed (s.place entry isNew) ∧
      (s.place entry isNew).rq.tasks.Perm (entry.task :: s.rq.tasks) := by
  have hqueue : entry.task ∉ s.rq.queuedTasks := fun hmem => hnew (mem_append_right _ hmem)
  have hrun : entry.task ∉ s.rq.runningTasks := fun hmem => hnew (mem_append_left _ hmem)
  -- Both classes add the task to a queue and leave the running task alone.
  have hassemble : ∀ s' : RqState, s'.rq.current = s.rq.current →
      s'.rq.eevdf.current = s.rq.eevdf.current →
      (Queued s'.ents s'.rq ∧ s'.rq.queuedTasks.Perm (entry.task :: s.rq.queuedTasks)) →
      Filed s' ∧ s'.rq.tasks.Perm (entry.task :: s.rq.tasks) := by
    intro s' hcurrent hfair ⟨hqueued, hperm⟩
    have hrunning : s'.rq.runningTasks = s.rq.runningTasks := by
      simp only [runningTasks, hcurrent]
    refine ⟨⟨hqueued, ?_, ?_⟩, ?_⟩
    · intro t ht hmem
      rw [hrunning] at ht
      rcases mem_cons.mp (hperm.mem_iff.mp hmem) with rfl | hold
      · exact hrun ht
      · exact h.apart t ht hold
    · rw [hcurrent, hfair]
      exact h.fairCurrent
    · rw [tasks, hrunning]
      exact (hperm.append_left _).trans perm_middle
  cases hclass : (s.ents entry.task).isRt with
  | true =>
    obtain ⟨hlow, hhigh⟩ := (s.ents entry.task).rt.level_bounds
    have heq : s.place entry isNew = { s with rq := { s.rq with
        rt := s.rq.rt.pushBack (s.ents entry.task).rt.level entry } } := by
      simp only [RqState.place, RqState.isRt, hclass]
      rfl
    rw [heq]
    exact hassemble _ rfl rfl (h.queued.pushBack _ entry hlow hhigh hidle hclass hqueue rfl rfl)
  | false =>
    have heq : s.place entry isNew = ⟨(s.rq.eevdf.place s.ents entry isNew).2,
        { s.rq with eevdf := (s.rq.eevdf.place s.ents entry isNew).1 }⟩ := by
      simp only [RqState.place, RqState.isRt, hclass, Bool.false_eq_true, if_false]
    rw [heq]
    obtain ⟨q, hq, hfair, hplace⟩ := place_spec s.rq.eevdf s.ents entry isNew
    obtain ⟨vruntime, hents⟩ := place_ents s.rq.eevdf s.ents entry isNew
    have hmid : Queued (s.rq.eevdf.place s.ents entry isNew).2 s.rq := by
      rw [hents]
      exact h.queued.modify entry.task _ (fun e => rfl) fun hmem => absurd hmem hqueue
    have hclass' : ((s.rq.eevdf.place s.ents entry isNew).2 entry.task).isRt = false := by
      rw [hents, Entities.modify_self]
      simpa only [SchedEntity.isRt] using hclass
    refine hassemble _ rfl ?_ (hmid.insert _ entry hidle hclass' hqueue rfl hq (by rw [hplace]))
    rw [hplace]
    exact hfair

/-- `next` starts to run, after the task that ran until now was queued again. -/
theorem dispatch (hqueued : Queued s.ents s.rq) (next : SchedEntry)
    (hnew : next.isIdle = false → next.task ∉ s.rq.queuedTasks) :
    Filed (s.dispatch next) ∧ (s.dispatch next).rq.queuedTasks = s.rq.queuedTasks := by
  refine ⟨⟨?_, ?_, ?_⟩, rfl⟩
  · have hents : Queued (s.dispatch next).ents s.rq := by
      unfold RqState.dispatch
      cases s.rq.cpu with
      | none => exact hqueued
      | some cpu =>
        exact hqueued.modify next.task (fun e => { e with lastCpu := some cpu })
          (fun _ => rfl) fun _ => ⟨rfl, rfl, rfl⟩
    exact hents.congr rfl rfl (fun _ => rfl) (fun _ _ => .refl _)
  · intro t ht
    cases hidle : next.isIdle with
    | true => simp [runningTasks, RqState.dispatch, hidle] at ht
    | false =>
      have htask : t = next.task := by
        simpa [runningTasks, RqState.dispatch, hidle] using ht
      rw [htask]
      exact hnew hidle
  · intro e c he hc
    simp only [RqState.dispatch, some.injEq] at he hc
    split_ifs at he
    cases he
    exact hc

/-- What `install` does once it has the entry that is to run: what runs is put back. -/
def switchTo (s : RqState) (now : Nat) (next : SchedEntry) : RqState :=
  (s.rq.current.elim s (s.putBack now)).dispatch next

theorem install_of_taken {now : Nat} {fromQueue : Bool} {e : SchedEntry} {rq : RunQueue}
    (htake : (if fromQueue then s.takeOut next else .ok (next, s.rq)) = .ok (e, rq)) :
    s.install now next fromQueue = .ok (switchTo ⟨s.ents, rq⟩ now e) := by
  unfold RqState.install switchTo
  cases fromQueue
  all_goals
    simp only [Bool.false_eq_true, if_true, if_false] at htake ⊢
    rw [htake]
    cases hcurrent : rq.current <;> simp [hcurrent, bind, Except.bind]

theorem switch (hqueued : Queued s.ents s.rq)
    (hapart : ∀ t ∈ s.rq.runningTasks, t ∉ s.rq.queuedTasks) (now : Nat) (next : SchedEntry)
    (hnew : next.isIdle = false → next.task ∉ s.rq.tasks) {s' : RqState}
    (hs' : s' = switchTo s now next) : Filed s' ∧ s'.rq.current = some next ∧
      s'.rq.tasks.Perm (if next.isIdle then s.rq.tasks else next.task :: s.rq.tasks) := by
  -- The tasks that wait afterwards are those that waited or ran before.
  have hend : ∀ mid : RqState, Queued mid.ents mid.rq → mid.rq.queuedTasks.Perm s.rq.tasks →
      s' = mid.dispatch next → Filed s' ∧ s'.rq.current = some next ∧
        s'.rq.tasks.Perm (if next.isIdle then s.rq.tasks else next.task :: s.rq.tasks) := by
    intro mid hmid hperm heq
    obtain ⟨hfiled, htasks⟩ := dispatch hmid next
      (fun hidle hmem => hnew hidle (hperm.mem_iff.mp hmem))
    rw [← heq] at hfiled htasks
    have hcurrent : s'.rq.current = some next := by rw [heq]; rfl
    refine ⟨hfiled, hcurrent, ?_⟩
    rw [tasks, htasks, runningTasks, hcurrent]
    cases hidle : next.isIdle with
    | true | false => simpa [hidle] using hperm
  unfold switchTo at hs'
  cases hcurrent : s.rq.current <;> rw [hcurrent] at hs'
  case none =>
    refine hend s hqueued ?_ hs'
    simp [tasks, runningTasks, hcurrent]
  case some current =>
    have hback : current.isIdle = false → current.task ∉ s.rq.queuedTasks := by
      intro hidle
      apply hapart
      simp [runningTasks, hcurrent, hidle]
    obtain ⟨hmid, -, -, hperm⟩ := hqueued.putBack hback rfl
    refine hend _ hmid (hperm.trans ?_) hs'
    cases hidle : current.isIdle with
    | true | false => simp [tasks, runningTasks, hcurrent, hidle]

/-- A queued task can be installed, and no task is lost. -/
theorem install (h : Filed s) (now : Nat) (hmem : next ∈ s.rq.queuedEntries) :
    ∃ s', s.install now next true = .ok s' ∧ Filed s' ∧ s'.rq.tasks.Perm s.rq.tasks ∧
      ∃ e, s'.rq.current = some e ∧ e.task = next.task ∧ e.isIdle = false := by
  obtain ⟨e, rq, hrun, htask, hidle, hcurrent, -, -, hqueued, hperm⟩ := h.queued.takeOut hmem
  have hrunning : rq.runningTasks = s.rq.runningTasks := by
    simp only [runningTasks, hcurrent]
  have hall : s.rq.tasks.Perm (next.task :: rq.tasks) := by
    rw [tasks, tasks, hrunning]
    exact (hperm.append_left _).trans perm_middle
  have hnew : e.task ∉ rq.tasks := by
    rw [htask]
    exact (nodup_cons.mp (hall.nodup_iff.mp h.nodup)).1
  have hapart : ∀ t ∈ rq.runningTasks, t ∉ rq.queuedTasks := by
    intro t ht hqueue
    rw [hrunning] at ht
    exact h.apart t ht (hperm.mem_iff.mpr (.tail _ hqueue))
  obtain ⟨hfiled, hnext, htasks⟩ := @switch ⟨s.ents, rq⟩ hqueued hapart now e (fun _ => hnew) _ rfl
  refine ⟨_, install_of_taken hrun, hfiled, ?_, e, hnext, htask, hidle⟩
  rw [hidle, htask] at htasks
  exact htasks.trans hall.symm

/-- The idle task can be installed, and no task is lost. -/
theorem installIdle (h : Filed s) (now : Nat) (hidle : next.isIdle = true) :
    ∃ s', s.install now next false = .ok s' ∧ Filed s' ∧ s'.rq.tasks.Perm s.rq.tasks ∧
      s'.rq.current = some next := by
  obtain ⟨hfiled, hnext, htasks⟩ := switch h.queued h.apart now next
    (fun hfalse => by rw [hidle] at hfalse; cases hfalse) rfl
  refine ⟨_, install_of_taken rfl, hfiled, ?_, hnext⟩
  rwa [hidle, if_pos rfl] at htasks

theorem startIdling (h : Filed s) (now fresh : Nat) :
    ∃ s', s.startIdling now fresh = .ok s' ∧ Filed s' ∧ s'.rq.tasks.Perm s.rq.tasks := by
  unfold RqState.startIdling
  split_ifs
  · exact ⟨s, rfl, h, .refl _⟩
  obtain ⟨hfiled, htasks⟩ := h.congr { s with rq := { s.rq with
    idle := some (s.rq.idle.getD (fresh, now)) } } rfl rfl rfl rfl h.queued
  obtain ⟨s', hrun, hfiled', hperm, -⟩ := hfiled.installIdle now
    (show (SchedEntry.mk (s.rq.idle.getD (fresh, now)).1 (s.rq.idle.getD (fresh, now)).2
      true).isIdle = true from rfl)
  exact ⟨s', hrun, hfiled', htasks ▸ hperm⟩

/-- The running task leaves. -/
theorem dequeueCurrent (h : Filed s) {out : Option SchedEntry}
    (hrun : s.dequeueCurrent = .ok (out, s')) :
    Filed s' ∧ s.rq.tasks.Perm ((out.map SchedEntry.task).toList ++ s'.rq.tasks) := by
  unfold RqState.dequeueCurrent at hrun
  split_ifs at hrun with hidle
  · cases hrun
    exact ⟨h, .refl _⟩
  split at hrun
  · cases hrun
    exact ⟨h, .refl _⟩
  next c hcurrent =>
    have hrunning : s.rq.runningTasks = [c.task] := by
      have hnot : c.isIdle = false := by simpa [isIdling, hcurrent] using hidle
      simp [runningTasks, hcurrent, hnot]
    have htasks : s.rq.tasks = c.task :: s.rq.queuedTasks := by
      rw [tasks, hrunning, singleton_append]
    have hapart : c.task ∉ s.rq.queuedTasks := h.apart c.task (by simp [hrunning])
    -- Nobody runs afterwards, and the queues are the same.
    have hend : ∀ s' : RqState, s'.rq.current = none → Queued s'.ents s'.rq →
        s'.rq.queuedTasks = s.rq.queuedTasks →
        Filed s' ∧ s.rq.tasks.Perm (c.task :: s'.rq.tasks) := by
      intro s' hnone hqueued hsame
      have hidle' : s'.rq.runningTasks = [] := by simp [runningTasks, hnone]
      refine ⟨⟨hqueued, by simp [hidle'], by simp [hnone]⟩, ?_⟩
      rw [htasks, tasks, hidle', hsame, nil_append]
    dsimp only at hrun
    split_ifs at hrun with hclass
    · cases hrun
      exact hend _ rfl (h.queued.congr rfl rfl (fun _ => rfl) (fun _ _ => .refl _)) rfl
    obtain ⟨ents, hlag, hrun⟩ := ok_of_bind hrun
    cases hrun
    have hents : Queued ents s.rq := by
      unfold EevdfRunQueue.rememberLag at hlag
      dsimp only at hlag
      split_ifs at hlag
      cases hlag
      exact h.queued.modify c.task _ (fun _ => rfl) fun hmem => absurd hmem hapart
    obtain ⟨hsame, -⟩ := EevdfRunQueue.queued_unaccount
      { s.rq.eevdf with current := none } ents c.task
    refine hend _ rfl (hents.congr rfl hsame (fun _ => rfl) (fun _ _ => .refl _)) ?_
    simp only [queuedTasks, queuedEntries, hsame]

/-- An empty run queue. -/
theorem new (hseq : Function.Injective fun t => (ents t).seq)
    (cpu : Option Nat) : Filed ⟨ents, .new cpu⟩ where
  queued :=
    { seq := hseq
      rt := RtRunQueue.wf_new
      keyed := nofun
      rtClass := fun e he => by
        have hall : e ∈ (RunQueue.new cpu).queuedEntries := mem_append_left _ he
        cases hall
      fairClass := nofun
      notIdle := fun e he => by
        cases he
      nodup := by
        exact nodup_nil }
  apart := nofun
  fairCurrent := nofun

/-- The task that is picked is queued. -/
theorem mem_of_pickNext (h : Filed s) {yielding : Bool} (hpick : s.pickNext yielding = some e) :
    e ∈ s.rq.queuedEntries := by
  rcases or_eq_some_iff.mp hpick with hrt | ⟨_, hfair⟩
  · apply mem_append_left
    unfold pickRt at hrt
    split_ifs at hrt
    split at hrt
    · cases hrt
    next candidate hnext =>
      have hcandidate : candidate = e := by
        cases hcurrent : s.rq.current with
        | none =>
          rw [hcurrent] at hrt
          exact some.inj hrt
        | some current =>
          rw [hcurrent] at hrt
          dsimp only at hrt
          split_ifs at hrt
          exact some.inj hrt
      exact hcandidate ▸ RtRunQueue.mem_of_pickNext h.queued.rt hnext
  · apply mem_append_right
    unfold pickFair at hfair
    split_ifs at hfair
    exact EevdfRunQueue.mem_of_best (filter_eq_some_iff.mp hfair).1

end Filed

end Petra.Sched
