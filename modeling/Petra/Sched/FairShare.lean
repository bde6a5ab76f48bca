import Petra.Base.Run
import Petra.Sched.Filing

/-! # The sums of the fair class

The fair class keeps the sum of the weights of its tasks and the sum of their weighted virtual
runtimes, and changes both as tasks come and go.
-/

namespace Petra.Sched

open Base List

namespace EevdfRunQueue

variable {q q' : EevdfRunQueue} {ents ents' : Entities} {entry e : SchedEntry}
  {l l' : List SchedEntry}
  {a b : Nat}

/-- The weights of some entries. -/
def weights (ents : Entities) (l : List SchedEntry) : Nat :=
  (l.map fun e => (ents e.task).fair.weight).sum

/-- The weighted virtual runtimes of some entries above `floor`. -/
def offsets (ents : Entities) (floor : Nat) (l : List SchedEntry) : Nat :=
  (l.map fun e => ((ents e.task).fair.vruntime - floor) * (ents e.task).fair.weight).sum

@[simp] theorem weights_cons (l : List SchedEntry) :
    weights ents (e :: l) = (ents e.task).fair.weight + weights ents l := by
  simp [weights]

@[simp] theorem offsets_cons (floor : Nat) (l : List SchedEntry) : offsets ents floor (e :: l) =
      ((ents e.task).fair.vruntime - floor) * (ents e.task).fair.weight + offsets ents floor l := by
  simp [offsets]

theorem weights_perm (h : l.Perm l') : weights ents l = weights ents l' := (h.map _).sum_eq

theorem offsets_perm (floor : Nat) (h : l.Perm l') :
    offsets ents floor l = offsets ents floor l' := (h.map _).sum_eq

/-- Raising the floor takes the same amount off every task. -/
theorem offsets_raise {floor floor' : Nat} {l : List SchedEntry} (hraise : floor ≤ floor')
    (habove : ∀ e ∈ l, floor' ≤ (ents e.task).fair.vruntime) :
    offsets ents floor l = offsets ents floor' l + (floor' - floor) * weights ents l := by
  induction l with
  | nil => simp [offsets, weights]
  | cons e l ih =>
    have hhead := habove e (.head _)
    rw [offsets_cons, offsets_cons, weights_cons,
      ih (fun e' he' => habove e' (.tail _ he')), Nat.mul_add]
    have hsplit : (ents e.task).fair.vruntime - floor =
        ((ents e.task).fair.vruntime - floor') + (floor' - floor) := by omega
    rw [hsplit, Nat.add_mul]
    omega

/-- Nobody runs, and the sums are those of the queued tasks. -/
structure Balanced (q : EevdfRunQueue) (ents : Entities) : Prop where
  current : q.current = none
  floor : ∀ e ∈ q.queued.values, q.minVruntime ≤ (ents e.task).fair.vruntime
  weight : q.sumWeight = weights ents q.queued.values
  offset : q.sumOffsetWeighted = offsets ents q.minVruntime q.queued.values
  bound : q.sumOffsetWeighted ≤ u64Max

/-- The weights and the virtual runtimes of the queued tasks are the same. -/
theorem Balanced.congr (h : q.Balanced ents)
    (hvruntime : ∀ e ∈ q.queued.values, (ents' e.task).fair.vruntime = (ents e.task).fair.vruntime)
    (hweight : ∀ e ∈ q.queued.values, (ents' e.task).fair.weight = (ents e.task).fair.weight) :
    q.Balanced ents' := by
  refine ⟨h.current, ?_, ?_, ?_, h.bound⟩
  · intro e he
    rw [hvruntime e he]
    exact h.floor e he
  · rw [h.weight, weights]
    exact congrArg sum (map_congr_left fun e he => (hweight e he).symm)
  · rw [h.offset, offsets]
    exact congrArg sum (map_congr_left fun e he => by rw [hvruntime e he, hweight e he])

theorem satMul_eq (h : a * b ≤ u64Max) : satMul a b = a * b := Nat.min_eq_left h

theorem satAdd_eq (h : a + b ≤ u64Max) : satAdd a b = a + b := Nat.min_eq_left h

theorem Balanced.advanceMinVruntime (h : q.Balanced ents) :
    (q.advanceMinVruntime ents).Balanced ents := by
  unfold EevdfRunQueue.advanceMinVruntime
  cases hmin : (q.active ents).min? with
  | none => exact h
  | some smallest =>
    dsimp only
    split_ifs with hadvance
    · exact h
    have hleast : ∀ e ∈ q.queued.values, smallest ≤ (ents e.task).fair.vruntime := by
      intro e he
      refine (min?_eq_some_iff.mp hmin).2 _ ?_
      simp only [active, h.current, Option.toList_none]
      exact mem_map.mpr ⟨e, he, rfl⟩
    have hraise := offsets_raise (show q.minVruntime ≤ smallest by omega) hleast
    rw [← h.offset, ← h.weight] at hraise
    have hbound := h.bound
    have hmul : satMul (smallest - q.minVruntime) q.sumWeight =
        (smallest - q.minVruntime) * q.sumWeight := satMul_eq (by omega)
    refine ⟨h.current, hleast, h.weight, ?_, ?_⟩
    · change q.sumOffsetWeighted - satMul _ _ = offsets ents smallest q.queued.values
      omega
    · change q.sumOffsetWeighted - satMul _ _ ≤ _
      omega

/-- A task that comes is added to both sums. -/
theorem Balanced.insert (h : q.Balanced ents)
    (hperm : (q.insert ents entry).queued.values.Perm (entry :: q.queued.values))
    (hfloor : q.minVruntime ≤ (ents entry.task).fair.vruntime)
    (hweight : q.sumWeight + (ents entry.task).fair.weight ≤ u64Max)
    (hoffset : q.sumOffsetWeighted + ((ents entry.task).fair.vruntime - q.minVruntime) *
      (ents entry.task).fair.weight ≤ u64Max) : (q.insert ents entry).Balanced ents := by
  have hsum : (q.insert ents entry).sumOffsetWeighted = q.sumOffsetWeighted +
      ((ents entry.task).fair.vruntime - q.minVruntime) * (ents entry.task).fair.weight := by
    change satAdd _ (satMul _ _) = _
    rw [satMul_eq (by omega), satAdd_eq hoffset]
  refine ⟨h.current, ?_, ?_, ?_, ?_⟩
  · intro e he
    rcases mem_cons.mp (hperm.mem_iff.mp he) with rfl | hold
    · exact hfloor
    · exact h.floor e hold
  · rw [weights_perm hperm, weights_cons, ← h.weight]
    change satAdd _ _ = _
    rw [satAdd_eq hweight, Nat.add_comm]
  · change _ = offsets ents q.minVruntime (q.insert ents entry).queued.values
    rw [hsum, offsets_perm _ hperm, offsets_cons, ← h.offset, Nat.add_comm]
  · rw [hsum]
    exact hoffset

/-- A task that leaves is taken off both sums. -/
theorem Balanced.remove (h : q.Balanced ents) {queued : SortedMap EevdfRunKey SchedEntry}
    (hperm : q.queued.values.Perm (entry :: queued.values)) :
    ({ q with queued := queued }.unaccount ents entry.task).Balanced ents := by
  have hweight := h.weight
  have hoffset := h.offset
  have hbound := h.bound
  rw [weights_perm hperm, weights_cons] at hweight
  rw [offsets_perm _ hperm, offsets_cons] at hoffset
  have hmul : satMul ((ents entry.task).fair.vruntime - q.minVruntime)
      (ents entry.task).fair.weight = ((ents entry.task).fair.vruntime - q.minVruntime) *
        (ents entry.task).fair.weight := satMul_eq (by omega)
  have hbalanced : Balanced { q with
      queued := queued
      sumWeight := q.sumWeight - (ents entry.task).fair.weight
      sumOffsetWeighted := q.sumOffsetWeighted -
        satMul ((ents entry.task).fair.vruntime - q.minVruntime) (ents entry.task).fair.weight }
      ents := by
    refine ⟨h.current, ?_, ?_, ?_, ?_⟩
    · exact fun e he => h.floor e (hperm.mem_iff.mpr (.tail _ he))
    · dsimp only
      omega
    · dsimp only
      omega
    · dsimp only
      omega
  unfold unaccount
  dsimp only
  split_ifs
  · exact hbalanced.advanceMinVruntime
  · exact hbalanced

/-- With an empty sum nobody waits, so the floor may be raised at will. -/
theorem Balanced.startAt (h : q.Balanced ents) (floor : Nat) (hsum : q.sumWeight = 0) :
    Balanced { q with minVruntime := floor } ents := by
  have hempty : q.queued.values = [] := by
    cases hvalues : q.queued.values with
    | nil => rfl
    | cons e l =>
      have hweight := h.weight
      have hpos := (ents e.task).fair.weight_pos
      rw [hvalues, weights_cons] at hweight
      omega
  have hoffset := h.offset
  refine ⟨h.current, ?_, h.weight, ?_, h.bound⟩
  · simp [hempty]
  · simpa [hempty, offsets] using hoffset

/-- The floor once a task is placed at `vruntime`: the first task sets it. -/
def floorFor (q : EevdfRunQueue) (vruntime : Nat) : Nat :=
  if q.sumWeight = 0 then max q.minVruntime vruntime else q.minVruntime

/-- Placing this task neither cuts nor saturates a number. -/
structure Exact (q : EevdfRunQueue) (e : EevdfEntity) (isNew : Bool) : Prop where
  vruntime : q.placedVruntime e isNew < 2 ^ 64
  weight : q.sumWeight + e.weight ≤ u64Max
  offset : q.sumOffsetWeighted + ((q.placedVruntime e isNew).toNat -
    q.floorFor (q.placedVruntime e isNew).toNat) * e.weight ≤ u64Max

theorem place_of_exact (entry : SchedEntry) (isNew : Bool) {v : Nat}
    (hv : (q.placedVruntime (ents entry.task).fair isNew).toNat = v)
    (hexact : q.placedVruntime (ents entry.task).fair isNew < 2 ^ 64)
    (hents : ents' = ents.modify entry.task fun e =>
      { e with fair := { e.fair with vruntime := v, placed := true } }) :
    q.place ents entry isNew =
      ({ q with minVruntime := q.floorFor v }.insert ents' entry, ents') := by
  have hfloor : (q.minVruntime : Int) ≤ q.placedVruntime (ents entry.task).fair isNew :=
    le_max_right _ _
  have hcut : q.placedVruntime (ents entry.task).fair isNew % 2 ^ 64 =
      q.placedVruntime (ents entry.task).fair isNew :=
    Int.emod_eq_of_lt (by omega) hexact
  have hstart : (if q.sumWeight = 0 then { q with minVruntime := max q.minVruntime v } else q) =
      { q with minVruntime := q.floorFor v } := by
    unfold floorFor
    split_ifs <;> rfl
  unfold place
  dsimp only
  rw [hcut, hv, hstart, hents]

theorem Balanced.place (h : q.Balanced ents) (isNew : Bool)
    (hkeyed : q.Keyed (q.place ents entry isNew).2)
    (hseq : Function.Injective fun t => ((q.place ents entry isNew).2 t).seq)
    (hnew : entry.task ∉ q.queued.values.map SchedEntry.task)
    (hexact : q.Exact (ents entry.task).fair isNew) :
    (q.place ents entry isNew).1.Balanced (q.place ents entry isNew).2 := by
  obtain ⟨v, hv⟩ : ∃ v, (q.placedVruntime (ents entry.task).fair isNew).toNat = v := ⟨_, rfl⟩
  obtain ⟨ents', hents⟩ : ∃ ents' : Entities, ents' = ents.modify entry.task fun e =>
      { e with fair := { e.fair with vruntime := v, placed := true } } := ⟨_, rfl⟩
  have hfloor : q.minVruntime ≤ v := by
    have hle : (q.minVruntime : Int) ≤ q.placedVruntime (ents entry.task).fair isNew :=
      le_max_right _ _
    omega
  have hoffset := hexact.offset
  have hweight := hexact.weight
  rw [hv] at hoffset
  have heq := place_of_exact entry isNew hv hexact.vruntime hents
  rw [heq] at hkeyed hseq ⊢
  have hvalue : (ents' entry.task).fair.vruntime = v ∧
      (ents' entry.task).fair.weight = (ents entry.task).fair.weight := by
    rw [hents, Entities.modify_self]
    exact ⟨rfl, rfl⟩
  have hothers : ∀ e ∈ q.queued.values, ents' e.task = ents e.task := by
    intro e he
    rw [hents, Entities.modify_of_ne]
    intro heq
    exact hnew (heq ▸ mem_map.mpr ⟨e, he, rfl⟩)
  have hmid : Balanced { q with minVruntime := q.floorFor v } ents' := by
    have hq : q.Balanced ents' :=
      h.congr (fun e he => by rw [hothers e he]) (fun e he => by rw [hothers e he])
    unfold floorFor
    split_ifs with hsum
    · exact hq.startAt _ hsum
    · exact hq
  refine hmid.insert ?_ ?_ ?_ ?_
  · exact values_insert (get?_eq_none_of_not_mem hkeyed hseq hnew)
  · dsimp only [floorFor]
    split_ifs <;> omega
  · rw [hvalue.2]
    exact hweight
  · rw [hvalue.1, hvalue.2]
    exact hoffset

variable {task : Nat} {out : Option SchedEntry}

theorem rememberLag_spec (h : q.rememberLag ents task = .ok ents') :
    ∃ lag, ents' = ents.modify task fun e => { e with fair := { e.fair with lag := lag } } := by
  unfold rememberLag at h
  dsimp only at h
  split_ifs at h
  cases h
  exact ⟨_, rfl⟩

/-- A queued task is taken out wherever it is, and its lag is recorded. -/
theorem dequeue_spec (h : q.dequeue ents task = .ok (out, q', ents')) :
    (q' = q ∧ ents' = ents) ∨ ∃ key entry lag, q.queued.get? key = some entry ∧
      q' = { q with queued := q.queued.erase key }.unaccount ents entry.task ∧
      ents' = ents.modify entry.task fun e => { e with fair := { e.fair with lag := lag } } := by
  unfold dequeue at h
  cases hfind : q.queued.entries.find? fun kv => kv.2.task = task with
  | none =>
    rw [hfind] at h
    cases h
    exact .inl ⟨rfl, rfl⟩
  | some kv =>
    obtain ⟨key, entry⟩ := kv
    rw [hfind] at h
    obtain ⟨ents'', hlag, h⟩ := ok_of_bind h
    cases h
    obtain ⟨lag, hents⟩ := rememberLag_spec hlag
    exact .inr ⟨key, entry, lag,
      SortedMap.get?_eq_some.mpr (mem_of_find?_eq_some hfind), rfl, hents⟩

theorem Balanced.dequeue (h : q.Balanced ents)
    (hrun : q.dequeue ents task = .ok (out, q', ents')) : q'.Balanced ents' := by
  rcases dequeue_spec hrun with ⟨hq, hents⟩ | ⟨key, entry, lag, hget, hq, hents⟩
  · rw [hq, hents]
    exact h
  have hperm := (SortedMap.perm_erase hget).map Prod.snd
  have hmid := h.remove hperm
  rw [hq, hents]
  refine hmid.congr ?_ ?_
  all_goals
    intro e _
    rw [Entities.modify]
    split_ifs <;> rfl

end EevdfRunQueue

/-! ### Without a running fair task -/

/-- The fair class is not touched. -/
structure SameFair (s s' : RqState) : Prop where
  eevdf : s'.rq.eevdf = s.rq.eevdf
  fair : ∀ t, (s'.ents t).fair = (s.ents t).fair
  isRt : ∀ t, (s'.ents t).isRt = (s.ents t).isRt
  seq : ∀ t, (s'.ents t).seq = (s.ents t).seq

variable {s s' : RqState}

theorem SameFair.of_eq (heevdf : s'.rq.eevdf = s.rq.eevdf)
    (hents : s'.ents = s.ents) : SameFair s s' :=
  ⟨heevdf, fun _ => by rw [hents], fun _ => by rw [hents], fun _ => by rw [hents]⟩

theorem SameFair.refl (s : RqState) : SameFair s s := .of_eq rfl rfl

theorem SameFair.trans {s s' s'' : RqState} (h : SameFair s s') (h' : SameFair s' s'') :
    SameFair s s'' :=
  ⟨h'.eevdf.trans h.eevdf, fun t => (h'.fair t).trans (h.fair t),
    fun t => (h'.isRt t).trans (h.isRt t), fun t => (h'.seq t).trans (h.seq t)⟩

theorem SameFair.modify (task : Nat) (f : SchedEntity → SchedEntity)
    (heevdf : s'.rq.eevdf = s.rq.eevdf) (hents : s'.ents = s.ents.modify task f)
    (hfair : ∀ e, (f e).fair = e.fair) (hisRt : ∀ e, (f e).isRt = e.isRt)
    (hseq : ∀ e, (f e).seq = e.seq) : SameFair s s' := by
  refine ⟨heevdf, ?_, ?_, ?_⟩
  · intro t
    rw [hents, Entities.modify]
    split_ifs
    · exact hfair _
    · rfl
  · intro t
    rw [hents, Entities.modify]
    split_ifs
    · exact hisRt _
    · rfl
  · intro t
    rw [hents, Entities.modify]
    split_ifs
    · exact hseq _
    · rfl

/-- The queues of every CPU stay in order when the fair class is not touched. -/
theorem Queued.same {rq : RunQueue} (h : Queued s.ents rq)
    (hsame : SameFair s s') : Queued s'.ents rq :=
  h.congr rfl rfl hsame.seq fun e _ =>
    ⟨hsame.isRt e.task, by rw [hsame.fair], by rw [hsame.fair]⟩

namespace RqState

/-- The idle task or a real-time task. -/
def NotFair (s : RqState) (e : SchedEntry) : Prop :=
  e.isIdle = true ∨ (s.ents e.task).isRt = true

/-- No fair task runs. -/
structure NoFairRuns (s : RqState) : Prop where
  eevdf : s.rq.eevdf.current = none
  current : ∀ c, s.rq.current = some c → s.NotFair c

variable {s s' : RqState} {next : SchedEntry}

theorem NotFair.same {e : SchedEntry} (he : s.NotFair e) (h : SameFair s s') : s'.NotFair e := by
  rcases he with hidle | hrt
  · exact .inl hidle
  · exact .inr ((h.isRt e.task).trans hrt)

theorem sameFair_putBack (now : Nat) {c : SchedEntry} (hc : s.NotFair c) :
    SameFair s (s.putBack now c) := by
  cases hidle : c.isIdle with
  | true =>
    have heq : s.putBack now c = s := by simp [putBack, hidle]
    rw [heq]
    exact .refl s
  | false =>
    have hclass : (s.ents c.task).isRt = true := by simpa [NotFair, hidle] using hc
    obtain ⟨f, hf, heq⟩ := @Queued.putBack_rt s now c hidle hclass
    rw [heq]
    exact .modify c.task f rfl rfl (fun e => (hf e).2.2) (fun e => (hf e).2.1.isRt)
      (fun e => (hf e).1)

theorem NoFairRuns.dispatch (hnone : s.rq.eevdf.current = none) (hnext : s.NotFair next) :
    SameFair s (s.dispatch next) ∧ (s.dispatch next).NoFairRuns := by
  have hfairNext : (if (next.isIdle || s.isRt next) = true then none else some next) =
      s.rq.eevdf.current := by
    rw [hnone, if_pos (by simpa [NotFair, isRt] using hnext)]
  have hsame : SameFair s (s.dispatch next) := by
    have heevdf : (s.dispatch next).rq.eevdf = s.rq.eevdf := by
      simp only [RqState.dispatch, hfairNext]
    cases hcpu : s.rq.cpu with
    | none =>
      have hents : (s.dispatch next).ents = s.ents := by simp only [RqState.dispatch, hcpu]
      exact .of_eq heevdf hents
    | some cpu =>
      refine .modify next.task (fun e => { e with lastCpu := some cpu }) heevdf ?_
        (fun _ => rfl) (fun _ => rfl) (fun _ => rfl)
      simp only [RqState.dispatch, hcpu]
  refine ⟨hsame, ?_, ?_⟩
  · rw [hsame.eevdf, hnone]
  · intro c hc
    cases hc
    exact hnext.same hsame

/-- Switching to the idle task or a real-time task. -/
theorem NoFairRuns.install (h : s.NoFairRuns) {now : Nat} {fromQueue : Bool}
    (hnext : if fromQueue = true then s.rq.rt.Wf ∧ (s.ents next.task).isRt = true
      else next.isIdle = true)
    (hrun : s.install now next fromQueue = .ok s') : SameFair s s' ∧ s'.NoFairRuns := by
  -- What is taken out is a real-time task, from a queue of the real-time class.
  have htaken : ∀ e rq, (if fromQueue = true then s.takeOut next else .ok (next, s.rq)) =
      .ok (e, rq) → s.NotFair e ∧ rq.eevdf = s.rq.eevdf ∧ rq.current = s.rq.current := by
    intro e rq htake
    cases fromQueue with
    | false =>
      cases htake
      exact ⟨.inl hnext, rfl, rfl⟩
    | true =>
      unfold takeOut at htake
      rw [if_pos (show s.isRt next = true from hnext.2)] at htake
      cases hdequeue : s.rq.rt.dequeue next.task with
      | none =>
        rw [hdequeue] at htake
        cases htake
      | some out =>
        rw [hdequeue] at htake
        cases htake
        obtain ⟨htask, -⟩ := RtRunQueue.dequeue_spec hnext.1 hdequeue
        exact ⟨.inr (htask ▸ hnext.2), rfl, rfl⟩
  have htakes : ∃ e rq, (if fromQueue = true then s.takeOut next else .ok (next, s.rq)) =
      .ok (e, rq) := by
    cases fromQueue with
    | false => exact ⟨next, s.rq, rfl⟩
    | true =>
      obtain ⟨⟨e, rq⟩, htake, -⟩ := ok_of_bind hrun
      exact ⟨e, rq, htake⟩
  obtain ⟨e, rq, htake⟩ := htakes
  obtain ⟨he, heevdf, hcurrent⟩ := htaken e rq htake
  have hsame : SameFair s ⟨s.ents, rq⟩ := .of_eq heevdf rfl
  rw [Filed.install_of_taken htake, Filed.switchTo, hcurrent] at hrun
  cases hc : s.rq.current <;> rw [hc] at hrun <;> cases hrun
  case none =>
    obtain ⟨hsame', hnone⟩ := NoFairRuns.dispatch
      (show (RqState.mk s.ents rq).rq.eevdf.current = none from heevdf ▸ h.eevdf)
      (he.same hsame)
    exact ⟨hsame.trans hsame', hnone⟩
  case some c =>
    have hback := hsame.trans (sameFair_putBack now ((h.current c hc).same hsame))
    obtain ⟨hsame', hnone⟩ := NoFairRuns.dispatch
      (show _ = none from hback.eevdf ▸ h.eevdf) (he.same hback)
    exact ⟨hback.trans hsame', hnone⟩

theorem NoFairRuns.startIdling (h : s.NoFairRuns) {now fresh : Nat}
    (hrun : s.startIdling now fresh = .ok s') : SameFair s s' ∧ s'.NoFairRuns := by
  unfold RqState.startIdling at hrun
  split_ifs at hrun
  · cases hrun
    exact ⟨.refl s, h⟩
  · have hstart : NoFairRuns { s with rq := { s.rq with
        idle := some (s.rq.idle.getD (fresh, now)) } } := ⟨h.eevdf, h.current⟩
    obtain ⟨hsame, hnone⟩ := hstart.install (by simp) hrun
    exact ⟨⟨hsame.eevdf, hsame.fair, hsame.isRt, hsame.seq⟩, hnone⟩

/-- Only a running fair task is charged. -/
theorem NoFairRuns.charge (h : s.NoFairRuns) (now : Nat) :
    s.charge now = { s with rq := { s.rq with lastUpdate := now } } := by
  have hidle : ∀ deltaNs, chargeNs { s with rq := { s.rq with lastUpdate := now } } deltaNs =
      { s with rq := { s.rq with lastUpdate := now } } := by
    intro deltaNs
    unfold chargeNs
    cases hc : s.rq.current with
    | none => rfl
    | some c =>
      have hnot : (c.isIdle || s.isRt c) = true := by
        simpa [NotFair, isRt] using h.current c hc
      exact if_pos hnot
  unfold RqState.charge
  dsimp only
  rw [hidle, ite_self]

theorem NoFairRuns.dequeueCurrent (h : s.NoFairRuns) {out : Option SchedEntry}
    (hrun : s.dequeueCurrent = .ok (out, s')) : SameFair s s' ∧ s'.NoFairRuns := by
  unfold RqState.dequeueCurrent at hrun
  split_ifs at hrun with hidle
  · cases hrun
    exact ⟨.refl s, h⟩
  split at hrun
  · cases hrun
    exact ⟨.refl s, h⟩
  next c hc =>
    have hclass : s.isRt c = true := by
      have hnot : c.isIdle = false := by simpa [RunQueue.isIdling, hc] using hidle
      simpa [NotFair, hnot, isRt] using h.current c hc
    dsimp only at hrun
    rw [if_pos hclass] at hrun
    cases hrun
    exact ⟨.of_eq rfl rfl, h.eevdf, by simp⟩

theorem NoFairRuns.place (h : s.NoFairRuns) (entry : SchedEntry) (isNew : Bool) :
    (s.place entry isNew).NoFairRuns := by
  cases hclass : s.isRt entry with
  | true =>
    have heq : s.place entry isNew = { s with rq := { s.rq with
        rt := s.rq.rt.enqueue s.ents entry } } := by
      simp only [RqState.place, hclass, if_true]
    rw [heq]
    exact ⟨h.eevdf, h.current⟩
  | false =>
    have heq : s.place entry isNew = ⟨(s.rq.eevdf.place s.ents entry isNew).2,
        { s.rq with eevdf := (s.rq.eevdf.place s.ents entry isNew).1 }⟩ := by
      simp only [RqState.place, hclass, Bool.false_eq_true, if_false]
    obtain ⟨q, -, hfair, hplace⟩ := Filed.place_spec s.rq.eevdf s.ents entry isNew
    obtain ⟨vruntime, hents⟩ := Filed.place_ents s.rq.eevdf s.ents entry isNew
    rw [heq]
    refine ⟨?_, ?_⟩
    · rw [hplace]
      exact hfair.trans h.eevdf
    intro c hc
    rcases h.current c hc with hidle | hrt
    · exact .inl hidle
    right
    dsimp only
    rw [hents, Entities.modify]
    split_ifs
    · exact hrt
    · exact hrt

end RqState

end Petra.Sched
