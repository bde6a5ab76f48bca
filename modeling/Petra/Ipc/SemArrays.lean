import Petra.Ipc.SemUndo

/-! # Arrays of semaphore operations

One pass over the array tests every operation against the values there are, and a second one
executes them. This is the meaning of the array as long as each operation is also permitted at the
value that the operations before it leave.
-/

namespace Petra.Ipc.Sem

open Base List

/-- An operation is permitted at a value. -/
def Permits (val semOp : Int) : Prop :=
  if semOp > 0 then val + semOp ≤ semvmx else if semOp = 0 then val = 0 else -semOp ≤ val
deriving Decidable

/-- The operations are executed in order, each permitted in the state left by the previous
ones. -/
inductive InOrder (pid : Nat) : SemSet → List SemBuf → SemSet → Prop
  | nil (set : SemSet) : InOrder pid set [] set
  | cons {set set' : SemSet} {op : SemBuf} {rest : List SemBuf}
      (hop : Permits (set.val op.semNum) op.semOp)
      (hrest : InOrder pid (set.setVal op.semNum (set.val op.semNum + op.semOp).toNat pid) rest
        set') : InOrder pid set (op :: rest) set'

/-- Every value is in range. -/
def SemSet.InRange (set : SemSet) : Prop := ∀ num, set.val num ≤ semvmx

/-- The first operation that is not permitted at the values of the set can be negated. There the
test ends without a change. -/
def Refuses (set : SemSet) : List SemBuf → Prop
  | [] => False
  | op :: rest =>
    if Permits (set.val op.semNum) op.semOp then Refuses set rest else op.semOp ≠ -32768

/-- What an array adds to a semaphore. -/
def added (num : Nat) (ops : List SemBuf) : Int :=
  ((ops.filter fun op => op.semNum = num).map SemBuf.semOp).sum

/-- Each operation is permitted at the value of the set with what the operations before it add. -/
def Summed (set : SemSet) (ops : List SemBuf) : Prop :=
  ∀ i op, ops[i]? = some op →
    Permits (set.val op.semNum + added op.semNum (ops.take i)) op.semOp

variable {set set' : SemSet} {op : SemBuf} {ops : List SemBuf} {num val pid : Nat}

theorem SemSet.val_setVal (h : op.semNum < set.nsems) : (set.setVal op.semNum val pid).val num =
    if num = op.semNum then val else set.val num := by
  unfold SemSet.val SemSet.setVal
  split_ifs with heq
  · rw [heq, getElem?_set_self h]
    rfl
  · rw [getElem?_set_ne (Ne.symm heq)]

theorem SemSet.InRange.setVal (h : set.InRange) (hval : val ≤ semvmx) :
    (set.setVal num val pid).InRange := by
  intro num'
  have hold := h num'
  unfold SemSet.val SemSet.setVal at *
  rw [getElem?_set]
  split_ifs
  · exact hval
  · exact Nat.zero_le _
  · exact hold

theorem Permits.mem_range {val semOp : Int} (h : Permits val semOp) (hval : 0 ≤ val)
    (hmax : val ≤ semvmx) : 0 ≤ val + semOp ∧ val + semOp ≤ semvmx := by
  unfold Permits at h
  split_ifs at h <;> omega

/-! ### The first pass -/

theorem Refuses.canExecuteOps (h : Refuses set ops) (hrange : set.InRange) :
    ∃ r, canExecuteOps set ops = .ok r ∧ r ≠ .ok true := by
  induction ops with
  | nil => exact h.elim
  | cons op rest ih =>
    have hval := hrange op.semNum
    unfold semvmx at hval
    unfold Refuses at h
    unfold Sem.canExecuteOps
    split_ifs at h with hop
    · obtain ⟨r, hr, hne⟩ := ih h
      unfold Permits at hop
      split_ifs at hop ⊢ with hpos hbig hzero hval hmin hless
      all_goals first | exact ⟨r, hr, hne⟩ | exact ⟨_, rfl, by simp⟩ | omega
    · unfold Permits at hop
      split_ifs at hop ⊢ with hpos hbig hzero hval hless
      all_goals first | exact ⟨_, rfl, by simp⟩ | omega

/-- An array that is not refused passes, or the smallest number is negated. -/
theorem canExecuteOps_of_not_refuses (hrange : set.InRange) (h : ¬ Refuses set ops) :
    canExecuteOps set ops = .ok (.ok true) ∨
      canExecuteOps set ops = .error .overflow ∧ ∃ op ∈ ops, op.semOp = -32768 := by
  induction ops with
  | nil => exact .inl rfl
  | cons op rest ih =>
    have hval := hrange op.semNum
    unfold semvmx at hval
    unfold Refuses at h
    unfold canExecuteOps
    split_ifs at h with hop
    · have hrest : canExecuteOps set rest = .ok (.ok true) ∨
          canExecuteOps set rest = .error .overflow ∧ ∃ op' ∈ op :: rest, op'.semOp = -32768 :=
        (ih h).imp_right fun ⟨hrun, op', hmem, hmin⟩ => ⟨hrun, op', .tail _ hmem, hmin⟩
      unfold Permits semvmx at hop
      unfold semvmx
      split_ifs at hop ⊢
      all_goals first | exact hrest | omega
    · rw [not_not] at h
      rw [if_neg (by omega), if_neg (by omega), if_pos h]
      exact .inr ⟨rfl, op, .head _, h⟩

/-! ### The second pass -/

theorem added_cons (op : SemBuf) (ops : List SemBuf) (num : Nat) :
    added num (op :: ops) = (if op.semNum = num then op.semOp else 0) + added num ops := by
  unfold added
  rw [filter_cons]
  split_ifs with h <;> simp_all

theorem summed_cons (hval : 0 ≤ set.val op.semNum + op.semOp) (hnum : op.semNum < set.nsems) :
    Summed set (op :: ops) ↔ Permits (set.val op.semNum) op.semOp ∧
      Summed (set.setVal op.semNum (set.val op.semNum + op.semOp).toNat pid) ops := by
  have hlater : ∀ num earlier, (set.val num : Int) + added num (op :: earlier) =
      (set.setVal op.semNum (set.val op.semNum + op.semOp).toNat pid).val num +
        added num earlier := by
    intro num earlier
    rw [added_cons, SemSet.val_setVal hnum]
    split_ifs with h h' h'
    · subst h
      rw [Int.toNat_of_nonneg hval, Int.add_assoc]
    · exact absurd h.symm h'
    · exact absurd h'.symm h
    · rw [Int.zero_add]
  constructor
  · intro h
    refine ⟨by simpa [added] using h 0 op rfl, fun i op' hi => ?_⟩
    rw [← hlater]
    exact h (i + 1) op' hi
  · rintro ⟨hop, hrest⟩ i op' hi
    cases i with
    | zero =>
      cases hi
      simpa [added] using hop
    | succ i =>
      rw [take_succ_cons, hlater]
      exact hrest i op' hi

/-- An array that is permitted by its sums is executed in order. -/
theorem Summed.applyOps (h : Summed set ops) (hrange : set.InRange)
    (hnums : ∀ op ∈ ops, op.semNum < set.nsems) (pid : Nat) (u : Undos) :
    ∃ set' u', applyOps pid set u ops = .ok (set', u') ∧ InOrder pid set ops set' ∧
      set'.InRange := by
  induction ops generalizing set u with
  | nil => exact ⟨set, u, rfl, .nil set, hrange⟩
  | cons op rest ih =>
    obtain ⟨hnum, hnums⟩ := forall_mem_cons.mp hnums
    have hval := hrange op.semNum
    have hop : Permits (set.val op.semNum) op.semOp := by simpa [added] using h 0 op rfl
    have hnew := hop.mem_range (by omega) (by omega)
    have hrest : Summed (set.setVal op.semNum (set.val op.semNum + op.semOp).toNat pid) rest :=
      ((summed_cons hnew.1 hnum).mp h).2
    have hsize : (set.setVal op.semNum (set.val op.semNum + op.semOp).toNat pid).nsems =
        set.nsems := length_set
    obtain ⟨set', u', hrun, horder, hin⟩ := ih hrest (hrange.setVal (by omega))
      (fun op' hop' => hsize ▸ hnums op' hop')
      (if op.undoes then u.record set.semid op.semNum op.semOp else u)
    refine ⟨set', u', ?_, .cons hop horder, hin⟩
    unfold Sem.applyOps applyOp
    unfold semvmx at hnew
    rw [if_neg (by omega)]
    exact hrun

theorem InOrder.summed (h : InOrder pid set ops set') (hrange : set.InRange)
    (hnums : ∀ op ∈ ops, op.semNum < set.nsems) : Summed set ops := by
  induction h with
  | nil => exact fun _ _ hi => by simp at hi
  | @cons set set' op rest hop _ ih =>
    obtain ⟨hnum, hnums⟩ := forall_mem_cons.mp hnums
    have hval := hrange op.semNum
    have hnew := hop.mem_range (by omega) (by omega)
    have hsize : (set.setVal op.semNum (set.val op.semNum + op.semOp).toNat pid).nsems =
        set.nsems := length_set
    exact (summed_cons hnew.1 hnum).mpr
      ⟨hop, ih (hrange.setVal (by omega)) fun op' hop' => hsize ▸ hnums op' hop'⟩

/-- The smallest number is permitted at no value in range. -/
theorem InOrder.ne_min (h : InOrder pid set ops set') (hrange : set.InRange) (hop : op ∈ ops) :
    op.semOp ≠ -32768 := by
  induction h with
  | nil => cases hop
  | @cons set set' op' rest hpermits _ ih =>
    have hval := hrange op'.semNum
    rcases mem_cons.mp hop with rfl | hop
    · rintro hmin
      rw [hmin] at hpermits
      unfold Permits at hpermits
      unfold semvmx at hval
      split_ifs at hpermits <;> omega
    · exact ih (hrange.setVal (by have := hpermits.mem_range (by omega) (by omega); omega)) hop

namespace SemState

variable {s : SemState} {call id : Nat}

/-- An attempt returns with every value in range. If the call succeeds, its operations were
executed in order, each permitted in the state left by the previous ones, and if not, no value
has changed. -/
def Atomic (s : SemState) (call pid id : Nat) (ops : List SemBuf) : Prop :=
  ∃ s', s.attempt call pid id ops = .ok s' ∧ (s'.sets id).InRange ∧
    if s'.calls call = .returned (.ok ()) then InOrder pid (s.sets id) ops (s'.sets id)
    else s'.sets = s.sets

/-- A call that does not succeed and changes no set. -/
theorem atomic_of_same {s' : SemState} (hrange : (s.sets id).InRange)
    (hrun : s.attempt call pid id ops = .ok s') (hsets : s'.sets = s.sets)
    (hcall : s'.calls call ≠ .returned (.ok ())) : s.Atomic call pid id ops :=
  ⟨s', hrun, hsets ▸ hrange, by rwa [if_neg hcall]⟩

theorem atomic_of_error {e : Errno} (hrange : (s.sets id).InRange)
    (hrun : s.attempt call pid id ops = .ok (s.setCall call (.returned (.error e)))) :
    s.Atomic call pid id ops := by
  refine atomic_of_same hrange hrun rfl ?_
  simp [setCall]

theorem atomic_of_refuses (h : Refuses (s.sets id) ops) (hcall : s.calls call = .ready pid id ops)
    (hrange : (s.sets id).InRange) (hlive : ¬ (s.sets id).destroyed = true) :
    s.Atomic call pid id ops := by
  obtain ⟨r, hr, hne⟩ := h.canExecuteOps hrange
  match r with
  | .error e => exact atomic_of_error hrange (by rw [attempt, if_neg hlive, hr])
  | .ok true => exact absurd rfl hne
  | .ok false =>
    by_cases hnowait : (ops.any fun op => op.semFlg &&& ipcNowait ≠ 0) = true
    · refine atomic_of_error hrange (e := .EAGAIN) ?_
      rw [attempt, if_neg hlive, hr]
      exact if_pos hnowait
    · have hwaits : s.attempt call pid id ops = .ok s := by
        rw [attempt, if_neg hlive, hr]
        exact if_neg hnowait
      exact atomic_of_same hrange hwaits rfl (by rw [hcall]; simp)

/-- An attempt is atomic if the set is gone, the test refuses the array, or every operation is
permitted at the value that the operations before it leave, and otherwise it is not. -/
theorem attempt_atomic (hcall : s.calls call = .ready pid id ops) (hrange : (s.sets id).InRange)
    (hnums : ∀ op ∈ ops, op.semNum < (s.sets id).nsems) : s.Atomic call pid id ops ↔
      (s.sets id).destroyed = true ∨ Refuses (s.sets id) ops ∨ Summed (s.sets id) ops := by
  by_cases hdestroyed : (s.sets id).destroyed = true
  · refine iff_of_true (atomic_of_error hrange (e := .EIDRM) ?_) (.inl hdestroyed)
    rw [attempt, if_pos hdestroyed]
  by_cases hrefuses : Refuses (s.sets id) ops
  · exact iff_of_true (atomic_of_refuses hrefuses hcall hrange hdestroyed) (.inr (.inl hrefuses))
  constructor
  · rintro ⟨s', hattempt, -, hend⟩
    rw [attempt, if_neg hdestroyed] at hattempt
    rcases canExecuteOps_of_not_refuses hrange hrefuses with hpass | ⟨hmin, -⟩
    · rw [hpass] at hattempt
      obtain ⟨t, hexec, rfl⟩ := exists_of_observed hattempt
      rw [if_pos (by simp [setCall])] at hend
      exact .inr (.inr (hend.summed hrange hnums))
    · rw [hmin] at hattempt
      cases hattempt
  · intro h
    obtain ⟨set', u', happly, horder, hin⟩ :=
      ((h.resolve_left hdestroyed).resolve_left hrefuses).applyOps hrange hnums pid (s.undo pid)
    rcases canExecuteOps_of_not_refuses hrange hrefuses with hpass | ⟨-, op, hop, hmin⟩
    · have hset : Function.update s.sets id set' id = set' := Function.update_self ..
      unfold Atomic
      rw [attempt, if_neg hdestroyed, hpass]
      dsimp only [execute, bind]
      rw [happly]
      refine ⟨_, rfl, ?_, ?_⟩
      · change (Function.update s.sets id set' id).InRange
        rwa [hset]
      · rw [if_pos (by simp [setCall])]
        change InOrder pid (s.sets id) ops (Function.update s.sets id set' id)
        rwa [hset]
    · exact absurd hmin (horder.ne_min hrange hop)

/-- A set of two semaphores with the value one, and a call with an array for it. -/
def twoSems (ops : List SemBuf) : SemState :=
  { initial with
    sets := fun _ => ⟨1, ⟨0, 0, 0, 0, 0, 0⟩, [⟨1, 0⟩, ⟨1, 0⟩], false⟩
    calls := fun _ => .ready 7 0 ops }

theorem twoSems_inRange (ops : List SemBuf) : ((twoSems ops).sets 0).InRange := by
  intro num
  have hone : 1 ≤ semvmx := by decide
  match num with
  | 0 | 1 => exact hone
  | _ + 2 => exact Nat.zero_le _

/-- One semaphore is raised twice and the other taken. -/
theorem attempt_raiseTwice :
    (twoSems [⟨0, 1, 0⟩, ⟨1, -1, 0⟩, ⟨0, 1, 0⟩]).Atomic 0 7 0 [⟨0, 1, 0⟩, ⟨1, -1, 0⟩, ⟨0, 1, 0⟩] := by
  refine (attempt_atomic rfl (twoSems_inRange _) (by decide)).mpr (.inr (.inr ?_))
  intro i op hop
  rcases i with _ | _ | _ | i
  · cases hop
    decide
  · cases hop
    decide
  · cases hop
    decide
  · cases hop

/-- Each addition alone keeps the value in range, and both are made. -/
theorem attempt_addTwice : ∃ s', (twoSems [⟨0, 20000, 0⟩, ⟨0, 20000, 0⟩]).attempt 0 7 0
    [⟨0, 20000, 0⟩, ⟨0, 20000, 0⟩] = .ok s' ∧ ¬ (s'.sets 0).InRange := by
  obtain ⟨s', hrun, hval⟩ := exists_ok ((twoSems [⟨0, 20000, 0⟩, ⟨0, 20000, 0⟩]).attempt 0 7 0
    [⟨0, 20000, 0⟩, ⟨0, 20000, 0⟩]) (fun s' => (s'.sets 0).val 0 = 40001) (by decide)
  refine ⟨s', hrun, fun hrange => ?_⟩
  have hle := hrange 0
  rw [hval] at hle
  exact absurd hle (by decide)

end SemState

end Petra.Ipc.Sem
