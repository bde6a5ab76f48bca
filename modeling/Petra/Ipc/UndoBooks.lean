import Petra.Ipc.SemUndo

/-! # Undo records and what they stand for

The records of a process are what its `SEM_UNDO` operations have added to the semaphores since
they were last set, with the sign changed. The end of a process takes over its records, and
has them until it has applied them.
-/

namespace Petra.Ipc.Sem

open Base Function

@[simp] theorem undoKey_inj {semid semid' : Int} {num num' : Nat} :
    undoKey semid num = undoKey semid' num' ↔ semid = semid' ∧ num = num' := by
  rw [undoKey, undoKey, toLex_inj, Prod.mk.injEq]

@[simp] theorem undoKey_fst (semid : Int) (num : Nat) : (ofLex (undoKey semid num)).1 = semid := rfl

@[simp] theorem undoKey_snd (semid : Int) (num : Nat) : (ofLex (undoKey semid num)).2 = num := rfl

theorem undoKey_eta (key : UndoKey) : undoKey (ofLex key).1 (ofLex key).2 = key := rfl

/-! ## Records -/

namespace Undos

variable {u : Undos} {semid semid' : Int} {num num' : Nat}

/-- No record is zero. -/
def Nonzero (u : Undos) : Prop := ∀ e ∈ u.entries, e.2 ≠ 0

theorem get?_record_of_ne (u : Undos) {key : UndoKey} (semOp : Int)
    (hkey : key ≠ undoKey semid num) : (u.record semid num semOp).get? key = u.get? key := by
  unfold record
  dsimp only
  split_ifs
  · rw [SortedMap.get?_erase, if_neg hkey]
  · rw [SortedMap.get?_insert_of_ne _ _ hkey]

theorem adjustment_record_self (u : Undos) (semid : Int) (num : Nat) (semOp : Int) :
    (u.record semid num semOp).adjustment semid num =
      max (-semaem) (min (u.adjustment semid num - semOp) semaem) := by
  unfold record
  dsimp only
  split_ifs with hzero
  · rw [hzero, adjustment, SortedMap.get?_erase, if_pos rfl]
    rfl
  · rw [adjustment, SortedMap.get?_insert_self]
    rfl

theorem Nonzero.record (h : u.Nonzero) (semid : Int) (num : Nat) (semOp : Int) :
    (u.record semid num semOp).Nonzero := by
  intro e he
  unfold Undos.record at he
  dsimp only at he
  split_ifs at he with hzero
  · exact h e (SortedMap.mem_erase.mp he).2
  · rcases SortedMap.mem_insert.mp he with rfl | hold
    · exact hzero
    · exact h e hold.2

theorem get?_clear (u : Undos) (semid : Int) (which : Option Nat) (key : UndoKey) :
    (u.clear semid which).get? key =
      if (ofLex key).1 = semid ∧ which.all ((ofLex key).2 = ·) then none else u.get? key := by
  cases which with
  | some num =>
    rw [clear, SortedMap.get?_erase]
    have hiff : key = undoKey semid num ↔
        (ofLex key).1 = semid ∧ (some num).all ((ofLex key).2 = ·) = true := by
      rw [← undoKey_eta key, undoKey_inj, Option.all_some, decide_eq_true_eq, undoKey_fst,
        undoKey_snd]
    simp only [hiff]
  | none =>
    rw [clear, SortedMap.get?_filter]
    by_cases hid : (ofLex key).1 = semid
    · simp [hid]
    · cases u.get? key <;> simp [hid]

theorem Nonzero.clear (h : u.Nonzero) (semid : Int) (which : Option Nat) :
    (u.clear semid which).Nonzero := by
  intro e he
  cases which with
  | some num => exact h e (SortedMap.mem_erase.mp he).2
  | none => exact h e (SortedMap.mem_filter.mp he).1

end Undos

/-! ## Operations -/

/-- Every record that the operations make stays in the range of an adjustment. -/
def Fits (semid : Int) (u : Undos) : List SemBuf → Prop
  | [] => True
  | op :: rest =>
    if op.undoes then
      -semaem ≤ u.adjustment semid op.semNum - op.semOp ∧
        u.adjustment semid op.semNum - op.semOp ≤ semaem ∧
        Fits semid (u.record semid op.semNum op.semOp) rest
    else Fits semid u rest

instance decidableFits (semid : Int) (u : Undos) :
    (ops : List SemBuf) → Decidable (Fits semid u ops)
  | [] => .isTrue trivial
  | op :: rest => by
    unfold Fits
    have := decidableFits semid (u.record semid op.semNum op.semOp) rest
    have := decidableFits semid u rest
    infer_instance

/-- The operations have gone through: the set is the same but for its values, and the records
have taken up what was added. -/
structure Applied (set : SemSet) (u : Undos) (ops : List SemBuf) (set' : SemSet) (u' : Undos) :
    Prop where
  semid : set'.semid = set.semid
  destroyed : set'.destroyed = set.destroyed
  nsems : set'.nsems = set.nsems
  records : ∀ num, u'.adjustment set.semid num = u.adjustment set.semid num - contribution num ops
  others : ∀ key : UndoKey, (ofLex key).1 ≠ set.semid → u'.get? key = u.get? key
  nonzero : u.Nonzero → u'.Nonzero

theorem SemSet.nsems_setVal (set : SemSet) (num val pid : Nat) :
    (set.setVal num val pid).nsems = set.nsems := by
  exact List.length_set ..

theorem adjustment_congr {u u' : Undos} {semid : Int} {num : Nat}
    (h : u'.get? (undoKey semid num) = u.get? (undoKey semid num)) :
    u'.adjustment semid num = u.adjustment semid num := by
  unfold Undos.adjustment
  rw [h]

variable {ops : List SemBuf}

theorem applied_applyOps {pid : Nat} {set set' : SemSet} {u u' : Undos}
    (h : applyOps pid set u ops = .ok (set', u')) (hfits : Fits set.semid u ops) :
    Applied set u ops set' u' := by
  induction ops generalizing set u with
  | nil =>
    cases h
    exact ⟨rfl, rfl, rfl, fun _ => (Int.sub_zero _).symm, fun _ _ => rfl, id⟩
  | cons op rest ih =>
    unfold applyOps applyOp at h
    dsimp only at h
    split_ifs at h with hrange hundo
    · cases h
    · -- The operation is recorded.
      unfold Fits at hfits
      rw [if_pos hundo] at hfits
      obtain ⟨hlow, hhigh, hrest⟩ := hfits
      have happlied := ih h hrest
      refine ⟨happlied.semid, happlied.destroyed, ?_, ?_, ?_, ?_⟩
      · rw [happlied.nsems, SemSet.nsems_setVal]
      · intro num
        have hrec := happlied.records num
        change u'.adjustment set.semid num = _ at hrec
        rw [hrec, contribution]
        by_cases hnum : num = op.semNum
        · subst hnum
          change (u.record set.semid op.semNum op.semOp).adjustment set.semid op.semNum - _ = _
          rw [Undos.adjustment_record_self, min_eq_left hhigh, if_pos ⟨hundo, rfl⟩]
          omega
        · change (u.record set.semid op.semNum op.semOp).adjustment set.semid num - _ = _
          rw [adjustment_congr (Undos.get?_record_of_ne u op.semOp (by simpa using hnum)),
            if_neg (fun h => hnum h.2.symm), Int.zero_add]
      · intro key hkey
        rw [happlied.others key hkey, Undos.get?_record_of_ne]
        rintro rfl
        exact hkey rfl
      · exact fun hnonzero => happlied.nonzero (hnonzero.record set.semid op.semNum op.semOp)
    · unfold Fits at hfits
      rw [if_neg hundo] at hfits
      have happlied := ih h hfits
      refine ⟨happlied.semid, happlied.destroyed, ?_, ?_, happlied.others, happlied.nonzero⟩
      · rw [happlied.nsems, SemSet.nsems_setVal]
      · intro num
        rw [contribution, if_neg (fun h => hundo h.1), Int.zero_add]
        exact happlied.records num

theorem contribution_of_ge {nsems num : Nat}
    (hops : ∀ op ∈ ops, op.semNum < nsems) (hnum : nsems ≤ num) : contribution num ops = 0 := by
  induction ops with
  | nil => rfl
  | cons op rest ih =>
    have hop := hops op (.head _)
    rw [contribution, if_neg, ih (fun op' hop' => hops op' (.tail _ hop')),
      Int.zero_add]
    exact fun h => absurd h.2 (by omega)

namespace SemState

/-- What is recorded for a semaphore, by the process or by its end. -/
def owed (s : SemState) (pid : Nat) (semid : Int) (num : Nat) : Int :=
  (s.undo pid).adjustment semid num +
    ((s.outstanding pid).lookup (undoKey semid num)).getD 0

/-- The end of a process has a record of the semaphore to apply. -/
def Awaits (s : SemState) (pid : Nat) (key : UndoKey) : Prop :=
  key ∈ (s.outstanding pid).map Prod.fst

/-! ## When records stay right -/

/-- The semaphores that a request sets. -/
def resets (semid : Int) : Request → UndoKey → Prop
  | .semop _, _ => False
  | .setVal semnum _, key => key = undoKey semid semnum.toNat
  | .setAll _, key | .rmid, key => (ofLex key).1 = semid

instance (semid : Int) : (req : Request) → (key : UndoKey) → Decidable (resets semid req key)
  | .semop _, _ => .isFalse id
  | .setVal semnum _, key => inferInstanceAs (Decidable (key = undoKey semid semnum.toNat))
  | .setAll _, key => inferInstanceAs (Decidable ((ofLex key).1 = semid))
  | .rmid, key => inferInstanceAs (Decidable ((ofLex key).1 = semid))

/-- A process operates before its end, within the range of its records. A semaphore is set
when no end has a record of it to apply. -/
def Orderly (s : SemState) : SemOp → Prop
  | .attempt call =>
    match s.calls call with
    | .ready pid set ops => pid ∉ s.exiting ∧ Fits (s.sets set).semid (s.undo pid) ops
    | _ => True
  | .control call =>
    match s.calls call with
    | .held _ _ semid _ req =>
      ∀ pid ∈ s.exiting, ∀ e ∈ s.outstanding pid, ¬resets semid req e.1
    | _ => True
  | _ => True

instance (s : SemState) : (op : SemOp) → Decidable (s.Orderly op)
  | .attempt call => by
    dsimp only [Orderly]
    split <;> infer_instance
  | .control call => by
    dsimp only [Orderly]
    split <;> infer_instance
  | .create .. | .look .. | .check .. | .cancel .. | .exit .. | .lookExit .. | .applyExit ..
  | .respawn .. => .isTrue trivial

/-- The registry, the calls, the records and the history belong together. -/
structure Books (s : SemState) : Prop where
  registered : ∀ semid set, s.registry semid = some set →
    set < s.next ∧ (s.sets set).semid = semid ∧ (s.sets set).destroyed = false
  live : ∀ set, set < s.next → (s.sets set).destroyed = false →
    s.registry (s.sets set).semid = some set
  held : ∀ call pid cred semid set req, s.calls call = .held pid cred semid set req →
    set < s.next ∧ (s.sets set).semid = semid
  ready : ∀ call pid set ops, s.calls call = .ready pid set ops →
    set < s.next ∧ ∀ op ∈ ops, op.semNum < (s.sets set).nsems
  quiet : ∀ pid, pid ∉ s.exiting → s.outstanding pid = []
  taken : ∀ pid ∈ s.exiting, s.undo pid = .empty
  distinct : ∀ pid, ((s.outstanding pid).map Prod.fst).Nodup
  nonzero : ∀ pid, (s.undo pid).Nonzero ∧ ∀ e ∈ s.outstanding pid, e.2 ≠ 0
  found : ∀ pid key adj set, s.applying pid = some (key, adj, set) →
    s.registry (ofLex key).1 = some set
  gone : ∀ semid, s.registry semid = none → ∀ pid num,
    (s.undo pid).get? (undoKey semid num) = none ∧ ¬s.Awaits pid (undoKey semid num)
  sum : ∀ semid set, s.registry semid = some set → ∀ pid num,
    s.owed pid semid num = -s.net pid set num
  bounds : ∀ pid set num, (s.sets set).nsems ≤ num → s.net pid set num = 0
  fresh : ∀ pid set num, s.next ≤ set → s.net pid set num = 0

variable {s s' : SemState} {call pid set num : Nat} {semid : Int}

theorem lookup_of_not_awaits {key : UndoKey} (h : ¬s.Awaits pid key) :
    (s.outstanding pid).lookup key = none := by
  rw [List.lookup_eq_none_iff]
  intro e he
  rw [bne_iff_ne]
  rintro rfl
  exact h (List.mem_map_of_mem he)

namespace Books

/-- The books of one process: what it has recorded, what its end has still to apply, the record
that is being applied, and what it has added. -/
structure Own (s : SemState) (ending : Prop) (undo : Undos) (out : List (UndoKey × Int))
    (applying : Option (UndoKey × Int × Nat)) (net : Nat → Nat → Int) : Prop where
  quiet : ¬ending → out = []
  taken : ending → undo = .empty
  distinct : (out.map Prod.fst).Nodup
  nonzero : undo.Nonzero ∧ ∀ e ∈ out, e.2 ≠ 0
  found : ∀ key adj set, applying = some (key, adj, set) → s.registry (ofLex key).1 = some set
  gone : ∀ semid, s.registry semid = none → ∀ num,
    undo.get? (undoKey semid num) = none ∧ undoKey semid num ∉ out.map Prod.fst
  sum : ∀ semid set, s.registry semid = some set → ∀ num,
    undo.adjustment semid num + (out.lookup (undoKey semid num)).getD 0 = -net set num
  bounds : ∀ set num, (s.sets set).nsems ≤ num → net set num = 0
  fresh : ∀ set num, s.next ≤ set → net set num = 0

variable (h : s.Books) {t : SemState}

include h

theorem own (pid : Nat) :
    Own s (pid ∈ s.exiting) (s.undo pid) (s.outstanding pid) (s.applying pid) (s.net pid) where
  quiet := h.quiet pid
  taken := h.taken pid
  distinct := h.distinct pid
  nonzero := h.nonzero pid
  found := h.found pid
  gone semid hnone := h.gone semid hnone pid
  sum semid set hset := h.sum semid set hset pid
  bounds := h.bounds pid
  fresh := h.fresh pid

/-- The books of the processes change. -/
theorem ofOwns (ht : t = { s with
      exiting := t.exiting
      pending := t.pending
      applying := t.applying
      undo := t.undo
      net := t.net })
    (hown : ∀ pid, Own s (pid ∈ t.exiting) (t.undo pid) (t.outstanding pid) (t.applying pid)
      (t.net pid)) : t.Books := by
  rw [ht]
  exact { h with
    quiet := fun pid => (hown pid).quiet
    taken := fun pid => (hown pid).taken
    distinct := fun pid => (hown pid).distinct
    nonzero := fun pid => (hown pid).nonzero
    found := fun pid => (hown pid).found
    gone := fun semid hnone pid => (hown pid).gone semid hnone
    sum := fun semid set hset pid => (hown pid).sum semid set hset
    bounds := fun pid => (hown pid).bounds
    fresh := fun pid => (hown pid).fresh }

/-- The books of one process change. -/
theorem ofOwn (pid : Nat) (ht : t = { s with
      exiting := t.exiting
      pending := t.pending
      applying := t.applying
      undo := t.undo
      net := t.net })
    (hself : Own s (pid ∈ t.exiting) (t.undo pid) (t.outstanding pid) (t.applying pid) (t.net pid))
    (hothers : ∀ pid' ≠ pid, (pid' ∈ t.exiting ↔ pid' ∈ s.exiting) ∧
      t.undo pid' = s.undo pid' ∧ t.pending pid' = s.pending pid' ∧
      t.applying pid' = s.applying pid' ∧ t.net pid' = s.net pid') : t.Books := by
  refine h.ofOwns ht fun pid' => ?_
  by_cases hsame : pid' = pid
  · exact hsame ▸ hself
  obtain ⟨hexiting, hundo, hpending, happlying, hnet⟩ := hothers pid' hsame
  have hout : t.outstanding pid' = s.outstanding pid' := by
    rw [outstanding, happlying, hpending, outstanding]
  rw [hexiting, hundo, hout, happlying, hnet]
  exact h.own pid'

/-- A call goes on. -/
theorem setCall {c : SemCall} (hheld : ∀ pid cred semid set req, c = .held pid cred semid set req →
      set < s.next ∧ (s.sets set).semid = semid) (hready : ∀ pid set ops, c = .ready pid set ops →
      set < s.next ∧ ∀ op ∈ ops, op.semNum < (s.sets set).nsems) : (s.setCall call c).Books :=
  { h with
    held := fun call' pid cred semid set req hcall => by
      rcases update_eq_cases hcall with ⟨-, hnew⟩ | ⟨-, hold⟩
      · exact hheld pid cred semid set req hnew
      · exact h.held call' pid cred semid set req hold
    ready := fun call' pid set ops hcall => by
      rcases update_eq_cases hcall with ⟨-, hnew⟩ | ⟨-, hold⟩
      · exact hready pid set ops hnew
      · exact h.ready call' pid set ops hold }

theorem returned (result : Except Errno Unit) : (s.setCall call (.returned result)).Books :=
  h.setCall nofun nofun

/-- A new set under a free id. -/
theorem created {perm : IpcPerm} {nsems : Nat} (hfree : s.registry semid = none) : Books { s with
      registry := update s.registry semid (some s.next)
      sets := update s.sets s.next ⟨semid, perm, List.replicate nsems ⟨0, 0⟩, false⟩
      next := s.next + 1 } := by
  have hsets : ∀ set < s.next,
      update s.sets s.next ⟨semid, perm, List.replicate nsems ⟨0, 0⟩, false⟩ set =
        s.sets set := fun set hset => update_of_ne hset.ne ..
  have hreg : ∀ semid' set, s.registry semid' = some set → semid' ≠ semid := by
    rintro semid' set hset rfl
    rw [hfree] at hset
    cases hset
  refine ⟨?_, ?_, ?_, ?_, h.quiet, h.taken, h.distinct, h.nonzero, ?_, ?_, ?_, ?_, ?_⟩
  · intro semid' set hset
    dsimp only
    rcases update_eq_cases hset with ⟨rfl, hnew⟩ | ⟨-, hset⟩
    · cases hnew
      rw [update_self]
      exact ⟨Nat.lt_succ_self _, rfl, rfl⟩
    · obtain ⟨hlt, hrest⟩ := h.registered semid' set hset
      rw [hsets set hlt]
      exact ⟨hlt.trans (Nat.lt_succ_self _), hrest⟩
  · intro set hlt hlive
    dsimp only at hlt hlive ⊢
    rcases Nat.lt_succ_iff_lt_or_eq.mp hlt with hold | rfl
    · rw [hsets set hold] at hlive ⊢
      have hset := h.live set hold hlive
      rw [update_of_ne (hreg _ _ hset), hset]
    · rw [update_self]
      exact update_self ..
  · intro call pid cred semid' set req hcall
    obtain ⟨hlt, hsemid⟩ := h.held call pid cred semid' set req hcall
    dsimp only
    rw [hsets set hlt]
    exact ⟨hlt.trans (Nat.lt_succ_self _), hsemid⟩
  · intro call pid set ops hcall
    obtain ⟨hlt, hops⟩ := h.ready call pid set ops hcall
    dsimp only
    rw [hsets set hlt]
    exact ⟨hlt.trans (Nat.lt_succ_self _), hops⟩
  · intro pid key adj set happlying
    have hset := h.found pid key adj set happlying
    dsimp only
    rw [update_of_ne (hreg _ _ hset), hset]
  · intro semid' hnone
    refine h.gone semid' ?_
    dsimp only at hnone
    by_cases hnew : semid' = semid
    · rw [hnew, hfree]
    · rwa [update_of_ne hnew] at hnone
  · intro semid' set hset pid num
    rcases update_eq_cases hset with ⟨rfl, hnew⟩ | ⟨-, hset⟩
    · cases hnew
      -- Nothing was recorded under the id, and nothing was added to the set.
      obtain ⟨hnone, hawaits⟩ := h.gone semid' hfree pid num
      have howed : s.owed pid semid' num = 0 := by
        unfold owed Undos.adjustment
        rw [hnone, lookup_of_not_awaits hawaits]
        rfl
      rw [h.fresh pid s.next num le_rfl]
      exact howed
    · exact h.sum semid' set hset pid num
  · intro pid set num hnum
    dsimp only at hnum ⊢
    by_cases hnew : set = s.next
    · exact h.fresh pid set num hnew.ge
    · rw [update_of_ne hnew] at hnum
      exact h.bounds pid set num hnum
  · intro pid set num hle
    exact h.fresh pid set num ((Nat.le_succ _).trans hle)

/-- Only values change. -/
theorem revalued {sets : Nat → SemSet} (hsemid : ∀ set, (sets set).semid = (s.sets set).semid)
    (hdestroyed : ∀ set, (sets set).destroyed = (s.sets set).destroyed)
    (hnsems : ∀ set, (sets set).nsems = (s.sets set).nsems) : Books { s with sets := sets } :=
  { h with
    registered := fun semid set hset => by
      rw [hsemid, hdestroyed]
      exact h.registered semid set hset
    live := fun set hlt hlive => by
      rw [hdestroyed] at hlive
      rw [hsemid]
      exact h.live set hlt hlive
    held := fun call pid cred semid set req hcall => by
      rw [hsemid]
      exact h.held call pid cred semid set req hcall
    ready := fun call pid set ops hcall => by
      rw [hnsems]
      exact h.ready call pid set ops hcall
    bounds := fun pid set num hnum => h.bounds pid set num (hnsems set ▸ hnum) }

/-- The values of one set change. -/
theorem revaluedSet {newSet : SemSet} (hsemid : newSet.semid = (s.sets set).semid)
    (hdestroyed : newSet.destroyed = (s.sets set).destroyed)
    (hnsems : newSet.nsems = (s.sets set).nsems) : (s.setSet set newSet).Books := by
  refine h.revalued ?_ ?_ ?_ <;>
  · intro set'
    by_cases hsame : set' = set
    · rw [hsame, update_self]
      assumption
    · rw [update_of_ne hsame]

/-- Two ids have different sets. -/
theorem set_ne {semid' : Int} {set' : Nat} (hset : s.registry semid = some set)
    (hset' : s.registry semid' = some set') (hne : semid' ≠ semid) : set' ≠ set := by
  rintro rfl
  exact hne ((h.registered semid' _ hset').2.1.symm.trans (h.registered semid _ hset).2.1)

/-- A `semop` goes through. -/
theorem executed {ops : List SemBuf} (hlt : set < s.next) (hlive : (s.sets set).destroyed = false)
    (hops : ∀ op ∈ ops, op.semNum < (s.sets set).nsems) (hpid : pid ∉ s.exiting)
    (hfits : Fits (s.sets set).semid (s.undo pid) ops) (hstep : s.execute pid set ops = .ok s') :
    s'.Books := by
  obtain ⟨⟨newSet, u⟩, happly, hstep⟩ := ok_of_bind hstep
  cases hstep
  have happlied := applied_applyOps happly hfits
  have hreg := h.live set hlt hlive
  have hvalues := h.revaluedSet happlied.semid happlied.destroyed happlied.nsems
  refine hvalues.ofOwn pid rfl ?_ fun pid' hne => by
    simp only [update_of_ne hne, hne, false_and, if_false, Int.add_zero]
    exact ⟨Iff.rfl, rfl, rfl, rfl, rfl⟩
  simp only [update_self, true_and]
  refine { hvalues.own pid with
    taken := fun hmem => absurd hmem hpid
    nonzero := ⟨happlied.nonzero (h.nonzero pid).1, (h.nonzero pid).2⟩
    gone := fun semid hnone num => ⟨?_, (h.gone semid hnone pid num).2⟩
    sum := fun semid set' hset' num => ?_
    bounds := fun set' num hnum => ?_
    fresh := fun set' num hle => ?_ }
  · rw [happlied.others, (h.gone semid hnone pid num).1]
    rintro rfl
    cases hreg.symm.trans hnone
  · have hsum := h.sum semid set' hset' pid num
    unfold owed at hsum
    change _ + ((s.outstanding pid).lookup (undoKey semid num)).getD 0 = _
    by_cases hid : semid = (s.sets set).semid
    · subst hid
      cases hreg.symm.trans hset'
      rw [happlied.records]
      omega
    · rw [adjustment_congr (happlied.others _ hid), if_neg (h.set_ne hreg hset' hid)]
      omega
  · have hzero : s.net pid set' num = 0 := hvalues.bounds pid set' num hnum
    rw [hzero, Int.zero_add]
    split_ifs with hsame
    · simp only [hsame, setSet, update_self, happlied.nsems] at hnum
      exact contribution_of_ge hops hnum
    · rfl
  · rw [h.fresh pid set' num hle, if_neg, Int.zero_add]
    rintro rfl
    exact absurd hlt (not_lt.mpr hle)

/-- The records of a semaphore, or of a set, are dropped while no end awaits them. -/
theorem cleared {which : Option Nat} (hset : s.registry semid = some set)
    (hawaits : ∀ pid num, which.all (num = ·) = true → ¬s.Awaits pid (undoKey semid num)) :
    ((s.clearUndoForSem semid which).resetNet set which).Books := by
  refine h.ofOwns rfl fun pid => ?_
  change Own s _ ((s.undo pid).clear semid which) (s.outstanding pid) _ fun set' num =>
    if set' = set ∧ which.all (num = ·) then 0 else s.net pid set' num
  refine { h.own pid with
    taken := fun hpid => ?_
    nonzero := ⟨(h.nonzero pid).1.clear semid which, (h.nonzero pid).2⟩
    gone := fun semid' hnone num => ⟨?_, (h.gone semid' hnone pid num).2⟩
    sum := fun semid' set' hset' num => ?_
    bounds := fun set' num hnum => ?_
    fresh := fun set' num hle => ?_ }
  · rw [h.taken pid hpid]
    cases which <;> rfl
  · rw [Undos.get?_clear, (h.gone semid' hnone pid num).1, ite_self]
  · have hsum := h.sum semid' set' hset' pid num
    unfold owed at hsum
    by_cases hid : semid' = semid
    · subst hid
      cases hset.symm.trans hset'
      by_cases hnum : which.all (num = ·) = true
      · unfold Undos.adjustment
        rw [Undos.get?_clear, if_pos ⟨rfl, hnum⟩, lookup_of_not_awaits (hawaits pid num hnum),
          if_pos ⟨rfl, hnum⟩]
        rfl
      · rw [adjustment_congr (u := s.undo pid) (by rw [Undos.get?_clear, if_neg fun h => hnum h.2]),
          if_neg fun h => hnum h.2, hsum]
    · rw [adjustment_congr (u := s.undo pid) (by rw [Undos.get?_clear, if_neg fun h => hid h.1]),
        if_neg fun h' => h.set_ne hset hset' hid h'.1, hsum]
  · rw [h.bounds pid set' num hnum, ite_self]
  · rw [h.fresh pid set' num hle, ite_self]

/-- The set of an id without records is removed. -/
theorem removed (hset : s.registry semid = some set)
    (hgone : ∀ pid num, (s.undo pid).get? (undoKey semid num) = none ∧
      ¬s.Awaits pid (undoKey semid num)) : Books { s with
      sets := update s.sets set { s.sets set with destroyed := true }
      registry := update s.registry semid none } := by
  have hsame : ∀ set', (update s.sets set { s.sets set with destroyed := true } set').semid =
      (s.sets set').semid ∧
      (update s.sets set { s.sets set with destroyed := true } set').nsems =
        (s.sets set').nsems := by
    intro set'
    by_cases heq : set' = set
    · rw [heq, update_self]
      exact ⟨rfl, rfl⟩
    · rw [update_of_ne heq]
      exact ⟨rfl, rfl⟩
  have hreg : ∀ semid' set', update s.registry semid none semid' = some set' →
      semid' ≠ semid ∧ s.registry semid' = some set' := by
    intro semid' set' hset'
    rcases update_eq_cases hset' with ⟨-, hnew⟩ | hold
    · cases hnew
    · exact hold
  refine ⟨?_, ?_, ?_, ?_, h.quiet, h.taken, h.distinct, h.nonzero, ?_, ?_, ?_, ?_, h.fresh⟩
  · intro semid' set' hset'
    obtain ⟨hid, hset'⟩ := hreg semid' set' hset'
    dsimp only
    rw [update_of_ne (h.set_ne hset hset' hid)]
    exact h.registered semid' set' hset'
  · intro set' hlt hlive
    dsimp only at hlt hlive ⊢
    have hne : set' ≠ set := by
      rintro rfl
      rw [update_self] at hlive
      cases hlive
    rw [update_of_ne hne] at hlive ⊢
    have hset' := h.live set' hlt hlive
    rw [update_of_ne, hset']
    intro hid
    rw [hid, hset] at hset'
    exact hne (Option.some.inj hset').symm
  · intro call pid cred semid' set' req hcall
    rw [(hsame set').1]
    exact h.held call pid cred semid' set' req hcall
  · intro call pid set' ops hcall
    rw [(hsame set').2]
    exact h.ready call pid set' ops hcall
  · intro pid key adj set' happlying
    have hset' := h.found pid key adj set' happlying
    dsimp only
    rw [update_of_ne, hset']
    -- The end of a process is not applying a record of the set.
    rintro rfl
    refine (hgone pid (ofLex key).2).2 ?_
    unfold Awaits outstanding
    rw [happlying]
    exact (.head _)
  · intro semid' hnone
    dsimp only at hnone
    by_cases hid : semid' = semid
    · rw [hid]
      exact hgone
    · rw [update_of_ne hid] at hnone
      exact h.gone semid' hnone
  · intro semid' set' hset'
    exact h.sum semid' set' (hreg semid' set' hset').2
  · intro pid set' num hnum
    rw [(hsame set').2] at hnum
    exact h.bounds pid set' num hnum

end Books

/-! ## The sections of `semctl` -/

/-- What a `semctl` that sets semaphores or removes the set does. -/
inductive Controlled (s : SemState) (semid : Int) (set : Nat) : Request → SemState → Prop
  | setVal {semnum val : Int} {newSet : SemSet} (hnum : 0 ≤ semnum)
      (hlive : (s.sets set).destroyed = false) (hsemid : newSet.semid = (s.sets set).semid)
      (hdestroyed : newSet.destroyed = (s.sets set).destroyed)
      (hnsems : newSet.nsems = (s.sets set).nsems) :
      Controlled s semid set (.setVal semnum val)
        (((s.setSet set newSet).clearUndoForSem semid (some semnum.toNat)).resetNet set
          (some semnum.toNat))
  | setAll {values : List Nat} {newSet : SemSet} (hlive : (s.sets set).destroyed = false)
      (hsemid : newSet.semid = (s.sets set).semid)
      (hdestroyed : newSet.destroyed = (s.sets set).destroyed)
      (hnsems : newSet.nsems = (s.sets set).nsems) :
      Controlled s semid set (.setAll values)
        (((s.setSet set newSet).clearUndoForSem semid none).resetNet set none)
  | rmid (hlive : (s.sets set).destroyed = false) :
      Controlled s semid set .rmid
        { (s.clearUndoForSem semid none).resetNet set none with
          sets := update s.sets set { s.sets set with destroyed := true }
          registry := update s.registry semid none }

variable {cred : Ucred}

theorem controlled_setVal {semnum val : Int}
    (h : s.semctlSetVal pid cred semid set semnum val = .ok s') :
    Controlled s semid set (.setVal semnum val) s' := by
  unfold semctlSetVal at h
  cases hperm : (s.sets set).perm.checkWritePermission cred with
  | error e =>
    rw [hperm] at h
    split_ifs at h
  | ok =>
    rw [hperm] at h
    split_ifs at h with hrange hlive hnum
    cases h
    exact .setVal (by omega) (by simpa using hlive) rfl rfl (SemSet.nsems_setVal ..)

theorem controlled_setall {values : List Nat}
    (h : s.semctlSetall pid cred semid set values = .ok s') :
    Controlled s semid set (.setAll values) s' := by
  unfold semctlSetall at h
  cases hperm : (s.sets set).perm.checkWritePermission cred with
  | error e =>
    rw [hperm] at h
    split_ifs at h
  | ok =>
    rw [hperm] at h
    split_ifs at h with hlive hlength
    cases h
    refine .setAll (by simpa using hlive) rfl rfl ?_
    change (List.map _ (values.take (s.sets set).nsems)).length = (s.sets set).nsems
    rw [List.length_map, List.length_take]
    exact min_eq_left (not_lt.mp hlength)

theorem controlled_rmid (h : s.semctlRmid cred semid set = .ok s') :
    Controlled s semid set .rmid s' := by
  unfold semctlRmid at h
  split_ifs at h with hlive
  split at h
  · cases h
  · cases h
    exact .rmid (by simpa using hlive)

variable {req : Request}

theorem controlled_control (h : s.control pid cred semid set req = some (.ok s')) :
    Controlled s semid set req s' := by
  cases req with
  | semop ops => cases h
  | setVal semnum val => exact controlled_setVal (Option.some.inj h)
  | setAll values => exact controlled_setall (Option.some.inj h)
  | rmid => exact controlled_rmid (Option.some.inj h)

/-- No end of a process has a record of a semaphore that the request sets. -/
def Settled (s : SemState) (semid : Int) (req : Request) : Prop :=
  ∀ pid key, s.Awaits pid key → ¬resets semid req key

theorem Books.settled (h : s.Books)
    (hun : ∀ pid ∈ s.exiting, ∀ e ∈ s.outstanding pid, ¬resets semid req e.1) :
    s.Settled semid req := by
  intro pid key hawaits
  obtain ⟨e, he, rfl⟩ := List.mem_map.mp hawaits
  by_cases hpid : pid ∈ s.exiting
  · exact hun pid hpid e he
  · rw [h.quiet pid hpid] at he
    cases he

theorem Books.controlled (h : s.Books) (hlt : set < s.next)
    (hsemid : (s.sets set).semid = semid) (hsettled : s.Settled semid req)
    (hcontrolled : Controlled s semid set req s') : s'.Books := by
  cases hcontrolled with
  | setVal hnum hlive hid hdestroyed hnsems =>
    have hreg := hsemid ▸ h.live set hlt hlive
    refine (h.revaluedSet hid hdestroyed hnsems).cleared hreg ?_
    intro pid num hall hawaits
    refine hsettled pid _ hawaits ?_
    rw [Option.all_some, decide_eq_true_eq] at hall
    exact hall ▸ rfl
  | setAll hlive hid hdestroyed hnsems =>
    have hreg := hsemid ▸ h.live set hlt hlive
    exact (h.revaluedSet hid hdestroyed hnsems).cleared hreg
      fun pid num _ hawaits => hsettled pid _ hawaits rfl
  | rmid hlive =>
    have hreg := hsemid ▸ h.live set hlt hlive
    have hcleared := @cleared s set semid h none hreg
      fun pid num _ hawaits => hsettled pid _ hawaits rfl
    refine hcleared.removed hreg ?_
    intro pid num
    refine ⟨?_, fun hawaits => hsettled pid _ hawaits rfl⟩
    change ((s.undo pid).clear semid none).get? (undoKey semid num) = none
    rw [Undos.get?_clear, if_pos ⟨rfl, rfl⟩]

/-! ## The end of a process -/

theorem lookup_entries (u : Undos) (key : UndoKey) : u.entries.lookup key = u.get? key := by
  unfold SortedMap.get?
  induction u.entries with
  | nil => rfl
  | cons e rest ih =>
    rw [List.lookup_cons]
    by_cases heq : e.1 = key
    · simp [heq]
    · have hne : (key == e.1) = false := by simpa using fun h => heq h.symm
      simp [heq, hne, ih]

namespace Books

theorem outstanding_eq (h : s.Books) (hpid : pid ∉ s.exiting) :
    s.applying pid = none ∧ s.pending pid = [] := by
  have hnil := h.quiet pid hpid
  obtain ⟨happlying, hpending⟩ := List.append_eq_nil_iff.mp hnil
  rw [Option.toList_eq_nil_iff, Option.map_eq_none_iff] at happlying
  exact ⟨happlying, hpending⟩

/-- The end of a process takes its records out. -/
theorem exited (h : s.Books) (hpid : pid ∉ s.exiting) :
    Books { s with
      exiting := pid :: s.exiting
      pending := update s.pending pid (s.undo pid).entries
      undo := update s.undo pid .empty } := by
  obtain ⟨happlying, -⟩ := h.outstanding_eq hpid
  have hown : Own s True .empty (s.undo pid).entries none (s.net pid) := by
    refine ⟨nofun, fun _ => rfl, ?_, ⟨nofun, (h.nonzero pid).1⟩, nofun, ?_, ?_, h.bounds pid,
      h.fresh pid⟩
    · exact List.pairwise_map.mpr ((s.undo pid).sorted.imp fun hlt => hlt.ne)
    · intro semid hnone num
      have hget := (h.gone semid hnone pid num).1
      rw [SortedMap.get?_eq_none] at hget
      refine ⟨rfl, fun hmem => ?_⟩
      obtain ⟨e, he, heq⟩ := List.mem_map.mp hmem
      exact hget e he heq
    · intro semid set hset num
      rw [← h.sum semid set hset pid num, owed, h.quiet pid hpid, lookup_entries]
      exact Int.add_comm ..
  refine h.ofOwn pid rfl (by simpa [outstanding, happlying] using hown) ?_
  intro pid' hne
  simp [hne]

variable {adj : Int} {key : UndoKey}

/-- The end of a process finds the set of its next record. -/
theorem looked (h : s.Books) {rest : List (UndoKey × Int)}
    (happlying : s.applying pid = none) (hpending : s.pending pid = (key, adj) :: rest)
    (hset : s.registry (ofLex key).1 = some set) :
    Books { s with
      pending := update s.pending pid rest
      applying := update s.applying pid (some (key, adj, set)) } := by
  have hown : Own s (pid ∈ s.exiting) (s.undo pid) ((key, adj) :: rest) (some (key, adj, set))
      (s.net pid) := by
    have hown := h.own pid
    rw [outstanding, happlying, hpending] at hown
    refine { hown with found := ?_ }
    rintro key' adj' set' ⟨⟩
    exact hset
  refine h.ofOwn pid rfl (by simpa [outstanding] using hown) ?_
  intro pid' hne
  simp [update_of_ne hne]

section

variable (h : s.Books) (happlying : s.applying pid = some (key, adj, set))

include h happlying

omit h in
theorem outstanding_applying : s.outstanding pid = (key, adj) :: s.pending pid := by
  unfold outstanding
  rw [happlying]
  rfl

/-- The record that an end applies is what the process has added, and can be applied. -/
theorem applying_eq :
    adj = -s.net pid set (ofLex key).2 ∧ adj ≠ 0 ∧ (s.sets set).destroyed = false ∧
      (ofLex key).2 < (s.sets set).nsems := by
  have hout := outstanding_applying happlying
  have hpid : pid ∈ s.exiting := by
    by_contra hpid
    rw [h.quiet pid hpid] at hout
    cases hout
  have hset := h.found pid key adj set happlying
  have hsum := h.sum (ofLex key).1 set hset pid (ofLex key).2
  unfold owed Undos.adjustment at hsum
  rw [h.taken pid hpid, hout, undoKey_eta, List.lookup_cons_self] at hsum
  have hadj : adj = -s.net pid set (ofLex key).2 := by
    rw [← hsum]
    exact (Int.zero_add adj).symm
  have hne : adj ≠ 0 := (h.nonzero pid).2 (key, adj) (hout ▸ (.head _))
  refine ⟨hadj, hne, (h.registered _ _ hset).2.2, ?_⟩
  by_contra hnum
  rw [h.bounds pid set _ (not_lt.mp hnum)] at hadj
  exact hne hadj

/-- A record is dropped together with what it stood for. -/
theorem dropped :
    Books { s with
      applying := update s.applying pid none
      net := fun pid' set' num' =>
        if pid' = pid ∧ set' = set ∧ num' = (ofLex key).2 then 0 else s.net pid' set' num' } := by
  have hset := h.found pid key adj set happlying
  have hout := outstanding_applying happlying
  have hdistinct := h.distinct pid
  rw [hout, List.map_cons, List.nodup_cons] at hdistinct
  have hown : Own s (pid ∈ s.exiting) (s.undo pid) (s.pending pid) none fun set' num' =>
      if set' = set ∧ num' = (ofLex key).2 then 0 else s.net pid set' num' := by
    have hold := h.own pid
    rw [hout] at hold
    refine ⟨fun h => absurd (hold.quiet h) nofun, hold.taken, hdistinct.2, ?_, nofun, ?_, ?_, ?_, ?_⟩
    · exact ⟨hold.nonzero.1, fun e he => hold.nonzero.2 e (.tail _ he)⟩
    · intro semid hnone num
      obtain ⟨hget, hawaits⟩ := hold.gone semid hnone num
      exact ⟨hget, fun hmem => hawaits (.tail _ hmem)⟩
    · intro semid set' hset' num
      have hsum := hold.sum semid set' hset' num
      by_cases hkey : undoKey semid num = key
      · -- The record itself: nothing else is recorded under its key.
        subst hkey
        rw [undoKey_fst, hset'] at hset
        have hnone : (s.pending pid).lookup (undoKey semid num) = none := by
          rw [List.lookup_eq_none_iff]
          intro e he
          rw [bne_iff_ne]
          rintro heq
          exact hdistinct.1 (List.mem_map.mpr ⟨e, he, heq.symm⟩)
        have hadj := (h.applying_eq happlying).1
        rw [List.lookup_cons_self] at hsum
        rw [hnone, if_pos ⟨Option.some.inj hset, rfl⟩]
        rw [undoKey_snd, ← Option.some.inj hset] at hadj
        change _ + adj = _ at hsum
        change _ + (0 : Int) = -0
        omega
      · have hbeq : (undoKey semid num == key) = false := beq_false_of_ne hkey
        rw [List.lookup_cons, hbeq] at hsum
        rw [if_neg]
        · exact hsum
        · rintro ⟨rfl, rfl⟩
          have hid : semid = (ofLex key).1 :=
            (h.registered _ _ hset').2.1.symm.trans (h.registered _ _ hset).2.1
          exact hkey (hid ▸ undoKey_eta key)
    · intro set' num hnum
      rw [hold.bounds set' num hnum, ite_self]
    · intro set' num hle
      rw [hold.fresh set' num hle, ite_self]
  refine h.ofOwn pid rfl (by simpa [outstanding] using hown) ?_
  intro pid' hne
  simp [hne]

/-- An applied record is gone. -/
theorem applied : (s.applyRecord pid key adj set).Books := by
  obtain ⟨hadj, hne, hlive, hnum⟩ := h.applying_eq happlying
  unfold applyRecord
  rw [if_neg (by simp [hne, hlive, hnum])]
  generalize (max 0 (min (↑((s.sets set).val (ofLex key).2) + adj) (semvmx : Int))).toNat = val
  have hvalued : (s.setSet set ((s.sets set).setVal (ofLex key).2 val pid)).Books :=
    h.revaluedSet rfl rfl (SemSet.nsems_setVal ..)
  exact hvalued.dropped happlying

end

theorem respawned (h : s.Books) (hout : s.outstanding pid = []) :
    Books { s with exiting := s.exiting.filter (· ≠ pid) } :=
  { h with
    quiet := fun pid' hpid' => by
      by_cases heq : pid' = pid
      · rw [heq]
        exact hout
      · refine h.quiet pid' fun hmem => hpid' (List.mem_filter.mpr ⟨hmem, by simpa using heq⟩)
    taken := fun pid' hpid' => h.taken pid' (List.mem_filter.mp hpid').1 }

end Books

end SemState

end Petra.Ipc.Sem
