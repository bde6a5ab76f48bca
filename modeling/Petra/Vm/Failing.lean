import Petra.Vm.Protecting
import Petra.Vm.Records

/-! # Calls that fail

`mmap`, `mremap` and `resize_mapping` make their checks before they change anything. The
exceptions are the pages that `MAP_POPULATE` asks for once the record has been made, and the
limit, which `mremap` looks at when it has already cut off the end of a range that it is to move
to a fixed place.
-/

namespace Petra.Vm

open Base Call Vmar

@[simp] theorem failsIn_orPanic_bind {σ α β : Type} {Q : σ → Prop} {s : σ} {r : Except Panic α}
    {f : α → Call VmarPanic Errno σ β} :
    (orPanic r >>= f).FailsIn Q s ↔ ∀ a, r = .ok a → (f a).FailsIn Q s := by
  cases r with
  | ok a => exact ⟨fun h _ ha => Except.ok.inj ha ▸ h, fun h => h a rfl⟩
  | error p => exact iff_of_true failsIn_abort nofun

namespace Vmar

variable {v : Vmar} {Q : Vmar → Prop} {range oldRange : Range} {before kept newStart : Nat}
  {backing : Option Backing} {addr len offset oldAddr oldSize newSize : Nat} {prot : VmPerms}

theorem failsIn_carve {op : Mappings.CarveOp VmSpace} : (carve range op).FailsIn Q v := by
  simp [carve]

theorem failsIn_unmapRange : (unmapRange range).FailsIn Q v :=
  failsIn_carve.bind fun _ _ _ => failsIn_pure

/-- The limit does not allow a total. -/
def Exceeds (v : Vmar) (total : Nat) : Prop := v.maxAddrSpace ≠ 0 ∧ total > v.maxAddrSpace

/-- The arguments of `mmap` are not in order, or there is no place for the record. -/
def Refuses (v : Vmar) (backing : Option Backing) (addr len : Nat) (prot : VmPerms)
    (flags : MmapFlags) (offset : Nat) : Prop :=
  ∀ size perms start, checkMmap backing addr len prot flags offset = .ok (size, perms) →
    placeMapping v addr size flags v = .ok (.ok start, v) →
      isMappableRange ⟨start, start + size⟩ = false ∨
        flags.contains .FIXED = false ∧ v.Exceeds (min (v.totalVm + size) (usizeLimit - 1))

/-- A record is made only if nothing speaks against it. -/
theorem not_refuses_of_run {flags : MmapFlags} {t : Vmar}
    (hrun : mmapLocked backing addr len prot flags offset v = .ok (.ok range, t)) :
    ¬ v.Refuses backing addr len prot flags offset := by
  intro hrefuses
  obtain ⟨⟨size, perms⟩, hcheck, hrun⟩ := ok_of_run_orFail hrun
  change (placeMapping v addr size flags >>= _) v = _ at hrun
  obtain ⟨start, mid, hplace, hrun⟩ := ok_of_run_bind hrun
  obtain rfl := (placeMapping_keeps v addr size flags).holds rfl hplace
  obtain ⟨stop, hstop, hrun⟩ := ok_of_run_orPanic hrun
  obtain ⟨rfl, _⟩ := addUsize_eq_ok hstop
  obtain ⟨hmappable, hrun⟩ := ok_of_run_check hrun
  obtain ⟨_, hfits, _⟩ := ok_of_run_orFail hrun
  rcases hrefuses size perms start hcheck hplace with hno | ⟨hfixed, hexceeds⟩
  · rw [hmappable] at hno
    cases hno
  · unfold Exceeds at hexceeds
    rw [hfixed] at hfits
    change checkTotalFits _ _ = _ at hfits
    rw [checkTotalFits, if_pos hexceeds] at hfits
    cases hfits

theorem mmapLocked_failsIn {flags : MmapFlags} :
    (mmapLocked backing addr len prot flags offset).FailsIn (· = v) v := by
  simp only [mmapLocked, failsIn_orFail_bind, failsIn_get_bind]
  rintro ⟨size, perms⟩ hcheck
  refine (placeMapping_keeps v addr size flags).failsIn_bind rfl fun start => ?_
  simp only [failsIn_orPanic_bind, failsIn_check_bind, failsIn_orFail_bind]
  intro stop _ _ _ _
  -- The record can be made, so nothing fails from here on.
  refine failsIn_unmapRange.bind fun _ t _ => ?_
  simp only [newMapping, dif_pos (checkMmap_eq_ok hcheck).2.2, failsIn_ok_bind]
  refine FailsIn.bind ?_ fun _ _ _ => failsIn_pure
  simp [addRecord]

/-- A move fails at the limit or not at all. -/
theorem moveMapping_failsIn (hQ : v.Exceeds (before - oldRange.len + newSize) →
      oldRange.len ≤ before → Q v) :
    (moveMapping before oldRange kept newStart newSize).FailsIn Q v := by
  simp only [moveMapping, resizedTotal, bind_assoc, failsIn_orPanic_bind, failsIn_assert_bind,
    failsIn_get_bind]
  intro stop _ hle total htotal
  rw [(addUsize_eq_ok htotal).1]
  unfold checkTotalFits
  split_ifs with hlimit
  · exact failsIn_fail (hQ hlimit (of_decide_eq_true hle))
  refine failsIn_unmapRange.bind fun _ t _ => ?_
  simp only [failsIn_get_bind, failsIn_orPanic_bind, failsIn_set_bind]
  exact fun pages _ => failsIn_carve.bind fun _ _ _ => failsIn_pure

theorem remapKeepOld_failsIn : (remapKeepOld oldRange newStart newSize).FailsIn (· = v) v := by
  simp only [remapKeepOld, failsIn_get_bind]
  split
  · exact failsIn_fail rfl
  · simp only [failsIn_check_bind, failsIn_orPanic_bind, failsIn_orFail_bind]
    intro _ stop _ _ total _ _ _
    refine failsIn_unmapRange.bind fun _ t _ => ?_
    simp

theorem growOrMove_failsIn : (growOrMove before oldRange newSize).FailsIn (· = v) v := by
  have hmove : ∀ kept, (freeStart v.mappings newSize v.defaultHighLimit >>= fun newStart =>
      moveMapping before oldRange kept newStart newSize).FailsIn (· = v) v := fun kept =>
    freeStart_keeps.failsIn_bind rfl fun _ => moveMapping_failsIn fun _ _ => rfl
  simp only [growOrMove, growInPlace, bind_assoc, failsIn_get_bind, failsIn_orPanic_bind]
  intro stop _
  split_ifs
  · simp only [bind_assoc, failsIn_orPanic_bind]
    intro taken _
    split_ifs
    · split
      · exact hmove _
      simp only [resizedTotal, bind_assoc, failsIn_assert_bind, failsIn_orPanic_bind,
        failsIn_orFail_bind]
      intro _ total _ _ _
      split
      · exact failsIn_abort
      · simp only [bind_assoc, failsIn_orPanic_bind, failsIn_set_bind]
        exact fun _ _ _ _ => failsIn_pure
    · exact hmove _
  · exact hmove _

theorem carve_limit {op : Mappings.CarveOp VmSpace} {limit : Nat} :
    (carve range op).Keeps (·.maxAddrSpace = limit) Anyhow := by
  apply Keeps.get
  intro v hv
  apply keeps_orPanic
  intro out _
  apply keeps_assert
  exact fun _ _ => hv

/-- The call is to move a range that gets shorter to a fixed place, and the limit does not allow
the total that this leaves. -/
def RemapPlan.Cuts (plan : RemapPlan) (v : Vmar) : Prop :=
  plan.keepOld = false ∧ plan.newAddr.isSome ∧ plan.newSize < plan.oldRange.len ∧
    v.Exceeds (v.totalVm - plan.oldRange.len + plan.newSize)

variable {plan : RemapPlan}

theorem remapRange_failsIn (hkeep : plan.keepOld = false) (hcuts : ¬ plan.Cuts v) :
    (remapRange plan.oldRange plan.newSize plan.newAddr).FailsIn (· = v) v := by
  simp only [remapRange, shrinkTail, failsIn_get_bind]
  by_cases hshrink : plan.newSize < plan.oldRange.len
  · rw [if_pos hshrink]
    refine failsIn_unmapRange.bind fun _ t ht => ?_
    have hmax : t.maxAddrSpace = v.maxAddrSpace :=
      (Keeps.bind carve_limit fun _ => Keeps.pure).holds rfl ht
    cases haddr : plan.newAddr with
    | some newStart =>
      refine moveMapping_failsIn fun hexceeds _ => absurd ⟨hkeep, ?_, hshrink, ?_⟩ hcuts
      · rw [haddr]
        rfl
      · unfold Exceeds at hexceeds ⊢
        rwa [hmax] at hexceeds
    | none => simp [hshrink.le, resizedTotal, bind_assoc]
  · rw [if_neg hshrink, failsIn_pure_bind]
    cases plan.newAddr with
    | some newStart => exact moveMapping_failsIn fun _ _ => rfl
    | none =>
      dsimp only
      split_ifs
      · simp [resizedTotal, bind_assoc]
      · exact growOrMove_failsIn

theorem mremap_failsIn {flags : MremapFlags} {newAddr : Option Nat} (hcuts : ∀ plan,
      mremapCheck oldAddr oldSize newSize flags newAddr v = .ok (.ok plan, v) → ¬ plan.Cuts v) :
    (mremap oldAddr oldSize newSize flags newAddr).FailsIn (· = v) v := by
  refine FailsIn.bind (fun e t hrun => (mremapCheck_run hrun).1) fun plan t hrun => ?_
  obtain ⟨rfl, -⟩ := mremapCheck_run hrun
  unfold mremapApply
  split_ifs with hkeep
  · split
    · exact remapKeepOld_failsIn
    · exact freeStart_keeps.failsIn_bind rfl fun _ => remapKeepOld_failsIn
  · exact remapRange_failsIn (Bool.not_eq_true _ ▸ hkeep) (hcuts plan hrun)

theorem resizeMapping_failsIn : (resizeMapping addr oldSize newSize).FailsIn (· = v) v := by
  simp only [resizeMapping, failsIn_orFail_bind, failsIn_orPanic_bind, failsIn_get_bind]
  intro oldSize _ newSize _ stop _ _ _ newStop _ _ _
  split
  · exact failsIn_fail rfl
  simp only [failsIn_check_bind]
  intro _
  split_ifs
  · exact failsIn_pure
  · exact failsIn_unmapRange
  simp only [failsIn_check_bind, failsIn_orPanic_bind, failsIn_orFail_bind]
  intro _ taken _ _ total _ _ _
  split
  · exact failsIn_abort
  · simp

end Vmar

namespace World

variable {P : Platform} {w w' : World} {i : Nat} {e : Errno}

/-- Every address space is as it was. -/
def SameSpaces (spaces : SortedMap Nat Vmar) (w : World) : Prop :=
  ∀ j, w.spaces.get? j = spaces.get? j

theorem onSpace_failsIn {α : Type} {call : VmCall α}
    (hcall : ∀ v, w.spaces.get? i = some v → call.FailsIn (· = v) v) :
    (onSpace i call).FailsIn (SameSpaces w.spaces) w := by
  intro e t hrun
  unfold onSpace at hrun
  split at hrun
  · cases hrun
    exact fun _ => rfl
  next v hv =>
    split at hrun
    · cases hrun
    next r v' hend =>
      cases hrun
      obtain rfl := hcall v hv e v' hend
      intro j
      dsimp only
      rw [SortedMap.get?_insert]
      split_ifs with hj
      · rw [hj, hv]
      · rfl

/-- An `mmap` call has nothing left to do once the record is made, or does not get that far. -/
def MakesLast (w : World) (i : Nat) (backing : Option Backing) (addr len : Nat) (prot : VmPerms)
    (flags : MmapFlags) (offset : Nat) : Prop :=
  flags.contains .POPULATE = false ∨
    ∀ v, w.spaces.get? i = some v → v.Refuses backing addr len prot flags offset

theorem mmapInner_failsIn {backing : Option Backing} {addr len offset : Nat} {prot : VmPerms}
    {flags : MmapFlags} (hlast : w.MakesLast i backing addr len prot flags offset) :
    (mmapInner P i backing addr len prot flags offset).FailsIn (SameSpaces w.spaces) w := by
  refine (onSpace_failsIn fun v _ => mmapLocked_failsIn).bind fun range t hrun => ?_
  rcases hlast with hpopulate | hrefuses
  · simp [hpopulate]
  · unfold onSpace at hrun
    split at hrun
    · cases hrun
    next v hv =>
      split at hrun
      · cases hrun
      next r u hend =>
        cases hrun
        exact absurd (hrefuses v hv) (not_refuses_of_run hend)

/-- The object that an anonymous mapping is of. -/
def anonymousBacking (w : World) (len : Nat) (flags : MmapFlags) : Option Backing :=
  if flags.isShared then some ⟨w.freshObject, .shm, len⟩ else none

/-- The calls that change nothing before their last check. -/
def ChecksFirst (w : World) : Op → Prop
  | .mmapAnonymous i addr len prot flags =>
    w.MakesLast i (w.anonymousBacking len flags) addr len prot flags 0
  | .mmapBacked i object addr len prot flags offset => ∀ backing,
    w.objects.get? object = some backing → w.MakesLast i (some backing) addr len prot flags offset
  | .mremap i oldAddr oldSize newSize flags newAddr => ∀ v, w.spaces.get? i = some v →
    ∀ plan, mremapCheck oldAddr oldSize newSize flags newAddr v = .ok (.ok plan, v) → ¬ plan.Cuts v
  | .resizeMapping .. => True
  | _ => False

/-- A call that fails leaves the records, the total and the page table of every address space as
they were. -/
theorem spaces_of_error (op : Op) (hop : w.ChecksFirst op)
    (hrun : exec P op w = .ok (.error e, w')) (j : Nat) : w'.spaces.get? j = w.spaces.get? j := by
  have hfails : (exec P op).FailsIn (SameSpaces w.spaces) w := by
    cases op with
    | mmapAnonymous i addr len prot flags =>
      change w.MakesLast i (if flags.isShared then some _ else none) addr len prot flags 0 at hop
      simp only [exec, mmapAnonymous]
      split_ifs at hop ⊢
      · have hsame : SameSpaces w.spaces w := fun _ => rfl
        simp only [newObject, bind_assoc, failsIn_check_bind hsame, failsIn_get_bind,
          failsIn_set_bind, failsIn_pure_bind]
        exact fun _ => mmapInner_failsIn (w := { w with objects := _ }) hop
      · exact mmapInner_failsIn hop
    | mmapBacked i object addr len prot flags offset =>
      simp only [exec, mmapBacked, failsIn_get_bind]
      cases hobject : w.objects.get? object with
      | none => exact failsIn_fail fun _ => rfl
      | some backing => exact mmapInner_failsIn (hop backing hobject)
    | mremap i oldAddr oldSize newSize flags newAddr =>
      refine (onSpace_failsIn fun v hv => ?_).bind fun _ _ _ => failsIn_pure
      exact mremap_failsIn (hop v hv)
    | resizeMapping i addr oldSize newSize =>
      exact onSpace_failsIn fun v _ => resizeMapping_failsIn
    | _ => exact hop.elim
  exact hfails e w' hrun j

/-- Map a page where none may be mapped yet, and fault it in. -/
def mapNew : Op := .mmapAnonymous 0 1048576 4096 .READ (.PRIVATE ||| .FIXED_NOREPLACE ||| .POPULATE)

theorem spaces_after_exists : ∃ w w', run (step noMemory) (boot fun _ _ => 0)
      [.newSpace 0, .mmapAnonymous 0 1048576 4096 .READ (.PRIVATE ||| .FIXED)] = .ok w ∧
    exec noMemory mapNew w = .ok (.error .EEXIST, w') ∧
    ∀ j, w'.spaces.get? j = w.spaces.get? j := by
  refine ⟨_, _, rfl, rfl, spaces_of_error (P := noMemory) mapNew (.inr ?_) rfl⟩
  intro v hv size perms start hcheck hplace
  cases hv
  cases hcheck
  cases hplace

/-- The pages could not be had, and the record stays. -/
theorem record_of_failed_populate :
    (run (step noMemory) (boot fun _ _ => 0) [.newSpace 0]).map (fun w => (w.extents 0,
      (exec noMemory (.mmapAnonymous 0 1048576 4096 .READ (.PRIVATE ||| .FIXED ||| .POPULATE)) w).map
        fun out => (out.1, out.2.extents 0))) =
      .ok (some [], .ok (.error .ENOMEM, some [(1048576, 4096)])) :=
  rfl

end World

end Petra.Vm
