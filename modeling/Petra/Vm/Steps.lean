import Petra.Vm.Faults
import Petra.Vm.Fork
import Petra.Vm.Mremap

/-! # Every step keeps the world in order

All operations keep every address space in order and writable private entries exclusive,
with one exception: `mremap` with `MREMAP_DONTUNMAP` or with a fixed new place that is in
use. The conditions below say what is asked of such a call.
-/

namespace Petra.Vm

open Base Vmar SortedMap Option
open Call (Ensures Keeps)

namespace World

/-- A call of `mremap` that keeps the old place keeps a whole record. -/
def WholeRecord (w : World) : Op → Prop
  | .mremap i oldAddr oldSize _ flags _ =>
    ∀ v, w.spaces.get? i = some v → v.KeepsWhole oldAddr oldSize flags
  | _ => True

/-- A call of `mremap` with a fixed new place moves to where nothing is mapped. -/
def FreePlace (w : World) : Op → Prop
  | .mremap i _ _ newSize flags newAddr =>
    ∀ v, w.spaces.get? i = some v → v.MovesToFree newSize flags newAddr
  | _ => True

/-- The operation is not an `mremap` that keeps the old place. -/
def GivesUpOld : Op → Prop
  | .mremap _ _ _ _ flags _ => flags.contains .DONTUNMAP = false
  | _ => True

variable {w : World} {exact excl : Prop} {i : Nat}

variable {op : Op}

theorem GivesUpOld.wholeRecord (h : GivesUpOld op) : w.WholeRecord op := by
  cases op with
  | mremap j oldAddr oldSize newSize flags newAddr =>
    intro v _ hkeep
    have hnot : flags.contains .DONTUNMAP = false := h
    rw [hnot] at hkeep
    cases hkeep
  | _ => trivial

/-! ### Address spaces come and go -/

theorem good_new (aslrOffset : Nat) : (new aslrOffset).Good exact where
  partition := (Forked.nil .empty aslrOffset 0).partition
  resident := nofun
  total := fun _ => rfl

theorem Exclusive.withEmpty (h : w.Exclusive) {v : Vmar} (hempty : ∀ p, v.vmSpace.get? p = none) :
    (w.withSpace i v).Exclusive := by
  intro j p u pte hu hpte hwrite hpriv holder hholds
  rcases get?_insert_cases hu with ⟨-, rfl⟩ | ⟨-, hu⟩
  · rw [hempty p] at hpte
    cases hpte
  · rcases withSpace_holds hholds with ⟨q, qte, _, hqte, _⟩ | ⟨_, hold⟩
    · rw [hempty q] at hqte
      cases hqte
    · exact h j p u pte hu hpte hwrite hpriv holder hold

theorem freshSpace_get? (w : World) : w.spaces.get? w.freshSpace = none := by
  rw [get?_eq_none]
  intro e he
  unfold freshSpace
  cases hlast : w.spaces.entries.getLast? with
  | none =>
    rw [List.getLast?_eq_none_iff.mp hlast] at he
    cases he
  | some last =>
    have hall : (w.spaces.entries.filter (fun _ => true)).getLast? = some last := by
      simpa using hlast
    have hle := le_of_filter_getLast? hall he rfl
    dsimp only
    omega

theorem newSpace_sound (hw : Sound exact excl w) (aslrOffset : Nat) :
    Sound exact excl (w.withSpace w.freshSpace (.new aslrOffset)) :=
  hw.withSpace (good_new aslrOffset) (fun hexcl => (hw.exclusive hexcl).withEmpty (fun _ => rfl))

theorem drop_sound (hw : Sound exact excl w) (i : Nat) :
    Sound exact excl { w with spaces := w.spaces.erase i } := by
  have hget : ∀ j v, (w.spaces.erase i).get? j = some v → w.spaces.get? j = some v := by
    intro j v hv
    rw [get?_erase] at hv
    by_cases hji : j = i
    · rw [if_pos hji] at hv
      cases hv
    · rwa [if_neg hji] at hv
  refine ⟨fun j v hv => hw.good j v (hget j v hv), fun hexcl => ?_⟩
  refine (hw.exclusive hexcl).of_holders hget ?_
  intro holder f hheld
  cases holder with
  | pte j p =>
    obtain ⟨v, pte, hv, hpte, hframe⟩ := hheld
    exact .inl ⟨v, pte, hget j v hv, hpte, hframe⟩
  | page object offset => exact .inl hheld
  | zero => exact .inl hheld

variable {v₀ : Vmar} {f : Frame}

theorem clear_keeps : Tracks exact v₀ clear := by
  apply Ensures.get
  intro v hv t _
  have hnone : ∀ p, (v.vmSpace.unmap ⟨0, vmarCapAddr⟩).get? p = none := by
    intro p
    unfold VmSpace.unmap
    rw [get?_filter]
    cases hpte : v.vmSpace.get? p with
    | none => rfl
    | some pte =>
      obtain ⟨a, ha⟩ := isSome_iff_exists.mp (hv.1.resident p pte hpte)
      obtain ⟨e, he, hcov, _⟩ := hv.1.partition.view_eq_some.mp ha
      have hstop := (hv.1.partition.placed e he).stop_le
      have hlt := hcov.2
      have hmem : (⟨0, vmarCapAddr⟩ : Range).Mem p := ⟨Nat.zero_le p, by dsimp only; omega⟩
      simp [hmem]
  have hresident : ∀ p pte, (v.vmSpace.unmap ⟨0, vmarCapAddr⟩).get? p ≠ some pte := by
    intro p pte h
    rw [hnone p] at h
    cases h
  refine ⟨⟨(Forked.nil .empty 0 0).partition, ?_, fun _ => rfl⟩, id, ?_, ?_⟩
  · exact fun p pte h => absurd h (hresident p pte)
  · exact fun p pte h => absurd h (hresident p pte)
  · exact fun _ _ _ _ h => h

theorem setMaxAddrSpace_keeps (limit : Nat) : Keeps (Tracked exact v₀)
      (fun v => .ok (.ok (), { v with maxAddrSpace := limit }) : VmCall Unit)
      (NoUnderflow exact) := by
  intro v hv
  exact ⟨⟨hv.1.partition, hv.1.resident, hv.1.total⟩,
    hv.2.trans (Evolves.of_pages_eq rfl (fun _ _ => rfl))⟩

/-- Taking entries out of a page table. -/
theorem filterPages_keeps (keep : Vmar → Nat → Bool) : Keeps (Tracked exact v₀)
      (fun v => .ok (.ok (), { v with vmSpace := v.vmSpace.filter (fun p _ => keep v p) }) :
        VmCall Unit) (NoUnderflow exact) := by
  intro v hv
  have hold : ∀ p pte, (v.vmSpace.filter (fun p _ => keep v p)).get? p = some pte →
      v.vmSpace.get? p = some pte := by
    intro p pte h
    rw [get?_filter] at h
    exact (filter_eq_some_iff.mp h).1
  refine ⟨⟨hv.1.partition, fun p pte h => hv.1.resident p pte (hold p pte h), hv.1.total⟩,
    hv.2.trans ⟨id, ?_, fun _ _ _ _ h => h⟩⟩
  intro p pte h
  exact ⟨pte, hold p pte h, rfl, fun hw hp => ⟨hw, hp⟩⟩

/-! ### Objects -/

theorem newObject_ensures (kind : BackingKind) (size : Nat) (w₀ : World) :
    (newObject kind size).Ensures (· = w₀) (fun _ => SameHolders w₀)
      (NoUnderflow exact) := by
  apply Ensures.check
  · rintro t rfl
    exact ⟨rfl, rfl, rfl⟩
  intro _
  apply Ensures.get
  rintro w rfl
  apply Ensures.set_pure
  exact ⟨rfl, rfl, rfl⟩

theorem newObject_keeps (kind : BackingKind) (size : Nat) :
    Sounds exact excl (newObject kind size) := by
  apply Ensures.of_forall
  intro w hw
  exact (newObject_ensures kind size w).imp (fun _ _ h => h.supplied.sound hw)

/-- An object takes a shareable frame. -/
theorem takePage_sound {key : Nat ×ₗ Nat} (hw : Sound exact excl w)
    (hshare : w.Shareable f) : Sound exact excl { w with pages := w.pages.insert key f } := by
  refine ⟨hw.good, fun hexcl => (hw.exclusive hexcl).of_holders (fun _ _ hv => hv) ?_⟩
  intro holder g hheld
  cases holder with
  | pte j p => exact .inl hheld
  | zero => exact .inl hheld
  | page object offset =>
    rcases get?_insert_cases hheld with ⟨-, rfl⟩ | ⟨-, hheld⟩
    · exact .inr hshare
    · exact .inl hheld

theorem SameHolders.shareable {w' : World} (h : SameHolders w w')
    (hshare : w.Shareable f) : w'.Shareable f := by
  intro holder hheld
  obtain ⟨other, hother, hne⟩ := hshare holder (h.holds.mp hheld)
  exact ⟨other, h.holds.mpr hother, hne⟩

theorem dropObject_keeps (object : Nat) : Sounds exact excl (dropObject object) := by
  apply Ensures.get
  intro w hw
  apply Ensures.ite
  · intro _
    exact Ensures.pure (fun _ h => h ▸ hw)
  rintro _ t _
  refine ⟨hw.good, fun hexcl => (hw.exclusive hexcl).of_holders (fun _ _ hv => hv) ?_⟩
  intro holder f hheld
  cases holder with
  | pte j p | zero => exact .inl hheld
  | page object' offset =>
    simp only [Holds, get?_filter] at hheld
    exact .inl (filter_eq_some_iff.mp hheld).1

variable (P : Platform)

theorem singleFrame_keeps (zero : Bool) : Sounds exact excl (singleFrame P zero) := by
  apply Ensures.of_forall
  intro w hw
  have hsupplies : Supplies (chosenFrame P zero) Shareable := by
    unfold chosenFrame
    split_ifs
    · exact getZeroFrame_supplies P
    · exact (allocZeroedFrame_supplies P).shareable
  apply Ensures.bind (R := fun f t => Sound exact excl t ∧ t.Shareable f)
  · refine (hsupplies exact w).imp ?_
    intro r t ht
    cases r with
    | error e => exact ht.1.sound hw
    | ok f => exact ⟨ht.1.sound hw, ht.2 f rfl⟩
  intro f
  apply Ensures.of_forall
  intro t ht
  apply Ensures.bind (R := fun _ u => Sound exact excl u ∧ u.Shareable f)
  · refine (newObject_ensures .singleFrame pageSize t).imp ?_
    intro r u hu
    cases r with
    | error e => exact hu.supplied.sound ht.1
    | ok object => exact ⟨hu.supplied.sound ht.1, hu.shareable ht.2⟩
  · intro object
    apply Ensures.get
    intro u hu
    apply Ensures.set_pure
    exact takePage_sound hu.1 hu.2

/-! ### Calls on one address space -/

theorem mmapInner_keeps (backing : Option Backing) (addr len : Nat) (prot : VmPerms)
    (flags : MmapFlags) (offset : Nat) :
    Sounds exact excl (mmapInner P i backing addr len prot flags offset) := by
  apply Keeps.bind (onSpace_keeps (fun v => mmapLocked_keeps backing addr len prot flags offset))
  intro range
  apply Ensures.ite
  · intro _
    exact populateRange_keeps P range
  · intro _
    exact Keeps.pure

theorem mmapAnonymous_keeps (addr len : Nat) (prot : VmPerms) (flags : MmapFlags) :
    Sounds exact excl (mmapAnonymous P i addr len prot flags) := by
  apply Ensures.ite
  · intro _
    exact Keeps.bind (newObject_keeps .shm len) (fun object => mmapInner_keeps P _ _ _ _ _ _)
  · intro _
    exact mmapInner_keeps P _ _ _ _ _ _

theorem mmapBacked_keeps (object addr len : Nat) (prot : VmPerms) (flags : MmapFlags)
    (offset : Nat) : Sounds exact excl (mmapBacked P i object addr len prot flags offset) := by
  apply Ensures.get
  intro w hw
  cases w.objects.get? object with
  | none => exact Ensures.fail (fun _ h => h ▸ hw)
  | some backing =>
    exact (mmapInner_keeps P _ _ _ _ _ _).weaken (fun _ h => h ▸ hw) (fun _ _ h => h)

theorem madvise_world_keeps (advice : MadviseAdvice) (range : Range) :
    Sounds exact excl (madvise P i advice range) := by
  have hplain : Sounds exact excl (onSpace i (Vmar.madvise advice range)) :=
    onSpace_keeps (fun v => madvise_keeps advice range)
  cases advice with
  | willNeed =>
    apply Keeps.orFail
    intro _ _ w hw
    have hrun := populateRange_keeps (i := i) P range w hw
    dsimp only
    cases hres : populateRange P i range w with
    | error p | ok out => rwa [hres] at hrun
  | _ => exact hplain

theorem mremap_world_ensures {oldAddr oldSize newSize : Nat} {flags : MremapFlags}
    {newAddr : Option Nat} (hw : Sound exact excl w)
    (hwhole : w.WholeRecord (.mremap i oldAddr oldSize newSize flags newAddr))
    (hfree : exact → w.FreePlace (.mremap i oldAddr oldSize newSize flags newAddr))
    (hgives : excl → flags.contains .DONTUNMAP = false) :
    (onSpace i (mremap oldAddr oldSize newSize flags newAddr)).Ensures (· = w)
      (fun _ => Sound exact excl) (NoUnderflow exact) := by
  refine onSpace_ensures hw ?_
  intro v hv
  have hcall := mremap_good (hw.good i v hv) (hwhole v hv) (fun hexact => hfree hexact v hv)
  refine hcall.imp ?_
  intro _ s hs
  exact hw.withSpace hs.1 (fun hexcl => (hw.exclusive hexcl).evolves hv (hs.2 (hgives hexcl)))

/-! ### fork -/

theorem forkFrom_keeps : Sounds exact excl (forkFrom i) := by
  apply keeps_space
  intro w hw v hv
  apply ensures_kernel
  rintro ⟨pages, child⟩ hrun
  have hgood := hw.good i v hv
  have hfork := forked_of_partition hgood.partition hrun
  apply Ensures.get
  rintro t rfl
  apply Ensures.set_pure
  have hj := freshSpace_get? t
  refine ⟨?_, fun hexcl => (hw.exclusive hexcl).fork hv hj hgood.partition hfork⟩
  intro k u hu
  rcases get?_insert_cases hu with ⟨-, rfl⟩ | ⟨-, hu⟩
  · refine ⟨hfork.partition, ?_, fun _ => hfork.total⟩
    intro p pte hpte
    obtain ⟨_, _, _, _, _, hview, _⟩ := hfork.child_entry hpte
    exact hview
  rcases get?_insert_cases hu with ⟨-, rfl⟩ | ⟨-, hu⟩
  · refine ⟨hgood.partition, ?_, hgood.total⟩
    intro p pte hpte
    obtain ⟨pte₀, hpte₀, _⟩ := hfork.parent_entry hgood.partition hpte
    exact hgood.resident p pte₀ hpte₀
  · exact hw.good k u hu

theorem store_keeps (addr : Nat) (byte : UInt8) : Sounds exact excl (store i addr byte) := by
  apply keeps_space
  intro w hw v _
  cases v.vmSpace.get? (addr - addr % pageSize) with
  | none => exact Ensures.fail (fun _ h => h ▸ hw)
  | some pte =>
    apply Ensures.ite
    · rintro _ t rfl
      have hsame : SameHolders t (t.setMem pte.frame
          (fun j => if j = addr % pageSize then byte else t.mem pte.frame j)) := ⟨rfl, rfl, rfl⟩
      exact hsame.supplied.sound hw
    · intro _
      exact Ensures.fail (fun _ h => h ▸ hw)

/-! ### The step -/

theorem ignoring_ensures {α : Type} {call : WorldCall α} {Q : World → Prop}
    {R : World → Prop} {E : VmarPanic → Prop} (h : call.Ensures R (fun _ => Q) E) :
    (ignoring call).Ensures R (fun _ => Q) E := by
  apply Ensures.bind (R := fun _ => Q)
  · refine h.weaken (fun _ hs => hs) ?_
    intro r s hs
    cases r <;> exact hs
  · intro _
    exact Ensures.pure (fun _ hs => hs)

/-- What is asked of an operation so that it keeps the world in order. -/
structure Admissible (exact excl : Prop) (w : World) (op : Op) : Prop where
  whole : w.WholeRecord op
  free : exact → w.FreePlace op
  gives : excl → GivesUpOld op

theorem exec_ensures (hw : Sound exact excl w) (hop : Admissible exact excl w op) :
    (exec P op).Ensures (· = w) (fun _ => Sound exact excl) (NoUnderflow exact) := by
  have hkeeps : ∀ {call : WorldCall Unit}, Sounds exact excl call →
      call.Ensures (· = w) (fun _ => Sound exact excl) (NoUnderflow exact) :=
    fun h => h.weaken (fun _ ht => ht ▸ hw) (fun _ _ hs => hs)
  cases op with
  | newSpace aslrOffset =>
    apply Ensures.get
    rintro t rfl s _
    exact newSpace_sound hw aslrOffset
  | setMaxAddrSpace j limit => exact hkeeps (onSpace_keeps (fun _ => setMaxAddrSpace_keeps limit))
  | newFile size => exact hkeeps (ignoring_ensures (newObject_keeps .file size))
  | newShm size => exact hkeeps (ignoring_ensures (newObject_keeps .shm size))
  | singleFrame zero => exact hkeeps (ignoring_ensures (singleFrame_keeps P zero))
  | dropObject object => exact hkeeps (dropObject_keeps object)
  | mmapAnonymous j addr len prot flags => exact hkeeps (mmapAnonymous_keeps P addr len prot flags)
  | mmapBacked j object addr len prot flags offset =>
    exact hkeeps (mmapBacked_keeps P object addr len prot flags offset)
  | munmap j range => exact hkeeps (onSpace_keeps (fun _ => munmap_keeps range))
  | mprotect j prot range => exact hkeeps (onSpace_keeps (fun _ => mprotect_keeps prot range))
  | madvise j advice range => exact hkeeps (madvise_world_keeps P advice range)
  | mlockRange j range locked => exact hkeeps (onSpace_keeps (fun _ => mlockRange_keeps range locked))
  | mremap j oldAddr oldSize newSize flags newAddr =>
    exact ignoring_ensures (mremap_world_ensures hw hop.whole hop.free hop.gives)
  | resizeMapping j addr oldSize newSize =>
    exact hkeeps (onSpace_keeps (fun _ => resizeMapping_keeps addr oldSize newSize))
  | pageFault j address required provoked =>
    exact hkeeps (handlePageFault_keeps P address required provoked)
  | populateRange j range => exact hkeeps (populateRange_keeps P range)
  | forkFrom j => exact hkeeps (ignoring_ensures forkFrom_keeps)
  | clear j => exact hkeeps (onSpace_keeps (fun _ => clear_keeps))
  | drop j =>
    apply Ensures.get
    rintro t rfl s _
    exact drop_sound hw j
  | reclaim j budget =>
    apply Ensures.get
    rintro t rfl
    exact hkeeps (onSpace_keeps
      (fun _ => filterPages_keeps (fun v p => p ∉ t.reclaimable v budget)))
  | store j addr byte => exact hkeeps (store_keeps addr byte)

/-- One step: it does not panic over the running total, and the next world is in order. -/
theorem step_sound (hw : Sound exact excl w) (hop : Admissible exact excl w op) :
    match step P w op with
    | .error p => NoUnderflow exact p
    | .ok w' => Sound exact excl w' := by
  have hrun := exec_ensures P hw hop w rfl
  unfold step
  cases hexec : exec P op w with
  | error p | ok out => rwa [hexec] at hrun

theorem boot_sound (mem : Frame → Nat → UInt8) : Sound exact excl (boot mem) where
  good := nofun
  exclusive := nofun

/-- Every state of a run of admissible operations is in order. -/
theorem sound_of_visits {mem : Frame → Nat → UInt8}
    (h : Visits (step P) (Admissible exact excl) (boot mem) w) : Sound exact excl w := by
  refine h.invariant (boot_sound mem) ?_
  intro s op s' hs hop hstep
  have hnext := step_sound P hs hop
  rwa [hstep] at hnext

end World

end Petra.Vm
