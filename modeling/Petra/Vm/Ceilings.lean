import Petra.Vm.AllRecords
import Petra.Vm.Mremap
import Petra.Vm.World

/-! # Permissions and their ceilings

What every record grants stays within its own ceiling. `mprotect` looks at the ceilings under
a read lock and changes the permissions under a write lock, so this depends on what other calls
do in between.
-/

namespace Petra.Vm

open Base VmMapping
open Call (Ensures Keeps)

namespace VmPerms

theorem granted_withGranted (p q : VmPerms) : (p.withGranted q).granted = q.granted := by
  unfold withGranted granted
  rw [BitVec.and_or_distrib_right, BitVec.and_assoc, BitVec.and_assoc]
  simp [ALL_MAY, GRANTED]

theorem may_withGranted (p q : VmPerms) : (p.withGranted q).may = p.may := by
  unfold withGranted may granted
  rw [BitVec.and_or_distrib_right, BitVec.and_assoc, BitVec.and_assoc]
  simp [ALL_MAY, GRANTED]

/-- The permissions in force are within the ceiling. -/
def Within (p : VmPerms) : Prop := p.check = .ok ()

variable {p : VmPerms}

theorem within_iff : p.Within ↔ p.allows p.granted = true := by
  unfold Within check
  cases p.allows p.granted <;> simp

theorem within_withGranted {p q : VmPerms} (h : p.allows q = true) (hq : q = q.granted) :
    (p.withGranted q).Within := by
  rw [within_iff, granted_withGranted, ← hq]
  unfold allows at h ⊢
  rwa [may_withGranted]

/-- The highest ceiling allows everything that can be granted. -/
theorem allows_withFullCeiling {p q : VmPerms} (hq : q = q.granted) :
    p.withFullCeiling.allows q = true := by
  have hmay : p.withFullCeiling.may = GRANTED := by
    revert p
    decide
  unfold allows
  rw [hmay]
  revert q
  decide

theorem granted_write_of_within (h : p.Within)
    (hmay : p.may.contains WRITE = false) : p.granted.contains WRITE = false := by
  rw [within_iff] at h
  revert p
  decide

/-- The ceiling an object gets that is mapped shared has no more than is granted. -/
theorem may_withCeiling (hp : p = p.granted) : p.withCeiling.may = p := by
  revert p
  decide

end VmPerms

/-! ### What the calls keep of every record -/

namespace Mappings

/-- A property of records that merging and cutting keep. -/
structure Stable (Q : VmMapping → Prop) : Prop where
  merges : Merges Q
  part : ∀ m k, Q m → k.PartOf m → Q k

/-- A property that a record of the range takes along wherever it goes. -/
def Moves (Q : VmMapping → Prop) (range : Range) : Prop :=
  ∀ m k : VmMapping, Q m → meets range m = true → k.Like m → Q k

theorem All.mem_of_get {ms : Mappings} {Q : VmMapping → Prop} (h : ms.All Q) {p : Nat}
    {m : VmMapping} (hm : ms.get p = some m) :
    (m.start, m) ∈ ms.map.entries ∧ m.start ≤ p ∧ p < m.stop := by
  obtain ⟨hfound, hstop⟩ := Option.filter_eq_some_iff.mp hm
  obtain ⟨e, he, rfl⟩ := Option.map_eq_some_iff.mp hfound
  obtain ⟨hmem, hle⟩ := SortedMap.atMost?_eq_some he
  have hkey := h.keyed e hmem
  refine ⟨by rwa [← hkey], by rwa [← hkey], ?_⟩
  simpa using hstop

end Mappings

namespace Vmar

open Mappings

variable {Q : VmMapping → Prop}

/-- Nothing is asked of a call that panics. -/
def Anyhow : VmarPanic → Prop := fun _ => True

variable {I : Vmar → Prop} {m k : VmMapping}

theorem keeps_orPanic {α β : Type} {r : Except Panic α} {f : α → VmCall β}
    (h : ∀ a, r = .ok a → (f a).Keeps I Anyhow) : (orPanic r >>= f).Keeps I Anyhow :=
  ensures_orPanic (fun _ => trivial) h

theorem keeps_assert {β : Type} {test : Bool} {p : VmarPanic}
    {f : Unit → VmCall β} (h : (f ()).Keeps I Anyhow) : (Call.assert test p >>= f).Keeps I Anyhow :=
  Ensures.assert_any h

theorem keeps_ite {α : Type} {c : Prop} [Decidable c] {m m' : VmCall α}
    (h : m.Keeps I Anyhow) (h' : m'.Keeps I Anyhow) : (if c then m else m').Keeps I Anyhow :=
  Ensures.ite (fun _ => h) (fun _ => h')

/-- Every record of the address space has the property. -/
def Records (Q : VmMapping → Prop) (v : Vmar) : Prop := v.mappings.All Q

/-- A carve keeps what its operation keeps of the records it meets. -/
theorem carve_records {range : Range} {op : CarveOp VmSpace} (hQ : Stable Q)
    (hop : ∀ m mid env k env', Q m → meets range m = true → mid.PartOf m →
      op env mid (intersect range m.range) = .ok (some k, env') → Q k) :
    (carve range op).Keeps (Records Q) Anyhow := by
  apply Keeps.get
  intro v hv
  cases hrun : v.mappings.carve range op v.vmSpace with
  | error p => exact fun _ _ => trivial
  | ok out =>
    apply keeps_assert
    exact Keeps.bind (Keeps.set (hv.carve hQ.merges hQ.part hop hrun)) (fun _ => Keeps.pure)

theorem unmapRange_records (hQ : Stable Q) (range : Range) :
    (unmapRange range).Keeps (Records Q) Anyhow := by
  apply Keeps.bind (carve_records hQ _) (fun _ => Keeps.pure)
  intro m mid env k env' _ _ _ h
  cases h

theorem freeStart_keeps {ms : Mappings} {size limit : Nat} :
    (freeStart ms size limit).Keeps I Anyhow := by
  unfold freeStart
  cases findFreeRegion ms size limit with
  | none => exact Keeps.fail
  | some region => exact Keeps.pure

theorem placeMapping_keeps (v : Vmar) (addr len : Nat) (flags : MmapFlags) :
    (placeMapping v addr len flags).Keeps I Anyhow := by
  apply keeps_ite Keeps.pure
  apply keeps_ite
  · apply keeps_orPanic
    intro stop _
    apply keeps_orPanic
    intro taken _
    exact Keeps.check (fun _ => Keeps.pure)
  · apply keeps_ite freeStart_keeps
    apply keeps_orPanic
    intro stop _
    apply keeps_ite _ freeStart_keeps
    apply keeps_orPanic
    intro taken _
    exact keeps_ite Keeps.pure freeStart_keeps

theorem resizedTotal_keeps {total old new : Nat} : (resizedTotal total old new).Keeps I Anyhow := by
  apply keeps_assert
  cases addUsize (total - old) new with
  | error p => exact fun _ _ => trivial
  | ok sum => exact Keeps.pure

theorem addRecord_records {m : VmMapping} (hQ : Stable Q) (hm : Q m) :
    (addRecord m).Keeps (Records Q) Anyhow := by
  apply Keeps.get
  intro v hv
  apply keeps_orPanic
  intro total _
  apply keeps_orPanic
  intro ms' hrun
  exact Keeps.set (hv.insert hQ.merges hm hrun)

/-- `mmap` puts in one record of its object, with the permissions its checks came out with. -/
theorem mmapLocked_records {backing : Option Backing} {addr len offset : Nat} {prot : VmPerms}
    {flags : MmapFlags} (hQ : Stable Q)
    (hnew : ∀ size perms, checkMmap backing addr len prot flags offset = .ok (size, perms) →
      ∀ m : VmMapping, m.perms = perms → m.shared = flags.isShared → m.backing = backing → Q m) :
    (mmapLocked backing addr len prot flags offset).Keeps (Records Q) Anyhow := by
  apply Keeps.orFail
  rintro ⟨size, perms⟩ hcheck
  apply Keeps.get
  intro v _
  apply Keeps.bind (placeMapping_keeps v addr size flags)
  intro start
  apply keeps_orPanic
  intro stop _
  apply Keeps.check
  intro _
  apply Keeps.orFail
  intro _ _
  apply Keeps.bind (unmapRange_records hQ _)
  intro _
  apply Keeps.orFail
  intro m hm
  have hlike : m.perms = perms ∧ m.shared = flags.isShared ∧ m.backing = backing := by
    unfold newMapping at hm
    split_ifs at hm
    cases hm
    exact ⟨rfl, rfl, rfl⟩
  have hQm := hnew size perms hcheck m hlike.1 hlike.2.1 hlike.2.2
  exact Keeps.bind (addRecord_records hQ hQm) (fun _ => Keeps.pure)

theorem munmap_records (hQ : Stable Q) (range : Range) :
    (munmap range).Keeps (Records Q) Anyhow := by
  apply Keeps.orFail
  intro _ _
  exact Keeps.check (fun _ => unmapRange_records hQ range)

theorem enlarge_like {extra : Nat} (h : m.enlarge extra = .ok k) : k.Like m := by
  obtain ⟨_, _, rfl⟩ := enlarge_eq_ok h
  exact ⟨rfl, rfl, rfl⟩

/-- A move changes only where a record is and what it starts with in its object. -/
theorem movePiece_like {moved : Range} {newStart growBy : Nat} {env env' : VmSpace} {sub : Range}
    (h : movePiece moved newStart growBy env m sub = .ok (some k, env')) : k.Like m := by
  obtain ⟨start, _, h⟩ := ok_of_bind h
  obtain ⟨placed, hplaced, h⟩ := ok_of_bind h
  obtain ⟨_, rfl⟩ := relocate_eq_ok hplaced
  obtain ⟨based, hbased, h⟩ := ok_of_bind h
  obtain rfl := rebase_eq_ok hbased
  split_ifs at h
  · obtain ⟨grown, hgrown, h⟩ := ok_of_bind h
    cases h
    exact (enlarge_like hgrown).trans ⟨rfl, rfl, rfl⟩
  · cases h
    exact ⟨rfl, rfl, rfl⟩

section Moving

variable {oldRange : Range}

variable (hQ : Stable Q) (hmoves : Moves Q oldRange)

include hQ hmoves

theorem moveMapping_records {kept : Nat} (hkept : oldRange.start + kept ≤ oldRange.stop)
    (before newStart newSize : Nat) :
    (moveMapping before oldRange kept newStart newSize).Keeps (Records Q) Anyhow := by
  apply keeps_orPanic
  intro stop _
  apply Keeps.bind resizedTotal_keeps
  intro total
  apply Keeps.get
  intro v _
  apply Keeps.orFail
  intro _ _
  apply Keeps.bind (unmapRange_records hQ _)
  intro _
  apply Keeps.get
  intro u hu
  apply keeps_orPanic
  intro pages _
  apply Keeps.bind
  · exact Keeps.set hu
  intro _
  apply Keeps.bind (carve_records hQ _)
  · intro _
    apply Keeps.get
    intro w hw
    exact Keeps.bind (I := Records Q) (Keeps.set hw) (fun _ => Keeps.pure)
  · intro m mid env k env' hm hmeets hmid hrun
    refine hmoves m k hm ?_ ((movePiece_like hrun).trans hmid.toLike)
    rw [meets_iff] at hmeets ⊢
    exact ⟨hmeets.1, hmeets.2.trans_le hkept⟩

/-- The record that ends the old range is the one that grows. -/
theorem growInPlace_records (hold : oldRange.start < oldRange.stop) (before newSize : Nat) :
    (growInPlace before oldRange newSize).Keeps (Records Q) Anyhow := by
  apply Keeps.get
  intro v hv
  apply keeps_orPanic
  intro stop _
  apply keeps_ite _ Keeps.pure
  apply keeps_orPanic
  intro taken _
  apply keeps_ite _ Keeps.pure
  cases hlast : v.mappings.get (oldRange.stop - 1) with
  | none => exact Keeps.pure
  | some last =>
    obtain ⟨hmem, hstart, hstop⟩ := All.mem_of_get hv hlast
    have hmeets : meets oldRange last = true := by
      rw [meets_iff]
      omega
    apply Keeps.bind resizedTotal_keeps
    intro total
    apply Keeps.orFail
    intro _ _
    unfold remove
    rw [SortedMap.get?_eq_some.mpr hmem]
    apply keeps_orPanic
    intro k hk
    apply keeps_orPanic
    intro ms' hrun
    have hlastQ : Q last := All.get hv hlast
    have hkQ := hmoves last k hlastQ hmeets (enlarge_like hk)
    exact Keeps.bind (I := Records Q)
      (Keeps.set ((All.erase hv last.start).insert hQ.merges hkQ hrun))
      (fun _ => Keeps.pure)

theorem remapKeepOld_records (hold : oldRange.start < oldRange.stop) (newStart newSize : Nat) :
    (remapKeepOld oldRange newStart newSize).Keeps (Records Q) Anyhow := by
  apply Keeps.get
  intro v hv
  cases hget : v.mappings.get oldRange.start with
  | none => exact Keeps.fail
  | some source =>
    obtain ⟨_, hstart, hstop⟩ := All.mem_of_get hv hget
    have hmeets : meets oldRange source = true := by
      rw [meets_iff]
      omega
    have hsource : Q source := All.get hv hget
    apply Keeps.check
    intro _
    apply keeps_orPanic
    intro stop _
    apply Keeps.check
    intro _
    apply keeps_orPanic
    intro total _
    apply Keeps.orFail
    intro _ _
    apply Keeps.bind (unmapRange_records hQ _)
    intro _
    apply Keeps.get
    intro w hw
    apply keeps_orPanic
    intro placed hplaced
    apply keeps_orPanic
    intro m hm
    apply keeps_orPanic
    intro ms' hrun
    have hlike : m.Like source := by
      refine (enlarge_like hm).trans ?_
      rw [(relocate_eq_ok hplaced).2]
      exact ⟨rfl, rfl, rfl⟩
    exact Keeps.bind (I := Records Q)
      (Keeps.set (All.insert hQ.merges hw (hmoves source m hsource hmeets hlike) hrun))
      (fun _ => Keeps.pure)

theorem remapRange_records (hold : oldRange.start < oldRange.stop) (newSize : Nat)
    (newAddr : Option Nat) : (remapRange oldRange newSize newAddr).Keeps (Records Q) Anyhow := by
  have hkept : oldRange.start + min oldRange.len newSize ≤ oldRange.stop := by
    unfold Range.len
    omega
  apply Keeps.get
  intro v _
  apply Keeps.bind (keeps_ite (unmapRange_records hQ _) Keeps.pure)
  intro _
  cases newAddr with
  | some newStart => exact moveMapping_records hQ hmoves hkept _ _ _
  | none =>
    apply keeps_ite
    · apply Keeps.bind resizedTotal_keeps
      intro total
      apply Keeps.get
      intro w hw
      exact Keeps.bind (I := Records Q) (Keeps.set hw) (fun _ => Keeps.pure)
    · apply Keeps.bind (growInPlace_records hQ hmoves hold _ _)
      intro grown
      cases grown with
      | some start => exact Keeps.pure
      | none =>
        apply Keeps.get
        intro w _
        exact Keeps.bind freeStart_keeps (fun _ => moveMapping_records hQ hmoves hkept _ _ _)

end Moving

/-! ### fork -/

theorem forkMappings_records {l : List VmMapping} {pages pages' : VmSpace} {child child' : Vmar}
    (hQ : Stable Q) (hwiped : ∀ m, Q m → Q (World.wiped m)) (hl : ∀ m ∈ l, Q m)
    (hchild : child.Records Q) (hrun : World.forkMappings l pages child = .ok (pages', child')) :
    child'.Records Q := by
  have hput : ∀ {child child' : Vmar} {m : VmMapping}, child.Records Q → Q m →
      World.inheritRecord child m = .ok child' → child'.Records Q := by
    intro child child' m hchild hm hrun
    obtain ⟨total, _, hrun⟩ := ok_of_bind hrun
    obtain ⟨ms', hins, hrun⟩ := ok_of_bind hrun
    cases hrun
    exact All.insert hQ.merges hchild hm hins
  induction l generalizing pages child with
  | nil =>
    cases hrun
    exact hchild
  | cons m rest ih =>
    obtain ⟨⟨pages₁, child₁⟩, hfirst, hrun⟩ := ok_of_bind hrun
    refine ih (fun k hk => hl k (by simp [hk])) ?_ hrun
    have hm := hl m (by simp)
    unfold World.forkMapping at hfirst
    split_ifs at hfirst
    · cases hfirst
      exact hchild
    · obtain ⟨c, hc, hfirst⟩ := ok_of_bind hfirst
      cases hfirst
      exact hput hchild (hwiped m hm) hc
    · obtain ⟨c, hc, hfirst⟩ := ok_of_bind hfirst
      cases hfirst
      exact (hput hchild hm hc :)

end Vmar

end Petra.Vm
