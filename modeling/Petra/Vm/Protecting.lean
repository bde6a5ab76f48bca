import Petra.Vm.Ceilings

/-! # Permission changes by concurrent calls

Calls on one address space take its lock section by section. `mprotect` and `mremap` make
their checks first and change the records in a later section, and other calls may run in
between. The permissions in force stay within the ceilings if nothing comes in between that
puts a lower ceiling where an `mprotect` call has already looked. No section raises a ceiling, so
an object that is only mapped shared for reading is never written through a shared mapping.
-/

namespace Petra.Vm

open Base List SortedMap Option
open Call (Ensures Keeps)

namespace Vmar

/-! ### Interleavings -/

/-- What `fork` does to the address space it copies, under its read lock, and the copy. -/
def fork (v : Vmar) : Except Panic (Vmar × Vmar) := do
  let child := { Vmar.new v.aslrOffset with maxAddrSpace := v.maxAddrSpace }
  let (pages, child) ← World.forkMappings v.mappings.iter v.vmSpace child
  .ok ({ v with vmSpace := pages }, child)

/-- A call between its checks and its change. -/
inductive Waiting
  | mprotect (prot : VmPerms) (range : Range)
  | mremap (plan : RemapPlan)
  deriving DecidableEq

/-- An address space, the calls of its threads that wait for the write lock, and the copies
that `fork` made of it. -/
structure Contended where
  space : Vmar
  waiting : SortedMap Nat Waiting
  children : List Vmar
  /-- History: the objects that were to be mapped shared with write permission. -/
  writable : List Nat
  deriving DecidableEq

/-- A section of a call, which runs under the lock as a whole. -/
inductive Section
  | mmap (backing : Option Backing) (addr len : Nat) (prot : VmPerms) (flags : MmapFlags)
      (offset : Nat)
  | munmap (range : Range)
  | mprotectCheck (thread : Nat) (prot : VmPerms) (range : Range)
  | mprotectApply (thread : Nat)
  | mremapCheck (thread oldAddr oldSize newSize : Nat) (flags : MremapFlags)
      (newAddr : Option Nat)
  | mremapApply (thread : Nat)
  | fork
  deriving DecidableEq

namespace Contended

/-- The permissions that `mprotect` calls are about to set, and where. -/
def protections (s : Contended) : List (VmPerms × Range) :=
  s.waiting.values.filterMap (fun
    | .mprotect prot range => some (prot, range)
    | .mremap _ => none)

/-- Run a section, whatever it returns. -/
def take {α : Type} (s : Contended) (call : VmCall α) : Except Unit Contended :=
  match call s.space with
  | .error _ => .error ()
  | .ok (_, v) => .ok { s with space := v }

/-- Run the checks of a call. The thread waits for the write lock if they pass. -/
def await {α : Type} (s : Contended) (thread : Nat) (call : VmCall α) (next : α → Waiting) :
    Except Unit Contended :=
  if (s.waiting.get? thread).isSome then .error ()
  else
    match call s.space with
    | .error _ => .error ()
    | .ok (.error _, v) => .ok { s with space := v }
    | .ok (.ok a, v) => .ok { s with space := v, waiting := s.waiting.insert thread (next a) }

/-- The call of the thread is over. -/
def release (s : Contended) (thread : Nat) : Contended :=
  { s with waiting := s.waiting.erase thread }

/-- The objects to be written through shared mappings, after one more mapping. -/
def noted (s : Contended) (backing : Option Backing) (prot : VmPerms) (flags : MmapFlags) :
    List Nat :=
  if flags.isShared && prot.contains .WRITE then backing.toList.map Backing.ptr ++ s.writable
  else s.writable

def step (s : Contended) : Section → Except Unit Contended
  | .mmap backing addr len prot flags offset =>
    (s.take (mmapLocked backing addr len prot flags offset)).map
      (fun t => { t with writable := s.noted backing prot flags })
  | .munmap range => s.take (munmap range)
  | .mprotectCheck thread prot range =>
    s.await thread (mprotectCheck prot range) (fun _ => .mprotect prot range)
  | .mprotectApply thread =>
    match s.waiting.get? thread with
    | some (.mprotect prot range) =>
      (s.take (mprotectApply prot range)).map (fun t => t.release thread)
    | _ => .error ()
  | .mremapCheck thread oldAddr oldSize newSize flags newAddr =>
    s.await thread (mremapCheck oldAddr oldSize newSize flags newAddr) .mremap
  | .mremapApply thread =>
    match s.waiting.get? thread with
    | some (.mremap plan) =>
      (s.take (mremapApply plan)).map (fun t => t.release thread)
    | _ => .error ()
  | .fork =>
    match s.space.fork with
    | .error _ => .error ()
    | .ok (v, child) => .ok { s with space := v, children := child :: s.children }

/-- Nothing is put under a protection that is about to be set unless its ceiling allows it,
and `mprotect` looks at records that do not overlap. -/
def Orderly (s : Contended) : Section → Prop
  | .mmap backing _ _ prot flags _ => backing.isSome = true → flags.isShared = true →
      ∀ w ∈ s.protections, prot.withCeiling.allows w.1 = true
  | .mprotectCheck _ _ _ => s.space.mappings.Partition
  | .mremapApply thread => ∀ w ∈ s.protections, ∀ m ∈ s.space.mappings.iter,
      ((s.waiting.get? thread).any (fun
        | .mremap plan => Mappings.meets plan.oldRange m
        | .mprotect _ _ => false)) = true → m.perms.allows w.1 = true
  | _ => True

instance (s : Contended) (sec : Section) : Decidable (s.Orderly sec) := by
  cases sec <;> unfold Orderly <;> infer_instance

end Contended

/-! ### Records under a protection about to be set -/

open Mappings

/-- The ceiling of a shared record of an object allows writing only if the object is one of `rw`. -/
def Capped (rw : List Nat) (m : VmMapping) : Prop :=
  m.shared = true → ∀ b, m.backing = some b → b.ptr ∉ rw → m.perms.may.contains .WRITE = false

/-- The record keeps to its ceiling, which allows what is about to be set on it and is not too
high. -/
structure Guarded (rw : List Nat) (ws : List (VmPerms × Range)) (m : VmMapping) : Prop where
  within : m.perms.Within
  allows : ∀ w ∈ ws, meets w.2 m = true → m.perms.allows w.1 = true
  capped : Capped rw m

/-- A record is asked less with more writable objects and fewer protections. -/
theorem Guarded.subset {rw rw' : List Nat} {ws ws' : List (VmPerms × Range)} {m : VmMapping}
    (h : Guarded rw ws m) (hrw : rw ⊆ rw') (hsub : ws' ⊆ ws) : Guarded rw' ws' m :=
  ⟨h.within, fun w hw => h.allows w (hsub hw),
    fun hshared b hb hnot => h.capped hshared b hb fun hmem => hnot (hrw hmem)⟩

theorem Capped.like {rw : List Nat} {m k : VmMapping} (h : Capped rw m)
    (hmay : k.perms.may = m.perms.may) (hshared : k.shared = m.shared)
    (hbacking : k.backing = m.backing) : Capped rw k := by
  unfold Capped
  rw [hmay, hshared, hbacking]
  exact h

variable {rw : List Nat} {ws : List (VmPerms × Range)}

/-- A merged record, or a part of one, is as guarded as what it was made of. -/
theorem stable_guarded (hws : ∀ w ∈ ws, w.2.start < w.2.stop) : Stable (Guarded rw ws) where
  merges := by
    intro l r hcan hl hr
    refine ⟨hl.within, ?_, hl.capped⟩
    intro w hw hmeets
    -- a range that meets the merged record meets one of the two
    have hperms : l.perms = r.perms := by
      simp only [VmMapping.canMerge, Bool.and_eq_true, beq_iff_eq] at hcan
      exact hcan.1.2
    have hadj : l.stop = r.start := by
      simp only [VmMapping.canMerge, Bool.and_eq_true, beq_iff_eq] at hcan
      exact hcan.1.1.1.1.1.1.1
    by_cases hleft : meets w.2 l = true
    · exact hl.allows w hw hleft
    have hrange := hws w hw
    have hright : meets w.2 r = true := by
      rw [meets_iff] at hmeets hleft ⊢
      simp only [VmMapping.merged, VmMapping.stop] at hmeets hleft hadj ⊢
      omega
    change l.perms.allows w.1 = true
    rw [hperms]
    exact hr.allows w hw hright
  part := by
    intro m k hm hk
    refine ⟨hk.perms ▸ hm.within, ?_, hm.capped.like (by rw [hk.perms]) hk.shared hk.backing⟩
    intro w hw hmeets
    rw [hk.perms]
    apply hm.allows w hw
    rw [meets_iff] at hmeets ⊢
    exact ⟨hmeets.1.trans_le hk.stop_le, hk.start_le.trans_lt hmeets.2⟩

/-- The permissions of a new record are within their ceiling, which is the highest one unless
an object is mapped shared. -/
theorem checkMmap_perms {backing : Option Backing} {addr len offset size : Nat}
    {prot perms : VmPerms} {flags : MmapFlags}
    (h : checkMmap backing addr len prot flags offset = .ok (size, perms)) :
    prot = prot.granted ∧ perms.Within ∧ perms =
      if backing.isNone || !flags.isShared then prot.withFullCeiling else prot.withCeiling := by
  unfold checkMmap at h
  simp only [bind, Except.bind] at h
  generalize (if backing.isNone || !flags.isShared then prot.withFullCeiling
    else prot.withCeiling) = chosen at h ⊢
  repeat' split at h
  all_goals cases h
  all_goals exact ⟨not_not.mp ‹_›, ‹_›, rfl⟩

variable {I : Vmar → Prop} {v v' : Vmar} {prot : VmPerms} {range : Range} {newAddr : Option Nat}
  {plan : RemapPlan} {newSize : Nat}

/-- The first section has seen that every record it meets allows the protection. -/
theorem mprotectCheck_run (hv : v.mappings.Partition)
    (h : mprotectCheck prot range v = .ok (.ok (), v')) :
    prot = prot.granted ∧ range.start < range.stop ∧
      ∀ m ∈ v.mappings.iter, meets range m = true → m.perms.allows prot = true := by
  obtain ⟨_, haligned, h⟩ := Call.ok_of_run_orFail h
  have hrange : range.start < range.stop := by
    unfold checkPageAlignedRange at haligned
    split_ifs at haligned with hempty
    omega
  obtain ⟨hprot, h⟩ := Call.ok_of_run_check h
  obtain ⟨_, h⟩ := Call.ok_of_run_check h
  change (orPanic (v.mappings.iterRange range) >>= _) v = _ at h
  rw [hv.iterRange hrange.le] at h
  change Call.check ((v.mappings.inside range).all (fun m => m.perms.allows prot)) Errno.EACCES v =
    _ at h
  cases htest : (v.mappings.inside range).all (fun m => m.perms.allows prot) with
  | false =>
    rw [htest] at h
    cases h
  | true =>
    rw [htest] at h
    cases h
    refine ⟨by simpa using hprot, hrange, ?_⟩
    intro m hm hmeets
    exact all_eq_true.mp htest m (mem_filter.mpr ⟨hm, hmeets⟩)

/-- The second section sets a protection that the records still allow. -/
theorem mprotectApply_guarded (hws : ∀ w ∈ ws, w.2.start < w.2.stop) (hw : (prot, range) ∈ ws)
    (hprot : prot = prot.granted) :
    (mprotectApply prot range).Keeps (Records (Guarded rw ws)) Anyhow := by
  apply Keeps.bind (carve_records (stable_guarded hws) _) (fun _ => Keeps.checked)
  intro m mid env k env' hm hmeets hmid hrun
  cases hrun
  have hpart := (stable_guarded hws).part m mid hm hmid
  refine ⟨VmPerms.within_withGranted ?_ hprot, ?_, ?_⟩
  · rw [hmid.perms]
    exact hm.allows _ hw hmeets
  · intro w hw' hmeets'
    have hallows := hpart.allows w hw' hmeets'
    unfold VmPerms.allows at hallows ⊢
    rwa [VmPerms.may_withGranted]
  · exact hpart.capped.like (VmPerms.may_withGranted _ _) rfl rfl

/-- The records of the old range are taken along, so their ceilings have to allow what is about
to be set elsewhere. -/
theorem mremapApply_guarded (hws : ∀ w ∈ ws, w.2.start < w.2.stop)
    (hold : plan.oldRange.start < plan.oldRange.stop)
    (htaken : ∀ w ∈ ws, (w.1, plan.oldRange) ∈ ws) :
    (mremapApply plan).Keeps (Records (Guarded rw ws)) Anyhow := by
  have hstable : Stable (Guarded rw ws) := stable_guarded hws
  have hmoves : Moves (Guarded rw ws) plan.oldRange := by
    intro m k hm hmeets hlike
    refine ⟨hlike.perms ▸ hm.within, ?_,
      hm.capped.like (by rw [hlike.perms]) hlike.shared hlike.backing⟩
    intro w hw _
    rw [hlike.perms]
    exact hm.allows (w.1, plan.oldRange) (htaken w hw) hmeets
  apply keeps_ite
  · cases plan.newAddr with
    | some newStart => exact remapKeepOld_records hstable hmoves hold _ _
    | none =>
      apply Keeps.get
      intro v _
      exact Keeps.bind freeStart_keeps (fun _ => remapKeepOld_records hstable hmoves hold _ _)
  · exact remapRange_records hstable hmoves hold _ _

/-! ### Interleavings keep the ceilings -/

namespace Contended

/-- Every record keeps to its ceiling, and the ceilings allow what is about to be set and no shared
writing that was not asked for. -/
structure Held (s : Contended) : Prop where
  guarded : s.space.Records (Guarded s.writable s.protections)
  protections : ∀ w ∈ s.protections, w.1 = w.1.granted ∧ w.2.start < w.2.stop
  plans : ∀ thread plan, s.waiting.get? thread = some (.mremap plan) →
    plan.oldRange.start < plan.oldRange.stop
  children : ∀ v ∈ s.children, v.Records (Guarded s.writable [])

variable {s s' : Contended} {α : Type} {call : VmCall α}

theorem mem_protections {w : VmPerms × Range} :
    w ∈ s.protections ↔ ∃ thread, s.waiting.get? thread = some (.mprotect w.1 w.2) := by
  unfold protections values
  simp only [List.mem_filterMap, List.mem_map, get?_eq_some]
  constructor
  · rintro ⟨call, ⟨e, he, rfl⟩, hcall⟩
    refine ⟨e.1, ?_⟩
    cases hkind : e.2 with
    | mprotect prot range =>
      rw [hkind] at hcall
      cases hcall
      rwa [← hkind]
    | mremap plan =>
      rw [hkind] at hcall
      cases hcall
  · rintro ⟨thread, he⟩
    exact ⟨_, ⟨_, he, rfl⟩, rfl⟩

theorem Held.nonempty (h : s.Held) : ∀ w ∈ s.protections, w.2.start < w.2.stop :=
  fun w hw => (h.protections w hw).2

/-- One more object may be written through shared mappings. -/
theorem Held.note (h : s.Held) {rw : List Nat} (hrw : s.writable ⊆ rw) :
    ({ s with writable := rw } : Contended).Held where
  guarded := All.imp h.guarded (fun _ hm => hm.subset hrw (List.Subset.refl _))
  protections := h.protections
  plans := h.plans
  children v hv := All.imp (h.children v hv) (fun _ hm => hm.subset hrw (List.Subset.refl _))

/-- What a section keeps of the records, the state keeps. The section may have to count on
more than the protections that are waited for. -/
theorem Held.take {ws : List (VmPerms × Range)} (h : s.Held) (hsub : s.protections ⊆ ws)
    (hguarded : s.space.Records (Guarded s.writable ws))
    (hcall : call.Keeps (Records (Guarded s.writable ws)) Anyhow) (hrun : s.take call = .ok s') :
    s'.Held := by
  unfold Contended.take at hrun
  cases hend : call s.space with
  | error p =>
    rw [hend] at hrun
    cases hrun
  | ok out =>
    rw [hend] at hrun
    cases hrun
    have hall : out.2.Records (Guarded s.writable ws) := hcall.holds hguarded hend
    exact ⟨All.imp hall (fun m hm => hm.subset (List.Subset.refl _) hsub), h.protections, h.plans,
      h.children⟩

/-- The protection that the thread waited to set no longer counts. -/
theorem Held.release (h : s.Held) (thread : Nat) : (s.release thread).Held := by
  have hget : ∀ t w, (s.release thread).waiting.get? t = some w → s.waiting.get? t = some w := by
    intro t w ht
    unfold Contended.release at ht
    rw [get?_erase] at ht
    split_ifs at ht
    exact ht
  have hsub : (s.release thread).protections ⊆ s.protections := by
    intro w hw
    obtain ⟨t, ht⟩ := mem_protections.mp hw
    exact mem_protections.mpr ⟨t, hget t _ ht⟩
  exact ⟨All.imp h.guarded (fun m hm => hm.subset (List.Subset.refl _) hsub),
    fun w hw => h.protections w (hsub hw), fun t plan ht => h.plans t plan (hget t _ ht), h.children⟩

variable {thread : Nat} {plan : RemapPlan}

/-- A thread that starts to wait for `mprotect` adds a protection that the records allow. -/
theorem Held.await_mprotect {prot : VmPerms} {range : Range}
    (h : s.Held) (hprot : prot = prot.granted) (hrange : range.start < range.stop)
    (hallows : ∀ m ∈ s.space.mappings.iter, meets range m = true → m.perms.allows prot = true) :
    ({ s with waiting := s.waiting.insert thread (.mprotect prot range) } : Contended).Held := by
  have hmem : ∀ w, w ∈ ({ s with waiting := s.waiting.insert thread (.mprotect prot range) } :
      Contended).protections → w = (prot, range) ∨ w ∈ s.protections := by
    intro w hw
    obtain ⟨t, ht⟩ := mem_protections.mp hw
    rw [get?_insert] at ht
    split_ifs at ht
    · cases ht
      exact .inl rfl
    · exact .inr (mem_protections.mpr ⟨t, ht⟩)
  refine ⟨⟨All.keyed h.guarded, ?_⟩, ?_, ?_, h.children⟩
  · intro e he
    have hold := All.holds h.guarded e he
    refine ⟨hold.within, ?_, hold.capped⟩
    intro w hw hmeets
    rcases hmem w hw with rfl | hw
    · exact hallows e.2 (mem_map_of_mem he) hmeets
    · exact hold.allows w hw hmeets
  · intro w hw
    rcases hmem w hw with rfl | hw
    · exact ⟨hprot, hrange⟩
    · exact h.protections w hw
  · intro t plan ht
    rw [get?_insert] at ht
    split_ifs at ht
    · cases ht
    · exact h.plans t plan ht

theorem Held.await_mremap (h : s.Held) (hplan : plan.oldRange.start < plan.oldRange.stop) :
    ({ s with waiting := s.waiting.insert thread (.mremap plan) } : Contended).Held := by
  have hsub : ({ s with waiting := s.waiting.insert thread (.mremap plan) } :
      Contended).protections ⊆ s.protections := by
    intro w hw
    obtain ⟨t, ht⟩ := mem_protections.mp hw
    rw [get?_insert] at ht
    split_ifs at ht
    · cases ht
    · exact mem_protections.mpr ⟨t, ht⟩
  refine ⟨All.imp h.guarded (fun m hm => hm.subset (List.Subset.refl _) hsub),
    fun w hw => h.protections w (hsub hw), ?_, h.children⟩
  intro t plan' ht
  rw [get?_insert] at ht
  split_ifs at ht
  · cases ht
    exact hplan
  · exact h.plans t plan' ht

/-- A check that passes leaves the address space alone and lets the thread wait. -/
theorem await_eq_ok {next : α → Waiting} (hcall : ∀ r v, call s.space = .ok (r, v) → v = s.space)
    (hrun : s.await thread call next = .ok s') : s' = s ∨ ∃ a, call s.space = .ok (.ok a, s.space) ∧
      s' = { s with waiting := s.waiting.insert thread (next a) } := by
  unfold await at hrun
  split_ifs at hrun
  cases hend : call s.space with
  | error p =>
    rw [hend] at hrun
    cases hrun
  | ok out =>
    obtain ⟨result, v⟩ := out
    obtain rfl := hcall result v hend
    rw [hend] at hrun
    cases result with
    | error e =>
      cases hrun
      exact .inl rfl
    | ok a =>
      cases hrun
      exact .inr ⟨a, rfl, rfl⟩

/-- A child gets the records of its parent, and no call is under way in it. -/
theorem fork_held {v child : Vmar} (h : s.Held) (hrun : s.space.fork = .ok (v, child)) :
    ({ s with space := v, children := child :: s.children } : Contended).Held := by
  obtain ⟨⟨pages, child'⟩, hfork, hrun⟩ := ok_of_bind hrun
  cases hrun
  refine ⟨h.guarded, h.protections, h.plans, forall_mem_cons.mpr ⟨?_, h.children⟩⟩
  have hempty : Records (Guarded s.writable [])
      { new s.space.aslrOffset with maxAddrSpace := s.space.maxAddrSpace } := All.empty
  refine forkMappings_records (stable_guarded nofun) ?_ ?_ hempty hfork
  · -- a record that is wiped is private
    exact fun m hm => ⟨hm.within, nofun, nofun⟩
  · intro m hm
    obtain ⟨e, he, rfl⟩ := mem_map.mp hm
    exact (All.holds h.guarded e he).subset (List.Subset.refl _) (nil_subset _)

/-- What is moved allows every protection that is about to be set. -/
theorem remap_held (h : s.Held) (horderly : s.Orderly (.mremapApply thread))
    (hwaiting : s.waiting.get? thread = some (.mremap plan))
    (hrun : s.take (mremapApply plan) = .ok s') : s'.Held := by
  have hold := h.plans thread plan hwaiting
  -- a record of the old range ends up anywhere, so it counts as under every protection
  let ws := s.protections ++ s.protections.map (fun w => (w.1, plan.oldRange))
  have hsplit : ∀ w ∈ ws, w ∈ s.protections ∨
      w.2 = plan.oldRange ∧ ∃ w' ∈ s.protections, w.1 = w'.1 := by
    intro w hw
    rcases mem_append.mp hw with hw | hw
    · exact .inl hw
    · obtain ⟨w', hw', rfl⟩ := mem_map.mp hw
      exact .inr ⟨rfl, w', hw', rfl⟩
  have hnonempty : ∀ w ∈ ws, w.2.start < w.2.stop := by
    intro w hw
    rcases hsplit w hw with hw | ⟨hrange, _⟩
    · exact h.nonempty w hw
    · rw [hrange]
      exact hold
  have htaken : ∀ w ∈ ws, (w.1, plan.oldRange) ∈ ws := by
    intro w hw
    refine mem_append.mpr (.inr ?_)
    rcases hsplit w hw with hw | ⟨_, w', hw', hprot⟩
    · exact mem_map.mpr ⟨w, hw, rfl⟩
    · exact mem_map.mpr ⟨w', hw', by rw [hprot]⟩
  have hguarded : s.space.Records (Guarded s.writable ws) := by
    refine ⟨All.keyed h.guarded, ?_⟩
    intro e he
    have hheld := All.holds h.guarded e he
    refine ⟨hheld.within, ?_, hheld.capped⟩
    intro w hw hmeets
    rcases hsplit w hw with hw | ⟨hrange, w', hw', hprot⟩
    · exact hheld.allows w hw hmeets
    · rw [hprot]
      refine horderly w' hw' e.2 (mem_map_of_mem he) ?_
      rw [hwaiting]
      rwa [hrange] at hmeets
  exact h.take (subset_append_left _ _) hguarded
    (mremapApply_guarded hnonempty hold htaken) hrun

theorem subset_noted (s : Contended) (backing : Option Backing) (prot : VmPerms)
    (flags : MmapFlags) : s.writable ⊆ s.noted backing prot flags := by
  unfold noted
  split_ifs
  · exact subset_append_right _ _
  · exact List.Subset.refl _

/-- The ceiling of a new shared record allows what is about to be set on it. -/
theorem mmap_held {backing : Option Backing} {addr len offset : Nat} {prot : VmPerms}
    {flags : MmapFlags} (h : s.Held)
    (horderly : s.Orderly (.mmap backing addr len prot flags offset))
    (hstep : s.step (.mmap backing addr len prot flags offset) = .ok s') : s'.Held := by
  obtain ⟨t, hrun, rfl⟩ := exists_of_observed hstep
  have hnoted := h.note (s.subset_noted backing prot flags)
  -- the section does not look at the history
  have hrun' : Contended.take { s with writable := s.noted backing prot flags }
      (mmapLocked backing addr len prot flags offset) =
        .ok { t with writable := s.noted backing prot flags } := by
    unfold Contended.take at hrun ⊢
    dsimp only at hrun ⊢
    split at hrun
    · cases hrun
    · cases hrun
      rfl
  refine hnoted.take (List.Subset.refl _) hnoted.guarded
    (mmapLocked_records (stable_guarded h.nonempty) ?_) hrun'
  rintro size perms hcheck m rfl hshared hbacking
  obtain ⟨hprot, hwithin, hperms⟩ := checkMmap_perms hcheck
  refine ⟨hwithin, ?_, ?_⟩
  · intro w hw _
    rw [hperms]
    split_ifs with hfull
    · exact VmPerms.allows_withFullCeiling (h.protections w hw).1
    · simp only [Bool.or_eq_true, isNone_iff_eq_none, not_or] at hfull
      exact horderly (isSome_iff_ne_none.mpr hfull.1) (by simpa using hfull.2) w hw
  · -- the ceiling of an object that is mapped shared is what was asked for
    intro hyes b hb hnot
    rw [hshared] at hyes
    rw [hbacking] at hb
    rw [hperms, hb, hyes, if_neg (by simp), VmPerms.may_withCeiling hprot]
    cases hwrite : prot.contains .WRITE with
    | false => rfl
    | true => simp [noted, hyes, hb, hwrite] at hnot

/-- What each section of a call keeps. -/
theorem step_held {sec : Section} (h : s.Held) (horderly : s.Orderly sec)
    (hstep : s.step sec = .ok s') : s'.Held := by
  cases sec with
  | mmap backing addr len prot flags offset => exact mmap_held h horderly hstep
  | munmap range =>
    exact h.take (List.Subset.refl _) h.guarded (munmap_records (stable_guarded h.nonempty) range)
      hstep
  | mprotectCheck thread prot range =>
    have hlooks := mprotectCheck_keeps True (I := (· = s.space)) prot range
    rcases await_eq_ok (fun _ _ => hlooks.holds rfl) hstep with rfl | ⟨_, hrun, rfl⟩
    · exact h
    · obtain ⟨hprot, hrange, hallows⟩ := mprotectCheck_run horderly hrun
      exact h.await_mprotect hprot hrange hallows
  | mprotectApply thread =>
    unfold step at hstep
    dsimp only at hstep
    split at hstep
    · rename_i prot range hwaiting
      obtain ⟨t, hrun, rfl⟩ := exists_of_observed hstep
      have hw : (prot, range) ∈ s.protections := mem_protections.mpr ⟨thread, hwaiting⟩
      exact (h.take (List.Subset.refl _) h.guarded
        (mprotectApply_guarded h.nonempty hw (h.protections _ hw).1) hrun).release thread
    · cases hstep
  | mremapCheck thread oldAddr oldSize newSize flags newAddr =>
    rcases await_eq_ok (fun _ _ hrun => (mremapCheck_run hrun).1) hstep with
      rfl | ⟨plan, hrun, rfl⟩
    · exact h
    · exact h.await_mremap ((mremapCheck_run hrun).2 plan rfl).nonempty
  | mremapApply thread =>
    unfold step at hstep
    dsimp only at hstep
    split at hstep
    · rename_i plan hwaiting
      obtain ⟨t, hrun, rfl⟩ := exists_of_observed hstep
      exact (remap_held h horderly hwaiting hrun).release thread
    · cases hstep
  | fork =>
    unfold step at hstep
    cases hfork : s.space.fork with
    | error p =>
      rw [hfork] at hstep
      cases hstep
    | ok out =>
      rw [hfork] at hstep
      cases hstep
      exact fork_held h hfork

/-- An address space with no records on which no call has begun. -/
def start (v : Vmar) : Contended := ⟨{ v with mappings := .empty }, .empty, [], []⟩

theorem start_held (v : Vmar) : (start v).Held where
  guarded := All.empty
  protections := by simp [start, protections, SortedMap.values, SortedMap.empty]
  plans _ _ h := nomatch h
  children := by simp [start]

end Contended

end Vmar

end Petra.Vm
