import Petra.Vm.Allocator
import Petra.Vm.Invariant

/-! # The operations keep the invariant

Each system call on an address space keeps the records a partition and the running total
right, and adds no page table entry.
-/

namespace Petra.Vm

open Base SortedMap Option Nat VmMapping Mappings
open Call (Ensures Keeps)

variable {σ α β : Type} {P : σ → Prop} {Q : Except Errno β → σ → Prop} {r : Except Panic α}
  {f : α → Call VmarPanic Errno σ β}

theorem ensures_orPanic {E : VmarPanic → Prop} (hpanic : ∀ p, E (.kernel p))
    (h : ∀ a, r = .ok a → (f a).Ensures P Q E) :
    (orPanic r >>= f).Ensures P Q E := by
  cases r with
  | error p => exact fun _ _ => hpanic p
  | ok a => exact h a rfl

theorem ok_of_run_orPanic {b : β} {s s' : σ}
    (h : (orPanic r >>= f) s = .ok (.ok b, s')) : ∃ a, r = .ok a ∧ f a s = .ok (.ok b, s') := by
  cases r with
  | error p => cases h
  | ok a => exact ⟨a, rfl, h⟩

namespace Vmar

variable {exact : Prop} {v₀ v : Vmar}

theorem noUnderflow_kernel (exact : Prop) (p : Panic) : NoUnderflow exact (.kernel p) :=
  fun _ => VmarPanic.noConfusion

theorem ensures_kernel (h : ∀ a, r = .ok a → (f a).Ensures P Q (NoUnderflow exact)) :
    (orPanic r >>= f).Ensures P Q (NoUnderflow exact) :=
  ensures_orPanic (noUnderflow_kernel exact) h

theorem ensures_addUsize {a b : Nat} {f : Nat → Call VmarPanic Errno σ β}
    (h : (f (a + b)).Ensures P Q (NoUnderflow exact)) :
    (orPanic (addUsize a b) >>= f).Ensures P Q (NoUnderflow exact) := by
  apply ensures_kernel
  intro c hc
  rw [(addUsize_eq_ok hc).1]
  exact h

/-- An address space with its invariant, on its way from an earlier one. -/
def Tracked (exact : Prop) (v₀ v : Vmar) : Prop := v.Good exact ∧ v₀.Evolves v

abbrev Tracks (exact : Prop) (v₀ : Vmar) (m : VmCall α) : Prop :=
  m.Keeps (Tracked exact v₀) (NoUnderflow exact)

theorem Good.tracked (h : v.Good exact) : Tracked exact v v := ⟨h, Evolves.refl v⟩

/-! ### Operations on the records of a range -/

variable {range : Range} {page : Attr → Pte → Option Pte} {op : Mappings.CarveOp VmSpace}
  {f : VmMapping → VmMapping} {eff : Attr → Option Attr} {g : Attr → Attr}

theorem InPlace.tracked (hop : PieceOp op eff page) {outcome : CarveOutcome} {v' : Vmar}
    (hv : Tracked exact v₀ v) (h : InPlace range eff page outcome v v') : Tracked exact v₀ v' :=
  ⟨h.good hop hv.1, hv.2.trans (h.evolves hop)⟩

theorem carve_keeps (hop : PieceOp op eff page) : Tracks exact v₀ (carve range op) := by
  apply Ensures.of_forall
  intro s hs
  refine (carve_ensures hop hs.1).imp ?_
  rintro r s' ⟨outcome, _, _, hin⟩
  exact hin.tracked hop hs

theorem unmap_get? (vmSpace : VmSpace) (m : VmMapping) (p : Nat) :
    (m.unmap vmSpace).get? p = if m.Covers p then none else vmSpace.get? p := by
  unfold unmap VmSpace.unmap
  rw [get?_filter]
  by_cases hcov : m.Covers p
  · have hmem : m.range.Mem p := hcov
    simp [hcov, hmem]
  · have hmem : ¬ m.range.Mem p := hcov
    cases vmSpace.get? p <;> simp [hcov, hmem]

theorem protect_get? (vmSpace : VmSpace) (m : VmMapping) (perms : VmPerms) (p : Nat) :
    (m.protect vmSpace perms).get? p = if m.Covers p then (vmSpace.get? p).bind (fun pte =>
        some { pte with flags := protectFlags perms m.shared pte.flags })
      else vmSpace.get? p := by
  unfold protect VmSpace.protect
  rw [get?_mapValues]
  by_cases hcov : m.Covers p
  · have hmem : m.range.Mem p := hcov
    cases vmSpace.get? p <;> simp [hcov, hmem]
  · have hmem : ¬ m.range.Mem p := hcov
    cases vmSpace.get? p <;> simp [hcov, hmem]

theorem pieceOp_drop : PieceOp (fun vmSpace piece _ => .ok (none, piece.unmap vmSpace))
    (fun _ => none) (fun _ _ => none) where
  records := ⟨by simp, fun _ _ _ _ _ _ _ => rfl⟩
  pages := by
    rintro env m sub kept env' h p
    cases h
    rw [unmap_get?]
    simp
  shared _ _ h := by cases h
  frame _ _ _ h := by cases h
  write _ _ _ h := by cases h
  dropped _ _ _ := rfl

theorem pieceOp_dropPages : PieceOp (fun vmSpace piece _ => .ok (some piece, piece.unmap vmSpace))
    some (fun _ _ => none) where
  records := by
    refine ⟨?_, by simp⟩
    intro env m sub k env' h
    cases h
    exact ⟨rfl, rfl, fun _ _ => rfl⟩
  pages := by
    rintro env m sub kept env' h p
    cases h
    rw [unmap_get?]
    simp
  shared _ _ h := by cases h; rfl
  frame _ _ _ h := by cases h
  write _ _ _ h := by cases h
  dropped _ _ h := by cases h

theorem pieceOp_alter (hstart : ∀ m, (f m).start = m.start) (hlen : ∀ m, (f m).len = m.len)
    (hattr : ∀ m p, (f m).attrAt p = g (m.attrAt p)) (hshared : ∀ a, (g a).shared = a.shared) :
    PieceOp (fun vmSpace piece _ => .ok (some (f piece), vmSpace)) (fun a => some (g a))
      (fun _ => some) where
  records := by
    refine ⟨?_, by simp⟩
    intro env m sub k env' h
    cases h
    exact ⟨hstart m, hlen m, fun p _ => congrArg some (hattr m p).symm⟩
  pages := by
    rintro env m sub kept env' h p
    cases h
    simp
  shared _ _ h := by cases h; exact hshared _
  frame _ _ _ h := by cases h; rfl
  write _ _ _ h _ hw := by cases h; exact hw
  dropped _ _ h := by cases h

theorem pieceOp_protect (prot : VmPerms) : PieceOp (fun vmSpace piece _ =>
      .ok (some { piece with perms := piece.perms.withGranted prot },
        protect { piece with perms := piece.perms.withGranted prot } vmSpace
          (piece.perms.withGranted prot)))
      (fun a => some { a with perms := a.perms.withGranted prot })
      (fun a pte => some { pte with
        flags := protectFlags (a.perms.withGranted prot) a.shared pte.flags }) where
  records := by
    refine ⟨?_, by simp⟩
    intro env m sub k env' h
    cases h
    exact ⟨rfl, rfl, fun _ _ => rfl⟩
  pages := by
    rintro env m sub kept env' h p
    cases h
    exact protect_get? env _ _ p
  shared _ _ h := by cases h; rfl
  frame _ _ _ h := by cases h; rfl
  write a pte _ h hshared hw := by
    cases h
    simp [protectFlags, hshared] at hw
  dropped _ _ h := by cases h

theorem unmapRange_ensures (hv : v.Good exact) : (unmapRange range).Ensures (· = v)
      (fun r s => r = .ok () ∧ ∃ outcome, outcome.mapped = v.mappings.overlap range ∧
        InPlace range (fun _ => none) (fun _ _ => none) outcome v s) (NoUnderflow exact) := by
  apply Ensures.bind (R := fun outcome s => outcome.mapped = v.mappings.overlap range ∧
      InPlace range (fun _ => none) (fun _ _ => none) outcome v s)
  · refine (carve_ensures pieceOp_drop hv).imp ?_
    rintro _ s ⟨outcome, rfl, hin⟩
    exact hin
  · intro outcome
    apply Ensures.pure
    intro s hs
    exact ⟨rfl, outcome, hs⟩

theorem unmapRange_keeps (range : Range) : Tracks exact v₀ (unmapRange range) := by
  apply Ensures.of_forall
  intro s hs
  refine (unmapRange_ensures hs.1).imp ?_
  rintro r s' ⟨_, outcome, _, hin⟩
  exact hin.tracked pieceOp_drop hs

theorem alter_keeps (range : Range)
    (hstart : ∀ m, (f m).start = m.start) (hlen : ∀ m, (f m).len = m.len)
    (hattr : ∀ m p, (f m).attrAt p = g (m.attrAt p)) (hshared : ∀ a, (g a).shared = a.shared) :
    Tracks exact v₀ (alter range f) := by
  apply Keeps.bind (carve_keeps (pieceOp_alter hstart hlen hattr hshared))
  exact fun _ => Keeps.pure

theorem munmap_keeps (range : Range) : Tracks exact v₀ (munmap range) := by
  apply Keeps.orFail
  intro _ _
  apply Keeps.check
  exact fun _ => unmapRange_keeps range

theorem mlockRange_keeps (range : Range) (locked : Bool) :
    Tracks exact v₀ (mlockRange range locked) := by
  apply Keeps.check
  intro _
  exact alter_keeps (g := fun a => { a with locked }) range (fun _ => rfl) (fun _ => rfl)
    (fun _ _ => rfl) (fun _ => rfl)

theorem mprotectCheck_keeps (exact : Prop) {I : Vmar → Prop} (prot : VmPerms) (range : Range) :
    (mprotectCheck prot range).Keeps I (NoUnderflow exact) := by
  apply Keeps.orFail
  intro _ _
  apply Keeps.check
  intro _
  apply Keeps.check
  intro _
  apply Keeps.get
  intro s _
  apply ensures_kernel
  intro found _
  exact Keeps.checked

theorem mprotect_keeps (prot : VmPerms) (range : Range) :
    Tracks exact v₀ (mprotect prot range) :=
  Keeps.bind (mprotectCheck_keeps exact prot range) fun _ =>
    Keeps.bind (carve_keeps (pieceOp_protect prot)) fun _ => Keeps.checked

theorem madvise_keeps (advice : MadviseAdvice) (range : Range) :
    Tracks exact v₀ (madvise advice range) := by
  have hdrop : (if advice.dropsPages then do
      Call.check (isMappableRange range) .EFAULT
      let outcome ← unmapPagesOnly range
      Call.check (range.len ≤ outcome.mapped) .ENOMEM
    else (pure () : VmCall Unit)).Keeps (Tracked exact v₀) (NoUnderflow exact) := by
    apply Ensures.ite
    · intro _
      apply Keeps.check
      intro _
      apply Keeps.bind (carve_keeps pieceOp_dropPages)
      exact fun _ => Keeps.checked
    · exact fun _ => Keeps.pure
  apply Keeps.orFail
  intro _ _
  cases advice
  case dontFork =>
    exact alter_keeps (g := fun a => { a with dontFork := true }) range (fun _ => rfl)
      (fun _ => rfl) (fun _ _ => rfl) (fun _ => rfl)
  case doFork =>
    exact alter_keeps (g := fun a => { a with dontFork := false }) range (fun _ => rfl)
      (fun _ => rfl) (fun _ _ => rfl) (fun _ => rfl)
  case wipeOnFork =>
    exact alter_keeps (g := fun a => { a with wipeOnFork := true }) range (fun _ => rfl)
      (fun _ => rfl) (fun _ _ => rfl) (fun _ => rfl)
  case keepOnFork =>
    exact alter_keeps (g := fun a => { a with wipeOnFork := false }) range (fun _ => rfl)
      (fun _ => rfl) (fun _ _ => rfl) (fun _ => rfl)
  all_goals first | exact Keeps.pure | exact hdrop

/-! ### Putting a record in -/

variable {ms' : Mappings} {total : Nat} {added : Range}

/-- New records where nothing was mapped, with the total brought up to date. -/
theorem Good.of_view_extended (hv : v.Good exact)
    (hfree : v.mappings.Free added) (hpart : ms'.Partition)
    (hview : ∀ p, ¬ added.Mem p → ms'.view p = v.view p) (htotal : exact → total = ms'.totalLen) :
    Tracked exact v { v with mappings := ms', totalVm := total } := by
  have hkeep : ∀ p, (v.vmSpace.get? p).isSome → ms'.view p = v.view p := by
    intro p hp
    obtain ⟨pte, hpte⟩ := isSome_iff_exists.mp hp
    have hsome := hv.resident p pte hpte
    apply hview
    intro hmem
    have hnone := hfree p hmem.1 hmem.2
    simp [view, hnone] at hsome
  refine ⟨⟨hpart, ?_, htotal⟩, Evolves.of_pages_eq rfl hkeep⟩
  intro p pte hpte
  have hsome := hv.resident p pte hpte
  change (ms'.view p).isSome
  rwa [hkeep p (by rw [hpte]; rfl)]

variable {m k : VmMapping} {flags : MmapFlags} {extra : Nat}

/-- Putting a record where nothing is mapped, with its length added to the total. -/
theorem Good.insert (hv : v.Good exact)
    (hfit : v.mappings.Fits m) (hrun : v.mappings.insert m = .ok ms')
    (htotal : exact → total = v.totalVm + m.len) :
    Tracked exact v { v with mappings := ms', totalVm := total } := by
  obtain ⟨final, hfinal, hpart, hview⟩ := hfit.insert
  rw [hrun] at hfinal
  cases hfinal
  apply hv.of_view_extended hfit.free hpart
  · intro p hnot
    rw [mem_range] at hnot
    rw [hview, viewWith, if_neg hnot]
    rfl
  · intro hexact
    rw [hfit.totalLen_insert hpart hview, htotal hexact, hv.total hexact]

/-- Replacing a record by one that also covers a free range next to it. -/
theorem Good.replace {m' : VmMapping}
    (hv : v.Good exact) (hm : (m.start, m) ∈ v.mappings.map.entries) (hplaced : m'.Placed)
    (hcov : ∀ p, m'.Covers p ↔ m.Covers p ∨ added.Mem p)
    (hattr : ∀ p, m.Covers p → m'.attrAt p = m.attrAt p) (hfree : v.mappings.Free added)
    (hlen : m'.len = m.len + added.len) (hrun : (v.mappings.remove m.start).2.insert m' = .ok ms')
    (htotal : exact → total = v.totalVm + added.len) :
    Tracked exact v { v with mappings := ms', totalVm := total } ∧
      ∀ p, added.Mem p → (ms'.view p).isSome := by
  have hpart := hv.partition
  have herase := hpart.view_erase hm
  have hfit : (v.mappings.remove m.start).2.Fits m' := by
    refine ⟨hpart.filter _, hplaced, ?_⟩
    intro p hstart hstop
    change (⟨v.mappings.map.erase m.start⟩ : Mappings).view p = none
    rw [herase]
    rcases (hcov p).mp ⟨hstart, hstop⟩ with hp | hp
    · exact if_pos hp
    · rw [hfree p hp.1 hp.2, ite_self]
  obtain ⟨final, hfinal, hpart', hview⟩ := hfit.insert
  rw [hrun] at hfinal
  cases hfinal
  have hview' : ∀ p, ms'.view p = if m'.Covers p then some (m'.attrAt p)
      else if m.Covers p then none else v.view p := by
    intro p
    rw [hview, viewWith]
    congr 1
    exact herase p
  have hsame : ∀ p, ¬ added.Mem p → ms'.view p = v.view p := by
    intro p hnot
    rw [hview']
    by_cases hp : m.Covers p
    · rw [if_pos ((hcov p).mpr (.inl hp)), hattr p hp, eq_comm]
      exact hpart.view_eq_some.mpr ⟨_, hm, hp, rfl⟩
    · rw [if_neg (fun hp' => ((hcov p).mp hp').elim hp hnot), if_neg hp]
  have hadded : ∀ p, added.Mem p → (ms'.view p).isSome := by
    intro p hp
    rw [hview', if_pos ((hcov p).mpr (.inr hp))]
    rfl
  refine ⟨hv.of_view_extended hfree hpart' hsame ?_, hadded⟩
  intro hexact
  have hinsert := hfit.totalLen_insert hpart' hview
  have hremove := totalLen_erase hm
  have hold := hv.total hexact
  have hnew := htotal hexact
  change ms'.totalLen = (⟨v.mappings.map.erase m.start⟩ : Mappings).totalLen + m'.len at hinsert
  omega

/-! ### mmap -/

theorem checkedNextPage_eq_some {n up : Nat} (h : checkedNextPage n = some up) :
    pageSize ∣ up ∧ n ≤ up := by
  unfold checkedNextPage at h
  dsimp only at h
  split_ifs at h
  cases h
  refine ⟨Dvd.intro_left _ rfl, ?_⟩
  unfold pageSize
  omega

theorem checkMmap_eq_ok {backing : Option Backing} {addr len offset len' : Nat}
    {prot perms : VmPerms}
    (h : checkMmap backing addr len prot flags offset = .ok (len', perms)) :
    pageSize ∣ addr ∧ pageSize ∣ len' ∧ 0 < len' := by
  unfold checkMmap at h
  simp only [bind, Except.bind] at h
  cases hnext : checkedNextPage len with
  | none =>
    rw [hnext] at h
    split_ifs at h
  | some up =>
    obtain ⟨hdvd, hle⟩ := checkedNextPage_eq_some hnext
    rw [hnext] at h
    dsimp only at h
    have hlen : len ≠ 0 := by
      rintro rfl
      simp at h
    have haddr : addr % pageSize = 0 := by
      by_contra hne
      simp [hne] at h
    have hup : len' = up := by
      repeat' split at h
      all_goals cases h
      all_goals rfl
    rw [hup]
    exact ⟨dvd_of_mod_eq_zero haddr, hdvd, by omega⟩

theorem freeStart_ensures {size limit : Nat} (hv : v.Good exact) :
    (freeStart v.mappings size limit).Ensures (· = v)
      (fun r s => s = v ∧ ∀ start, r = .ok start → Region size limit ⟨start, start + size⟩ ∧
        v.mappings.Free ⟨start, start + size⟩) (NoUnderflow exact) := by
  unfold freeStart
  cases hfind : findFreeRegion v.mappings size limit with
  | none =>
    apply Ensures.fail
    rintro s rfl
    exact ⟨rfl, nofun⟩
  | some region =>
    obtain ⟨hregion, hfree⟩ := findFreeRegion_eq_some hv.partition hfind
    have heq : region = ⟨region.start, region.start + size⟩ := by
      rw [← hregion.stop_eq]
    apply Ensures.pure
    rintro s rfl
    refine ⟨rfl, ?_⟩
    rintro start h
    cases h
    exact heq ▸ ⟨hregion, hfree⟩

theorem placeMapping_ensures {addr len : Nat} (hv : v.Good exact)
    (haddr : pageSize ∣ addr) : (placeMapping v addr len flags).Ensures (· = v)
      (fun r s => s = v ∧ ∀ start, r = .ok start → pageSize ∣ start) (NoUnderflow exact) := by
  have hhere : (pure addr : VmCall Nat).Ensures (· = v)
      (fun r s => s = v ∧ ∀ start, r = .ok start → pageSize ∣ start) (NoUnderflow exact) := by
    apply Ensures.pure
    rintro s rfl
    refine ⟨rfl, ?_⟩
    rintro start h
    cases h
    exact haddr
  have hsearch : ∀ limit, (freeStart v.mappings len limit).Ensures (· = v)
      (fun r s => s = v ∧ ∀ start, r = .ok start → pageSize ∣ start) (NoUnderflow exact) := by
    intro limit
    refine (freeStart_ensures hv).imp ?_
    rintro r s ⟨hs, hr⟩
    exact ⟨hs, fun start h => (hr start h).1.aligned⟩
  apply Ensures.ite (fun _ => hhere)
  intro _
  apply Ensures.ite
  · intro _
    apply ensures_kernel
    intro stop _
    apply ensures_kernel
    intro taken _
    apply Ensures.check
    · rintro s rfl
      exact ⟨rfl, nofun⟩
    · exact fun _ => hhere
  · intro _
    apply Ensures.ite (fun _ => hsearch _)
    intro _
    apply ensures_kernel
    intro stop _
    apply Ensures.ite
    · intro _
      apply ensures_kernel
      intro taken _
      exact Ensures.ite (fun _ => hhere) (fun _ => hsearch _)
    · exact fun _ => hsearch _

theorem addRecord_keeps : (addRecord m).Ensures (fun s => Tracked exact v₀ s ∧ s.mappings.Fits m)
      (fun _ => Tracked exact v₀) (NoUnderflow exact) := by
  apply Ensures.get
  rintro s ⟨⟨hgood, hevolves⟩, hfit⟩
  apply ensures_addUsize
  apply ensures_kernel
  intro ms' hrun t _
  obtain ⟨hgood', hevolves'⟩ := hgood.insert hfit hrun (fun _ => rfl)
  exact ⟨hgood', hevolves.trans hevolves'⟩

theorem mmapLocked_keeps (backing : Option Backing) (addr len : Nat) (prot : VmPerms)
    (flags : MmapFlags) (offset : Nat) :
    (mmapLocked backing addr len prot flags offset).Keeps (Tracked exact v₀)
      (NoUnderflow exact) := by
  apply Keeps.orFail
  rintro ⟨len', perms⟩ hcheck
  obtain ⟨haddr, hlen, hpos⟩ := checkMmap_eq_ok hcheck
  apply Ensures.get
  intro s hs
  apply Ensures.bind (R := fun start t => t = s ∧ pageSize ∣ start)
  · refine (placeMapping_ensures hs.1 haddr).imp ?_
    rintro r t ⟨rfl, hr⟩
    cases r with
    | error e => exact hs
    | ok start => exact ⟨rfl, hr start rfl⟩
  intro start
  apply Ensures.of_forall
  rintro t ⟨rfl, hstart⟩
  apply ensures_addUsize
  apply Ensures.check (fun _ h => h ▸ hs)
  intro hmappable
  simp only [isMappableRange, Bool.and_eq_true, decide_eq_true_eq] at hmappable
  apply Ensures.orFail (fun _ _ h => h ▸ hs)
  intro _ _
  -- unmapping leaves the range free, so the new record fits
  apply Ensures.bind (R := fun _ u => Tracked exact v₀ u ∧ u.mappings.Free ⟨start, start + len'⟩)
  · refine (unmapRange_ensures hs.1).imp ?_
    rintro _ u ⟨rfl, outcome, _, hin⟩
    refine ⟨hin.tracked pieceOp_drop hs, ?_⟩
    intro p hp hp'
    exact (hin.view p).trans (by rw [if_pos ⟨hp, hp'⟩, bind_fun_none])
  intro _
  apply Ensures.orFail (fun _ _ h => h.1)
  intro m hm
  unfold newMapping at hm
  rw [dif_pos hpos] at hm
  cases hm
  apply Ensures.bind (R := fun _ => Tracked exact v₀)
  · refine addRecord_keeps.weaken ?_ (fun r _ h => by cases r <;> exact h)
    rintro u ⟨hu, hfree⟩
    refine ⟨hu, hu.1.partition, ⟨hstart, hlen, hmappable.1, hmappable.2⟩, hfree⟩
  · exact fun _ => Keeps.pure

/-! ### Growing a record in place -/

theorem enlarge_placed (hm : m.Placed)
    (h : m.enlarge extra = .ok k) (hcap : m.stop + extra ≤ vmarCapAddr) :
    k.Placed ∧ k.len = m.len + extra ∧ k.start = m.start ∧ k.attrAt = m.attrAt := by
  obtain ⟨hextra, hpos, rfl⟩ := enlarge_eq_ok h
  refine ⟨⟨hm.start_aligned, Nat.dvd_add hm.len_aligned hextra, hm.lowest_le, ?_⟩, rfl, rfl, rfl⟩
  simp only [stop] at hcap ⊢
  omega

/-- Growing the record that ends where a free range begins. -/
theorem Good.enlarge {total : Nat} (hv : v.Good exact)
    (hm : (m.start, m) ∈ v.mappings.map.entries) (henlarge : m.enlarge extra = .ok k)
    (hcap : m.stop + extra ≤ vmarCapAddr) (hfree : v.mappings.Free ⟨m.stop, m.stop + extra⟩)
    (hrun : (v.mappings.remove m.start).2.insert k = .ok ms')
    (htotal : exact → total = v.totalVm + extra) :
    Tracked exact v { v with mappings := ms', totalVm := total } := by
  obtain ⟨hplaced, hlen, hstart, hattr⟩ := enlarge_placed (hv.partition.placed _ hm) henlarge hcap
  have hextra := Range.len_add m.stop extra
  refine (hv.replace hm hplaced ?_ (fun p _ => congrFun hattr p) hfree (by rw [hlen, hextra]) hrun
    (fun h => by rw [hextra, htotal h])).1
  intro p
  unfold VmMapping.Covers stop Range.Mem
  rw [hlen, hstart]
  dsimp only
  omega

variable {ms : Mappings} {above : VmMapping} {address page : Nat}

theorem mem_remove (hm : (m.start, m) ∈ ms.map.entries) :
    ms.remove m.start = (some m, (ms.remove m.start).2) := by
  unfold remove
  rw [get?_eq_some.mpr hm]

theorem pageAlignedSize_eq_ok {n up : Nat} (h : pageAlignedSize n = .ok up) :
    pageSize ∣ up ∧ n ≤ up ∧ 0 < up := by
  unfold pageAlignedSize at h
  split_ifs at h with hzero
  cases hnext : checkedNextPage n with
  | none => rw [hnext] at h; cases h
  | some k =>
    rw [hnext] at h
    cases h
    obtain ⟨hdvd, hle⟩ := checkedNextPage_eq_some hnext
    exact ⟨hdvd, hle, by omega⟩

theorem checkPageAlignedRange_eq_ok {r : Range} {u : Unit} (h : checkPageAlignedRange r = .ok u) :
    r.start < r.stop ∧ pageSize ∣ r.start ∧ pageSize ∣ r.stop := by
  unfold checkPageAlignedRange at h
  split_ifs at h with hlt halign
  simp only [Bool.or_eq_true, bne_iff_ne, not_or, not_not] at halign
  exact ⟨by omega, dvd_of_mod_eq_zero halign.1, dvd_of_mod_eq_zero halign.2⟩

theorem resizeMapping_keeps (addr oldSize newSize : Nat) :
    Tracks exact v₀ (resizeMapping addr oldSize newSize) := by
  apply Keeps.orFail
  intro old hold
  apply Keeps.orFail
  intro new hnew
  apply ensures_addUsize
  apply Keeps.orFail
  intro _ _
  apply ensures_addUsize
  apply Keeps.orFail
  intro _ _
  apply Ensures.get
  intro s hs
  cases howner : s.mappings.get addr with
  | none => exact Ensures.fail (fun _ h => h ▸ hs)
  | some owner =>
    obtain ⟨hmem, hcov⟩ := hs.1.partition.get_eq_some.mp howner
    apply Ensures.check (fun _ h => h ▸ hs)
    intro hend
    simp only [decide_eq_true_eq] at hend
    apply Ensures.ite (fun _ => Ensures.pure (fun _ h => h ▸ hs))
    intro hne
    apply Ensures.ite
    · intro _
      exact (unmapRange_keeps _).weaken (fun _ h => h ▸ hs) (fun _ _ h => h)
    intro hge
    apply Ensures.check (fun _ h => h ▸ hs)
    intro hmappable
    simp only [isMappableRange, Bool.and_eq_true, decide_eq_true_eq] at hmappable
    apply ensures_kernel
    intro taken htaken
    apply Ensures.check (fun _ h => h ▸ hs)
    intro hzero
    -- the owner ends where the free range begins, or it would overlap that range
    rw [hs.1.partition.countOverlap (by dsimp only; omega)] at htaken
    have hfree : s.mappings.Free ⟨addr + old, addr + new⟩ := by
      rw [← overlap_eq_zero]
      cases htaken
      simpa using hzero
    have hstopEq : owner.stop = addr + old := by
      by_contra hlong
      have hnone := hfree (addr + old) le_rfl (by dsimp only; omega)
      rw [hs.1.partition.view_eq_none] at hnone
      have := hcov.1
      exact hnone _ hmem ⟨by dsimp only; omega, by dsimp only; omega⟩
    apply ensures_addUsize
    apply Ensures.orFail (fun _ _ h => h ▸ hs)
    intro _ _
    rw [mem_remove hmem]
    apply ensures_kernel
    intro k hk
    apply ensures_kernel
    intro ms' hrun t _
    have hnewStop : owner.stop + (new - old) = addr + new := by omega
    obtain ⟨hgood, hevolves⟩ := hs.1.enlarge hmem hk (hnewStop ▸ hmappable.2)
      (by rw [hnewStop, hstopEq]; exact hfree) hrun (fun _ => rfl)
    exact ⟨hgood, hs.2.trans hevolves⟩

/-! ### Growing downwards -/

theorem extendDownwards_eq_ok (hm : m.Placed)
    (hlow : vmarLowestAddr ≤ page) (hbacking : m.backing = none)
    (h : m.extendDownwards page = .ok k) :
    k.Placed ∧ k.start = page ∧ k.len = m.len + (m.start - page) ∧ page < m.start ∧
      k.attrAt = m.attrAt := by
  unfold extendDownwards at h
  split_ifs at h with halign
  obtain ⟨hpage, hlt, hgap⟩ := halign
  cases hadd : addUsize m.len (m.start - page) with
  | error e => rw [hadd] at h; cases h
  | ok len =>
    obtain ⟨rfl, _⟩ := addUsize_eq_ok hadd
    simp only [hadd, bind, Except.bind] at h
    cases hgrown : m.withLen (m.len + (m.start - page)) with
    | error e => rw [hgrown] at h; cases h
    | ok grown =>
      obtain ⟨hpos, rfl⟩ := withLen_eq_ok hgrown
      rw [hgrown] at h
      cases h
      have hstop := hm.stop_le
      refine ⟨⟨dvd_of_mod_eq_zero hpage, ?_, hlow, ?_⟩, rfl, rfl, hlt, ?_⟩
      · exact Nat.dvd_add hm.len_aligned (Nat.dvd_of_mod_eq_zero hgap)
      · simp only [stop] at hstop ⊢
        omega
      · funext p
        simp [attrAt, hbacking]

/-- No record covers the page of an unmapped address. -/
theorem free_below_next (h : ms.Partition)
    (hnone : ms.get address = none) (hnext : ms.next (address - address % pageSize) = some above) :
    (above.start, above) ∈ ms.map.entries ∧
      ms.Free ⟨address - address % pageSize, above.start⟩ := by
  obtain ⟨e, he, rfl⟩ := map_eq_some_iff.mp hnext
  obtain ⟨hmem, hle⟩ := atLeast?_eq_some he
  have hkey := h.keyed e hmem
  refine ⟨hkey ▸ hmem, ?_⟩
  intro p hp hp'
  dsimp only at hp hp'
  rw [h.view_eq_none]
  intro e' he' hcov
  have hkey' := h.keyed e' he'
  have hplaced := h.placed e' he'
  by_cases hpage : address - address % pageSize ≤ e'.1
  · have hfirst := atLeast?_le he he' hpage
    have := hcov.1
    omega
  -- a record from below reaches past the page, so it covers the address itself
  have hstop := hplaced.stop_aligned
  have hcovers : e'.2.Covers address := by
    have := hcov.2
    obtain ⟨c, hc⟩ := hstop
    have hmod := div_add_mod address pageSize
    have hlt := mod_lt address (show 0 < pageSize by decide)
    refine ⟨by omega, ?_⟩
    have hdiv : address / pageSize < c := by
      by_contra hcon
      have hmul := mul_le_mul_left pageSize (not_lt.mp hcon)
      omega
    have hmul := mul_le_mul_left pageSize hdiv
    rw [mul_succ] at hmul
    omega
  rw [h.get_eq_some.mpr ⟨hkey' ▸ he', hcovers⟩] at hnone
  cases hnone

theorem growDownwards_eq_ok {ms ms' : Mappings}
    {grown : Option VmMapping} (hnext : ms.next page = some above)
    (hmem : (above.start, above) ∈ ms.map.entries) (h : ms.growDownwards page = .ok (grown, ms')) :
    grown = none ∧ ms' = ms ∨ ∃ k, above.backing = none ∧ above.extendDownwards page = .ok k ∧
      (ms.remove above.start).2.insert k = .ok ms' ∧ grown = ms'.get page := by
  unfold Mappings.growDownwards at h
  rw [hnext] at h
  dsimp only at h
  split_ifs at h with hstop
  · cases h
    exact .inl ⟨rfl, rfl⟩
  simp only [isGrowable, Bool.or_eq_true, decide_eq_true_eq, Bool.not_eq_true', Bool.and_eq_false_iff, not_or, Bool.not_eq_false, isNone_iff_eq_none] at hstop
  rw [mem_remove hmem] at h
  cases hext : above.extendDownwards page with
  | error e => simp [hext, bind, Except.bind] at h
  | ok k =>
    simp only [hext, bind, Except.bind] at h
    cases hput : (ms.remove above.start).2.insert k with
    | error e => simp [hput] at h
    | ok put =>
      simp only [hput, Except.ok.injEq] at h
      obtain ⟨rfl, rfl⟩ := h
      exact .inr ⟨k, hstop.2.2, rfl, hput, rfl⟩

/-- A record that covers an address covers its page. -/
theorem get_page (h : ms.Partition)
    (hget : ms.get address = some m) : ms.get (address - address % pageSize) = some m := by
  obtain ⟨hmem, hcov⟩ := h.get_eq_some.mp hget
  have hstop := hcov.2
  refine h.get_eq_some.mpr ⟨hmem, ?_, by omega⟩
  obtain ⟨c, hc⟩ := (h.placed _ hmem).start_aligned
  have hstart := hcov.1
  rw [hc] at hstart ⊢
  have hdiv : c ≤ address / pageSize :=
    (le_div_iff_mul_le (by decide)).mpr (by rwa [mul_comm])
  have hmul := mul_le_mul_left pageSize hdiv
  have hmod := div_add_mod address pageSize
  omega

/-- The record a fault works on covers the page of the fault. -/
theorem growForFault_ensures (address : Nat) : (growForFault address).Ensures (Tracked exact v₀)
      (fun r s => Tracked exact v₀ s ∧
        ∀ m, r = .ok (some m) → s.mappings.get (address - address % pageSize) = some m)
      (NoUnderflow exact) := by
  apply Ensures.get
  intro s hs
  cases hget : s.mappings.get address with
  | some m =>
    apply Ensures.pure
    rintro t rfl
    refine ⟨hs, fun k hk => ?_⟩
    cases hk
    exact get_page hs.1.partition hget
  | none =>
    have hkeep : (pure none : VmCall (Option VmMapping)).Ensures (· = s)
        (fun r s => Tracked exact v₀ s ∧
          ∀ m, r = .ok (some m) → s.mappings.get (address - address % pageSize) = some m)
        (NoUnderflow exact) :=
      Ensures.pure (fun _ h => ⟨h ▸ hs, nofun⟩)
    apply Ensures.get
    rintro t rfl
    apply Ensures.ite (fun _ => hkeep)
    intro hlow
    cases hnext : t.mappings.next (address - address % pageSize) with
    | none => exact hkeep
    | some above =>
      obtain ⟨hmem, hfree⟩ := free_below_next hs.1.partition hget hnext
      apply Ensures.ite (fun _ => hkeep)
      intro _
      cases t.checkFitsAddrSpace (above.start - (address - address % pageSize)) with
      | error e => exact hkeep
      | ok _ =>
        apply ensures_kernel
        rintro ⟨grown, ms'⟩ hgrow
        rcases growDownwards_eq_ok hnext hmem hgrow with ⟨rfl, rfl⟩ | ⟨k, hb, hext, hput, rfl⟩
        · exact Ensures.set hkeep
        have habove : above.Placed := hs.1.partition.placed _ hmem
        obtain ⟨hplaced, hstart, hlen, hlt, hattr⟩ :=
          extendDownwards_eq_ok habove (not_lt.mp hlow) hb hext
        have hcov : ∀ p, k.Covers p ↔ above.Covers p ∨
            (⟨address - address % pageSize, above.start⟩ : Range).Mem p := by
          intro p
          unfold VmMapping.Covers stop Range.Mem
          dsimp only
          omega
        obtain ⟨⟨hgood, hevolves⟩, hview⟩ := hs.1.replace hmem hplaced hcov
          (fun p _ => congrFun hattr p) hfree hlen hput (fun _ => rfl)
        cases hfound : ms'.get (address - address % pageSize) with
        | none =>
          have hsome := hview _ ⟨le_rfl, hlt⟩
          simp [Mappings.view, hfound] at hsome
        | some record =>
          apply ensures_addUsize
          apply Ensures.set_pure
          refine ⟨⟨hgood, hs.2.trans hevolves⟩, fun m hm => ?_⟩
          cases hm
          exact hfound

end Vmar

end Petra.Vm
