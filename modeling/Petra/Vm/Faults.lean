import Petra.Vm.Frames

/-! # Faults keep writable private pages exclusive

The calls that supply frames leave the address spaces alone and return frames that may be
shared. A fault enters such a frame without the write bit if the mapping is private and
somebody else holds it, and enters a copy that nobody holds otherwise.
-/

namespace Petra.Vm

open Base Vmar SortedMap Option
open Call (Ensures Keeps)

namespace World

variable {w w₀ : World} {exact excl : Prop} {i : Nat}

/-- Every address space is in order, and writable private entries are exclusive if `excl` holds. -/
structure Sound (exact excl : Prop) (w : World) : Prop where
  good : ∀ i v, w.spaces.get? i = some v → v.Good exact
  exclusive : excl → w.Exclusive

abbrev Sounds (exact excl : Prop) (m : WorldCall α) : Prop :=
  m.Keeps (Sound exact excl) (NoUnderflow exact)

/-! ### Reaching one address space -/

variable {E : VmarPanic → Prop} {α : Type} {call : VmCall α}

theorem onSpace_ensures {Q : Except Errno α → World → Prop} (hmissing : Q (.error .EINVAL) w)
    (hcall : ∀ v, w.spaces.get? i = some v →
      call.Ensures (· = v) (fun r s => Q r (w.withSpace i s)) E) :
    (onSpace i call).Ensures (· = w) Q E := by
  rintro t rfl
  unfold onSpace
  cases hv : t.spaces.get? i with
  | none => exact hmissing
  | some v =>
    have hrun := hcall v hv v rfl
    dsimp only
    cases hcv : call v with
    | error p | ok out => rwa [hcv] at hrun

variable {β : Type} {Q : Except Errno β → World → Prop} {f : Vmar → WorldCall β}

theorem ensures_space (hmissing : Q (.error .EINVAL) w)
    (h : ∀ v, w.spaces.get? i = some v → (f v).Ensures (· = w) Q E) :
    (space i >>= f).Ensures (· = w) Q E := by
  apply Ensures.bind (R := fun v s => s = w ∧ w.spaces.get? i = some v)
  · apply Ensures.get
    rintro s rfl
    cases hv : s.spaces.get? i with
    | none => exact Ensures.fail (fun _ hs => hs ▸ hmissing)
    | some v => exact Ensures.pure (fun _ hs => ⟨hs, rfl⟩)
  · intro v
    rintro s ⟨rfl, hv⟩
    exact h v hv s rfl

theorem keeps_space {I : World → Prop} (h : ∀ t, I t → ∀ v, t.spaces.get? i = some v →
      (f v).Ensures (· = t) (fun _ => I) E) : (space i >>= f).Keeps I E := by
  apply Ensures.of_forall
  intro t ht
  exact ensures_space ht (h t ht)

variable {v : Vmar}

theorem Sound.withSpace (h : Sound exact excl w) (hgood : v.Good exact)
    (hexcl : excl → (w.withSpace i v).Exclusive) : Sound exact excl (w.withSpace i v) := by
  refine ⟨?_, hexcl⟩
  intro j u hu
  rcases get?_insert_cases hu with ⟨-, rfl⟩ | ⟨-, hu⟩
  · exact hgood
  · exact h.good j u hu

theorem Sound.tracked {v v' : Vmar} (h : Sound exact excl w) (hv : w.spaces.get? i = some v)
    (htracked : Tracked exact v v') : Sound exact excl (w.withSpace i v') :=
  h.withSpace htracked.1 (fun hexcl => (h.exclusive hexcl).evolves hv htracked.2)

theorem onSpace_keeps (hcall : ∀ v, Tracks exact v call) : Sounds exact excl (onSpace i call) := by
  apply Ensures.of_forall
  intro w hw
  refine onSpace_ensures hw ?_
  intro v hv
  refine (hcall v).weaken (fun s hs => hs ▸ (hw.good i v hv).tracked) ?_
  intro r s hs
  exact hw.tracked hv hs

/-! ### Supplying frames -/

/-- The same holders hold the same frames. -/
structure SameHolders (w₀ w : World) : Prop where
  spaces : w.spaces = w₀.spaces
  pages : w.pages = w₀.pages
  zeroFrame : w.zeroFrame = w₀.zeroFrame

variable {f : Frame}

theorem SameHolders.holds (h : SameHolders w₀ w) {holder : Holder} :
    w.Holds holder f ↔ w₀.Holds holder f := by
  cases holder <;> simp only [Holds, h.spaces, h.pages, h.zeroFrame]

/-- The address spaces are untouched and exclusiveness is kept. -/
structure Supplied (w₀ w : World) : Prop where
  spaces : w.spaces = w₀.spaces
  exclusive : w₀.Exclusive → w.Exclusive

theorem Supplied.refl (w : World) : Supplied w w := ⟨rfl, id⟩

theorem Supplied.trans {w₁ w₂ : World} (h : Supplied w w₁) (h' : Supplied w₁ w₂) : Supplied w w₂ :=
  ⟨h'.spaces.trans h.spaces, fun he => h'.exclusive (h.exclusive he)⟩

theorem SameHolders.supplied (h : SameHolders w₀ w) : Supplied w₀ w :=
  ⟨h.spaces, fun he => he.of_holders (fun _ _ hv => h.spaces ▸ hv)
    (fun _ _ hheld => .inl (h.holds.mp hheld))⟩

theorem Supplied.sound (h : Supplied w₀ w) (hw : Sound exact excl w₀) : Sound exact excl w :=
  ⟨fun j v hv => hw.good j v (h.spaces ▸ hv), fun hexcl => h.exclusive (hw.exclusive hexcl)⟩

/-- A holder other than a page table entry takes a frame that nothing holds. -/
theorem supplied_of_new_holder (taker : Holder) (hfresh : w₀.Unheld f)
    (hspaces : w.spaces = w₀.spaces)
    (hheld : ∀ holder g, w.Holds holder g → w₀.Holds holder g ∨ holder = taker ∧ g = f) :
    Supplied w₀ w := by
  refine ⟨hspaces, fun he => he.of_holders (fun _ _ hv => hspaces ▸ hv) ?_⟩
  intro holder g hg
  rcases hheld holder g hg with hold | ⟨_, rfl⟩
  · exact .inl hold
  · exact .inr hfresh.shareable

theorem shareable_of_holds (taker : Holder) (hheld : w.Holds taker f)
    (hother : ∀ i p, taker ≠ .pte i p) : w.Shareable f := fun _ _ => ⟨taker, hheld, hother⟩

variable (P : Platform) {call : WorldCall Frame}

/-- The call supplies a frame for which `R` holds. -/
def Supplies (call : WorldCall Frame) (R : World → Frame → Prop) : Prop :=
  ∀ (exact : Prop) (w₀ : World), call.Ensures (fun w => w = w₀)
    (fun r w => Supplied w₀ w ∧ ∀ f, r = .ok f → R w f) (NoUnderflow exact)

theorem Supplies.shareable (h : Supplies call Unheld) : Supplies call Shareable := fun exact w₀ =>
  (h exact w₀).weaken (fun _ hw => hw) (fun _ _ hq => ⟨hq.1, fun f hf => (hq.2 f hf).shareable⟩)

theorem allocZeroedFrame_ensures (exact : Prop) (w₀ : World) :
    (allocZeroedFrame P).Ensures (· = w₀)
      (fun r w => SameHolders w₀ w ∧ ∀ f, r = .ok f → w.Unheld f) (NoUnderflow exact) := by
  apply Ensures.get
  rintro w rfl
  cases halloc : P.alloc w with
  | none =>
    apply Ensures.fail
    rintro t rfl
    exact ⟨⟨rfl, rfl, rfl⟩, nofun⟩
  | some g =>
    apply Ensures.set_pure
    have hsame : SameHolders w { w.setMem g (fun _ => 0) with clock := w.clock + 1 } :=
      ⟨rfl, rfl, rfl⟩
    refine ⟨hsame, fun f hf => ?_⟩
    cases hf
    intro holder hheld
    exact refcount_eq_zero.mp (P.unused w g halloc) holder (hsame.holds.mp hheld)

/-- Run a call on a frame fresh from the allocator. -/
theorem ensures_alloc {f : Frame → WorldCall β} (hfail : ∀ w e, Supplied w₀ w → Q (.error e) w)
    (h : ∀ w g, SameHolders w₀ w → w.Unheld g →
      (f g).Ensures (· = w) Q (NoUnderflow exact)) :
    (allocZeroedFrame P >>= f).Ensures (· = w₀) Q (NoUnderflow exact) := by
  apply Ensures.bind (R := fun g w => SameHolders w₀ w ∧ w.Unheld g)
  · refine (allocZeroedFrame_ensures P exact w₀).weaken (fun _ hw => hw) ?_
    intro r w hw
    cases r with
    | error e => exact hfail w e hw.1.supplied
    | ok g => exact ⟨hw.1, hw.2 g rfl⟩
  · intro g
    apply Ensures.of_forall
    intro w hw
    exact h w g hw.1 hw.2

theorem allocZeroedFrame_supplies : Supplies (allocZeroedFrame P) Unheld := fun exact w₀ =>
  (allocZeroedFrame_ensures P exact w₀).weaken (fun _ hw => hw) (fun _ _ hq => ⟨hq.1.supplied, hq.2⟩)

theorem getZeroFrame_supplies : Supplies (getZeroFrame P) Shareable := by
  intro exact w₀
  apply Ensures.get
  rintro w rfl
  cases hzero : w.zeroFrame with
  | some f =>
    apply Ensures.pure
    rintro t rfl
    refine ⟨Supplied.refl t, fun g hg => ?_⟩
    cases hg
    exact shareable_of_holds .zero hzero (by simp)
  | none =>
    apply ensures_alloc P (fun t _ ht => ⟨ht, nofun⟩)
    intro t f hsame hfresh
    apply Ensures.get
    rintro u rfl
    apply Ensures.set_pure
    have hnew : Supplied u { u with zeroFrame := some f } := by
      refine supplied_of_new_holder .zero hfresh rfl ?_
      intro holder g hg
      cases holder with
      | zero => exact .inr ⟨rfl, (some.inj hg).symm⟩
      | pte j p | page object offset => exact .inl hg
    refine ⟨hsame.supplied.trans hnew, fun g hg => ?_⟩
    cases hg
    exact shareable_of_holds .zero rfl (by simp)

theorem copyFrame_supplies (f : Frame) : Supplies (copyFrame P f) Unheld := by
  intro exact w₀
  apply ensures_alloc P (fun t _ ht => ⟨ht, nofun⟩)
  intro t copy hsame hfresh
  apply Ensures.get
  rintro u rfl
  apply Ensures.set_pure
  have hmem : SameHolders u (u.setMem copy (u.mem f)) := ⟨rfl, rfl, rfl⟩
  refine ⟨hsame.supplied.trans hmem.supplied, fun g hg => ?_⟩
  cases hg
  exact fun holder hheld => hfresh holder (hmem.holds.mp hheld)

theorem privateCopy_supplies (f : Frame) : Supplies (privateCopy P f) Unheld := by
  intro exact w₀
  apply Ensures.get
  rintro w rfl
  apply Ensures.ite
  · intro _
    exact allocZeroedFrame_supplies P exact w
  · intro _
    exact copyFrame_supplies P f exact w

theorem frameAt_supplies (object : Backing) (offset : Nat) (bytes : World → Nat → UInt8) :
    Supplies (frameAt P object offset bytes) Shareable := by
  intro exact w₀
  apply Ensures.check
  · rintro t rfl
    exact ⟨Supplied.refl t, nofun⟩
  intro _
  apply Ensures.get
  rintro w rfl
  cases hpage : w.pages.get? (toLex (object.ptr, offset)) with
  | some f =>
    apply Ensures.pure
    rintro t rfl
    refine ⟨Supplied.refl t, fun g hg => ?_⟩
    cases hg
    exact shareable_of_holds (.page object.ptr offset) hpage (by simp)
  | none =>
    apply ensures_alloc P (fun t _ ht => ⟨ht, nofun⟩)
    intro t f hsame hfresh
    apply Ensures.get
    rintro u rfl
    apply Ensures.set_pure
    have hnew : Supplied u { u.setMem f (bytes u) with
        pages := u.pages.insert (toLex (object.ptr, offset)) f } := by
      refine supplied_of_new_holder (.page object.ptr offset) hfresh rfl ?_
      intro holder g hg
      cases holder with
      | zero | pte j p => exact .inl hg
      | page object' offset' =>
        rcases get?_insert_cases hg with ⟨hkey, rfl⟩ | ⟨-, hg⟩
        · have hpair := toLex.injective hkey
          simp only [Prod.mk.injEq] at hpair
          exact .inr ⟨by rw [hpair.1, hpair.2], rfl⟩
        · exact .inl hg
    refine ⟨hsame.supplied.trans hnew, fun g hg => ?_⟩
    cases hg
    exact shareable_of_holds (.page object.ptr offset) (get?_insert_self _ _ _) (by simp)

theorem backingFrame_supplies (object : Backing) (offset : Nat) :
    Supplies (backingFrame P object offset) Shareable := by
  unfold backingFrame
  cases object.kind with
  | file | shm => exact frameAt_supplies P object offset _
  | singleFrame =>
    intro exact w₀
    apply Ensures.get
    rintro w rfl
    cases hpage : w.pages.get? (toLex (object.ptr, 0)) with
    | some f =>
      apply Ensures.pure
      rintro t rfl
      refine ⟨Supplied.refl t, fun g hg => ?_⟩
      cases hg
      exact shareable_of_holds (.page object.ptr 0) hpage (by simp)
    | none => exact Ensures.abort (fun _ _ => noUnderflow_kernel exact _)

theorem obtainFrame_supplies (m : VmMapping) (offset : Nat) (isWrite : Bool) :
    Supplies (obtainFrame P m offset isWrite) Shareable := by
  have hanonymous : Supplies
      (if (!isWrite && !m.shared) = true then getZeroFrame P else allocZeroedFrame P)
      Shareable := by
    split_ifs
    · exact getZeroFrame_supplies P
    · exact (allocZeroedFrame_supplies P).shareable
  unfold obtainFrame
  cases m.backing with
  | none => exact hanonymous
  | some object =>
    dsimp only
    split
    · exact backingFrame_supplies P object _
    · exact hanonymous

/-! ### Faults -/

/-- The world is in order and the records of the address space `i` are `ms`. -/
def Serves (exact excl : Prop) (i : Nat) (ms : Mappings) (w : World) : Prop :=
  Sound exact excl w ∧ ∃ v, w.spaces.get? i = some v ∧ v.mappings = ms

variable {ms : Mappings} {m : VmMapping} {page : Nat} {pte : Pte}

theorem Supplied.serves (h : Supplied w₀ w) (hw : Serves exact excl i ms w₀) :
    Serves exact excl i ms w := by
  obtain ⟨hsound, v, hv, hms⟩ := hw
  exact ⟨h.sound hsound, v, h.spaces ▸ hv, hms⟩

theorem privateAt_iff (hms : v.mappings = ms) (hget : ms.get page = some m) :
    v.PrivateAt page ↔ m.shared = false := by
  have hview : v.view page = some (m.attrAt page) := by
    simp only [view, Mappings.view, hms, hget, map_some]
  unfold PrivateAt
  rw [hview]
  constructor
  · rintro ⟨a, ha, hpriv⟩
    cases ha
    exact hpriv
  · intro hpriv
    exact ⟨_, rfl, hpriv⟩

theorem mapPage_keeps (hw : Serves exact excl i ms w) (hget : ms.get page = some m)
    (hmay : excl → ∀ v, w.spaces.get? i = some v → v.mappings = ms → w.MayMap i page v pte) :
    (mapPage i page pte).Ensures (· = w) (fun _ => Serves exact excl i ms)
      (NoUnderflow exact) := by
  refine onSpace_ensures hw ?_
  rintro v hv s rfl
  obtain ⟨hsound, u, hu, hms⟩ := hw
  rw [hv] at hu
  cases hu
  have hgood := hsound.good i s hv
  refine ⟨hsound.withSpace ⟨hgood.partition, ?_, hgood.total⟩
    (fun hexcl => (hsound.exclusive hexcl).mapPage hv (hmay hexcl s hv hms)),
    _, get?_insert_self _ _ _, hms⟩
  intro p qte hqte
  rcases get?_insert_cases hqte with ⟨rfl, -⟩ | ⟨-, hqte⟩
  · simp only [view, Mappings.view, hms, hget, map_some, isSome_some]
  · exact hgood.resident p qte hqte

theorem Unheld.mayMap {flags : PageFlags} (h : w.Unheld f) : w.MayMap i page v ⟨f, flags⟩ :=
  ⟨.inl h.shareable, fun _ _ holder hheld => absurd hheld (h holder)⟩

/-- A shareable frame goes in without the write bit where a write would have to copy it. -/
theorem Shareable.mayMap {isWrite : Bool} (h : w.Shareable f)
    (hms : v.mappings = ms) (hget : ms.get page = some m) :
    w.MayMap i page v ⟨f, faultProperty m (!w.mustCopy m f 1) isWrite⟩ := by
  refine ⟨.inl h, ?_⟩
  intro hwrite hpriv holder hheld
  have hshared := (privateAt_iff hms hget).mp hpriv
  simp only [faultProperty, mustCopy, VmMapping.isCow, hshared, Bool.not_false, Bool.true_and, Bool.and_eq_true, Bool.not_eq_true', Bool.or_eq_false_iff, decide_eq_false_iff_not]
    at hwrite
  have hzero : w.refcount f = 0 := by
    omega
  exact absurd hheld (refcount_eq_zero.mp hzero holder)

/-- Run a call on a supplied frame. -/
theorem ensures_supplied {R : World → Frame → Prop}
    {f : Frame → WorldCall β} (hcall : Supplies call R) (hw : Serves exact excl i ms w)
    (h : ∀ t g, Serves exact excl i ms t → R t g →
      (f g).Ensures (· = t) (fun _ => Serves exact excl i ms) (NoUnderflow exact)) :
    (call >>= f).Ensures (· = w) (fun _ => Serves exact excl i ms)
      (NoUnderflow exact) := by
  apply Ensures.bind (R := fun g t => Serves exact excl i ms t ∧ R t g)
  · refine (hcall exact w).weaken (fun _ ht => ht) ?_
    intro r t ht
    cases r with
    | error e => exact ht.1.serves hw
    | ok g => exact ⟨ht.1.serves hw, ht.2 g rfl⟩
  · intro g
    apply Ensures.of_forall
    intro t ht
    exact h t g ht.1 ht.2

variable {required : VmPerms} {range : Range}

theorem presentFault_keeps (hw : Serves exact excl i ms w) (hget : ms.get page = some m)
    (hv : w.spaces.get? i = some v) (hpte : v.vmSpace.get? page = some pte) :
    (presentFault P i m page pte required).Ensures (· = w)
      (fun _ => Serves exact excl i ms) (NoUnderflow exact) := by
  apply Ensures.ite
  · intro _
    exact Ensures.pure (fun t ht => ht ▸ hw)
  intro _
  apply Ensures.get
  rintro t rfl
  apply Ensures.ite
  · intro _
    refine ensures_supplied (privateCopy_supplies P pte.frame) hw ?_
    intro t g ht hfresh
    exact mapPage_keeps ht hget (fun _ u _ _ => hfresh.mayMap)
  intro hkeep
  refine mapPage_keeps hw hget (fun _ u hu hms => ⟨.inr ⟨v, pte, hv, hpte, rfl⟩, ?_⟩)
  -- the fast path: nobody else holds the frame
  intro _ hpriv holder hheld
  have hshared := (privateAt_iff hms hget).mp hpriv
  simp only [mustCopy, VmMapping.isCow, hshared, Bool.not_false, Bool.true_and, Bool.or_eq_true, decide_eq_true_eq, not_or, not_lt] at hkeep
  exact holder_unique hkeep.1 hheld ⟨v, pte, hv, hpte, rfl⟩

theorem absentFault_keeps (hw : Serves exact excl i ms w) (hget : ms.get page = some m) :
    (absentFault P i m page required).Ensures (· = w)
      (fun _ => Serves exact excl i ms) (NoUnderflow exact) := by
  refine ensures_supplied (obtainFrame_supplies P m _ _) hw ?_
  intro t f ht hshare
  apply Ensures.get
  rintro u rfl
  apply Ensures.ite
  · intro _
    refine ensures_supplied (privateCopy_supplies P f) ht ?_
    intro s g hs hfresh
    exact mapPage_keeps hs hget (fun _ _ _ _ => hfresh.mayMap)
  · intro _
    exact mapPage_keeps ht hget (fun _ v _ hms => hshare.mayMap hms hget)

theorem handleMappingFault_keeps {address : Nat} {provoked : Bool}
    (hget : ms.get (address - address % pageSize) = some m) :
    (handleMappingFault P i m address required provoked).Keeps (Serves exact excl i ms)
      (NoUnderflow exact) := by
  apply Keeps.check
  intro _
  apply keeps_space
  intro t ht v hv
  cases hpte : v.vmSpace.get? (address - address % pageSize) with
  | some pte => exact presentFault_keeps P ht hget hv hpte
  | none => exact absentFault_keeps P ht hget

theorem handlePageFault_keeps (address : Nat) (required : VmPerms) (provoked : Bool) :
    Sounds exact excl (handlePageFault P i address required provoked) := by
  apply Ensures.of_forall
  intro w hw
  apply Ensures.bind (R := fun found t => Sound exact excl t ∧ ∀ m, found = some m →
    ∃ ms, Serves exact excl i ms t ∧ ms.get (address - address % pageSize) = some m)
  · refine onSpace_ensures hw ?_
    intro v hv
    have hgrow : (growForFault address).Ensures (Tracked exact v) _ (NoUnderflow exact) :=
      growForFault_ensures address
    refine hgrow.weaken (fun s hs => hs ▸ (hw.good i v hv).tracked) ?_
    intro r s hs
    have hsound := hw.tracked hv hs.1
    cases r with
    | error e => exact hsound
    | ok found =>
      refine ⟨hsound, fun m hm => ⟨s.mappings, ⟨hsound, s, get?_insert_self _ _ _, rfl⟩, ?_⟩⟩
      exact hs.2 m (by rw [hm])
  · intro found
    cases found with
    | none => exact Ensures.fail (fun _ ht => ht.1)
    | some m =>
      apply Ensures.of_forall
      intro t ht
      obtain ⟨ms, hserves, hget⟩ := ht.2 m rfl
      refine (handleMappingFault_keeps P hget).weaken (fun s hs => hs ▸ hserves) ?_
      intro _ s hs
      exact hs.1

/-! ### Populating -/

theorem populatePage_keeps (hget : ms.get page = some m) :
    (populatePage P i m page).Keeps (Serves exact excl i ms) (NoUnderflow exact) := by
  apply keeps_space
  intro t ht v hv
  cases hpte : v.vmSpace.get? page with
  | some pte => exact Ensures.pure (fun s hs => hs ▸ ht)
  | none =>
    refine ensures_supplied (obtainFrame_supplies P m _ _) ht ?_
    intro s f hs hshare
    apply Ensures.get
    rintro u rfl
    exact mapPage_keeps hs hget (fun _ v _ hms => hshare.mayMap hms hget)

theorem populatePages_keeps {pages : List Nat} (hget : ∀ p ∈ pages, ms.get p = some m) :
    (populatePages P i m pages).Keeps (Serves exact excl i ms) (NoUnderflow exact) := by
  induction pages with
  | nil => exact Keeps.pure
  | cons p pages ih =>
    exact Keeps.bind (populatePage_keeps P (hget p (by simp)))
      (fun _ => ih (fun q hq => hget q (by simp [hq])))

theorem mem_pageAddrs {p : Nat} (h : p ∈ pageAddrs range) : range.Mem p := by
  obtain ⟨k, hk, rfl⟩ := List.mem_map.mp h
  have hlt := List.mem_range.mp hk
  rw [Nat.lt_iff_add_one_le, Nat.le_div_iff_mul_le (by decide)] at hlt
  unfold Range.Mem
  unfold Range.len at hlt
  have hsize : 0 < pageSize := by decide
  have hmul : (k + 1) * pageSize = k * pageSize + pageSize := Nat.succ_mul k pageSize
  omega

theorem populateMappings_keeps {found : List VmMapping} (hpart : ms.Partition)
    (hfound : ∀ m ∈ found, (m.start, m) ∈ ms.map.entries) :
    (populateMappings P i range found).Keeps (Serves exact excl i ms) (NoUnderflow exact) := by
  induction found with
  | nil => exact Keeps.pure
  | cons m rest ih =>
    refine Keeps.bind (populatePages_keeps P ?_) (fun _ => ih (fun k hk => hfound k (by simp [hk])))
    intro p hp
    have hmem := mem_pageAddrs hp
    refine hpart.get_eq_some.mpr ⟨hfound m (by simp), ?_⟩
    simp only [Range.Mem, intersect, VmMapping.range] at hmem
    exact ⟨by omega, by omega⟩

theorem populateRange_keeps (range : Range) : Sounds exact excl (populateRange P i range) := by
  apply Keeps.orFail
  intro _ hcheck
  apply keeps_space
  intro t ht v hv
  apply ensures_kernel
  intro found hfound
  have hpart := (ht.good i v hv).partition
  refine (populateMappings_keeps P hpart ?_).weaken
    (fun s hs => hs ▸ ⟨ht, v, hv, rfl⟩) (fun _ s hs => hs.1)
  intro m hm
  rw [hpart.iterRange (checkPageAlignedRange_eq_ok hcheck).1.le] at hfound
  cases hfound
  exact (hpart.mem_inside.mp hm).1

end World

end Petra.Vm
