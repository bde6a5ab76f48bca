import Petra.Ipc.Shm

/-! # Counts and records of attachments

A count is the number of records that name the segment, as long as no record is replaced by
another one and no process with attachments executes a new program. A record can also be replaced
after a process has unmapped the pages of another one in the same address space.
-/

namespace Petra.Ipc.Shm

open Base Vm Function List SortedMap Finset Bool ShmState

namespace ShmState

variable {s s' : ShmState} {pid addr size : Nat} {shmid : Int} {att : ShmAttachment}
  {extra : List ShmAttachment}

/-- How many records of a list name a segment. -/
def naming (shmid : Int) (atts : List ShmAttachment) : Nat := atts.countP (·.shmid = shmid)

@[simp] theorem naming_nil (shmid : Int) : naming shmid [] = 0 := rfl

theorem naming_cons (shmid : Int) (att : ShmAttachment) (atts : List ShmAttachment) :
    naming shmid (att :: atts) = naming shmid atts + if att.shmid = shmid then 1 else 0 := by
  unfold naming
  rw [countP_cons]
  simp only [decide_eq_true_eq]

/-- The counts are right when the records in `extra` are counted as well. -/
structure Balanced (s : ShmState) (extra : List ShmAttachment) : Prop where
  counted : ∀ shmid seg, s.registry shmid = some seg →
    seg.nattch = s.records shmid + naming shmid extra
  known : ∀ shmid, s.registry shmid = none → s.records shmid = 0 ∧ naming shmid extra = 0
  kept : ∀ shmid seg, s.registry shmid = some seg →
    seg.markedForDeletion = true → seg.nattch ≠ 0
  released : ∀ seg ∈ s.released, seg.markedForDeletion = true ∧ seg.nattch = 0
  sound : s.underflow = false

/-! ## Records -/

variable {m : SortedMap Nat ShmAttachment}

theorem records_setAttachments (hpid : pid ∈ s.procs) (shmid : Int) :
    (s.setAttachments pid m).records shmid + naming shmid (s.attachments pid).values =
      s.records shmid + naming shmid m.values := by
  unfold records
  have hothers : ∑ pid' ∈ s.procs.erase pid,
      ((s.setAttachments pid m).attachments pid').values.countP (·.shmid = shmid) =
      ∑ pid' ∈ s.procs.erase pid, (s.attachments pid').values.countP (·.shmid = shmid) := by
    refine sum_congr rfl fun pid' hpid' => ?_
    dsimp only [setAttachments]
    rw [update_of_ne (ne_of_mem_erase hpid')]
  have hself : (s.setAttachments pid m).attachments pid = m := update_self ..
  change (∑ pid' ∈ s.procs,
    ((s.setAttachments pid m).attachments pid').values.countP (·.shmid = shmid)) + _ = _
  rw [← add_sum_erase s.procs _ hpid, hself, ← add_sum_erase s.procs
    (fun pid' => (s.attachments pid').values.countP (·.shmid = shmid)) hpid]
  unfold naming
  omega

theorem records_congr (hprocs : s'.procs = s.procs) (hatt : s'.attachments = s.attachments)
    (shmid : Int) : s'.records shmid = s.records shmid := by
  unfold records
  rw [hprocs, hatt]

theorem naming_insert (hfree : m.get? addr = none) (shmid : Int) :
    naming shmid (m.insert addr att).values = naming shmid (att :: m.values) := by
  have hperm := m.insert_perm addr att
  rw [erase_of_get?_none hfree] at hperm
  exact (hperm.map Prod.snd).countP_eq _

theorem naming_erase (hatt : m.get? addr = some att) (shmid : Int) :
    naming shmid m.values = naming shmid (att :: (m.erase addr).values) :=
  ((perm_erase hatt).map Prod.snd).countP_eq _

/-! ## Raising and lowering counts -/

/-- Raising a count changes the registry only. -/
theorem countAttach_frame (s : ShmState) (shmid : Int) :
    ∃ registry, s.countAttach shmid = { s with registry } := by
  unfold countAttach
  split <;> exact ⟨_, rfl⟩

theorem countDetach_frame (s : ShmState) (shmid : Int) : ∃ registry released underflow,
    s.countDetach shmid = { s with registry, released, underflow } := by
  unfold countDetach
  split
  · exact ⟨_, _, _, rfl⟩
  · split_ifs <;> exact ⟨_, _, _, rfl⟩

theorem registry_countAttach (s : ShmState) (shmid shmid' : Int) :
    (s.countAttach shmid).registry shmid' = if shmid' = shmid then
        (s.registry shmid).map fun seg => { seg with nattch := seg.nattch + 1 }
      else s.registry shmid' := by
  unfold countAttach
  by_cases hid : shmid' = shmid
  · subst hid
    rw [if_pos rfl]
    cases hseg : s.registry shmid' with
    | none => exact hseg
    | some seg => exact update_self ..
  · rw [if_neg hid]
    cases s.registry shmid with
    | none => rfl
    | some seg => exact update_of_ne hid ..

/-- A count above 0 is lowered, and the segment released if it is marked and was attached
once. -/
theorem countDetach_eq {seg : ShmSegment} (hseg : s.registry shmid = some seg)
    (hpos : seg.nattch ≠ 0) : s.countDetach shmid =
      if seg.nattch ≤ 1 ∧ seg.markedForDeletion = true then
        s.release shmid { seg with nattch := seg.nattch - 1 }
      else s.setSegment shmid { seg with nattch := seg.nattch - 1 } := by
  have hsame : ({ s with underflow := s.underflow || decide (seg.nattch = 0) } : ShmState) = s := by
    rw [decide_eq_false hpos, Bool.or_false]
  unfold countDetach
  rw [hseg]
  dsimp only
  rw [if_neg hpos, hsame]

/-- What the registry may have under an id that `n` records name. -/
def Agrees (n : Nat) : Option ShmSegment → Prop
  | none => n = 0
  | some seg => seg.nattch = n ∧ (seg.markedForDeletion = true → n ≠ 0)

theorem balanced_iff : s.Balanced extra ↔
    (∀ shmid, Agrees (s.records shmid + naming shmid extra) (s.registry shmid)) ∧
      (∀ seg ∈ s.released, seg.markedForDeletion = true ∧ seg.nattch = 0) ∧
      s.underflow = false := by
  constructor
  · intro h
    refine ⟨fun shmid => ?_, h.released, h.sound⟩
    cases hseg : s.registry shmid with
    | none => exact Nat.add_eq_zero_iff.mpr (h.known shmid hseg)
    | some seg =>
      have hcounted := h.counted shmid seg hseg
      exact ⟨hcounted, fun hmarked => hcounted ▸ h.kept shmid seg hseg hmarked⟩
  rintro ⟨hagrees, hreleased, hsound⟩
  have hsome : ∀ shmid seg, s.registry shmid = some seg →
      Agrees (s.records shmid + naming shmid extra) (some seg) :=
    fun shmid seg hseg => hseg ▸ hagrees shmid
  refine ⟨fun shmid seg hseg => (hsome shmid seg hseg).1, fun shmid hnone => ?_,
    fun shmid seg hseg hmarked => ?_, hreleased, hsound⟩
  · have hzero := hagrees shmid
    rw [hnone] at hzero
    exact Nat.add_eq_zero_iff.mp hzero
  · rw [(hsome shmid seg hseg).1]
    exact (hsome shmid seg hseg).2 hmarked

namespace Balanced

variable {extra' : List ShmAttachment} {atts : List ShmAttachment}

/-- The registry is written under one id. -/
theorem write (h : s.Balanced extra) {slot : Option ShmSegment}
    (hregistry : s'.registry = update s.registry shmid slot)
    (hslot : Agrees (s'.records shmid + naming shmid extra') slot)
    (hrecords : ∀ shmid' ≠ shmid, s'.records shmid' + naming shmid' extra' =
      s.records shmid' + naming shmid' extra)
    (hreleased : ∀ seg ∈ s'.released, seg.markedForDeletion = true ∧ seg.nattch = 0)
    (hunderflow : s'.underflow = s.underflow) : s'.Balanced extra' := by
  obtain ⟨hagrees, -, hsound⟩ := balanced_iff.mp h
  refine balanced_iff.mpr ⟨fun shmid' => ?_, hreleased, hunderflow.trans hsound⟩
  rw [hregistry]
  by_cases hid : shmid' = shmid
  · rw [hid, update_self]
    exact hslot
  · rw [update_of_ne hid, hrecords shmid' hid]
    exact hagrees shmid'

/-- One more record of a segment that is there is counted. -/
theorem attached (h : s.Balanced extra)
    (hseg : s.registry att.shmid ≠ none) : (s.countAttach att.shmid).Balanced (att :: extra) := by
  obtain ⟨seg, hseg⟩ := Option.ne_none_iff_exists'.mp hseg
  have hcounted := h.counted att.shmid seg hseg
  have hnaming : naming att.shmid (att :: extra) = naming att.shmid extra + 1 := by
    rw [naming_cons, if_pos rfl]
  unfold countAttach
  rw [hseg]
  refine h.write rfl ⟨?_, fun _ => ?_⟩ ?_ h.released rfl
  · change seg.nattch + 1 = s.records att.shmid + _
    omega
  · omega
  · intro shmid hid
    rw [naming_cons, if_neg (Ne.symm hid)]
    rfl

/-- A record that was taken out is no longer counted. -/
theorem detached (h : s.Balanced (att :: extra)) : (s.countDetach att.shmid).Balanced extra := by
  have hnaming : naming att.shmid (att :: extra) = naming att.shmid extra + 1 := by
    rw [naming_cons, if_pos rfl]
  have hothers : ∀ shmid ≠ att.shmid, s.records shmid + naming shmid extra =
      s.records shmid + naming shmid (att :: extra) := by
    intro shmid hid
    rw [naming_cons, if_neg (Ne.symm hid), Nat.add_zero]
  cases hseg : s.registry att.shmid with
  | none =>
    -- A record names a segment that is there.
    have hzero := (h.known att.shmid hseg).2
    omega
  | some seg =>
    have hcounted := h.counted att.shmid seg hseg
    rw [countDetach_eq hseg (by omega)]
    by_cases hlast : seg.nattch ≤ 1 ∧ seg.markedForDeletion = true
    · rw [if_pos hlast]
      refine h.write rfl ?_ hothers (forall_mem_cons.mpr
        ⟨⟨hlast.2, Nat.sub_eq_zero_of_le hlast.1⟩, h.released⟩) rfl
      change s.records att.shmid + naming att.shmid extra = 0
      omega
    · rw [if_neg hlast]
      refine h.write rfl ⟨?_, fun hmarked => ?_⟩ hothers h.released rfl
      · change seg.nattch - 1 = s.records att.shmid + naming att.shmid extra
        omega
      · have hmany : ¬seg.nattch ≤ 1 := fun hle => hlast ⟨hle, hmarked⟩
        change s.records att.shmid + naming att.shmid extra ≠ 0
        omega

/-- Records move between the table of a process and those that are counted besides. -/
theorem moved (h : s.Balanced extra)
    (hregistry : s'.registry = s.registry) (hreleased : s'.released = s.released)
    (hunderflow : s'.underflow = s.underflow)
    (hrecords : ∀ shmid, s'.records shmid + naming shmid extra' =
      s.records shmid + naming shmid extra) : s'.Balanced extra' := by
  obtain ⟨hagrees, hold, hsound⟩ := balanced_iff.mp h
  refine balanced_iff.mpr ⟨fun shmid => ?_, hreleased ▸ hold, hunderflow.trans hsound⟩
  rw [hregistry, hrecords]
  exact hagrees shmid

/-- All records of a list are dropped, one after the other. -/
theorem detachedAll (h : s.Balanced (atts ++ extra)) :
    (atts.foldl (fun s att => s.countDetach att.shmid) s).Balanced extra := by
  induction atts generalizing s with
  | nil => exact h
  | cons att atts ih => exact ih h.detached

/-- All records of a list are counted, one after the other. -/
theorem attachedAll (h : s.Balanced extra) (hatts : ∀ att ∈ atts, s.registry att.shmid ≠ none) :
    (atts.foldl (fun s att => s.countAttach att.shmid) s).Balanced (atts.reverse ++ extra) := by
  induction atts generalizing s extra with
  | nil => exact h
  | cons att atts ih =>
    rw [reverse_cons, append_assoc]
    refine ih (h.attached (hatts att (.head _))) ?_
    intro att' hatt' hnone
    rw [registry_countAttach] at hnone
    split_ifs at hnone
    · exact hatts att (.head _) (Option.map_eq_none_iff.mp hnone)
    · exact hatts att' (.tail _ hatt') hnone

/-- A record of a process names a segment that is there. -/
theorem named (h : s.Balanced extra) (hpid : pid ∈ s.procs)
    (hatt : att ∈ (s.attachments pid).values) : s.registry att.shmid ≠ none := by
  intro hnone
  have hzero := (h.known att.shmid hnone).1
  unfold records at hzero
  rw [Finset.sum_eq_zero_iff] at hzero
  have hcount := hzero pid hpid
  rw [countP_eq_zero] at hcount
  exact hcount att hatt (by simp)

end Balanced

theorem foldl_countAttach_frame (s : ShmState) (atts : List ShmAttachment) :
    ∃ registry, atts.foldl (fun s att => s.countAttach att.shmid) s = { s with registry } := by
  induction atts generalizing s with
  | nil => exact ⟨_, rfl⟩
  | cons att atts ih =>
    obtain ⟨registry, hone⟩ := countAttach_frame s att.shmid
    obtain ⟨registry', hrest⟩ := ih (s.countAttach att.shmid)
    rw [foldl_cons, hrest, hone]
    exact ⟨_, rfl⟩

theorem foldl_countDetach_frame (s : ShmState) (atts : List ShmAttachment) :
    ∃ registry released underflow, atts.foldl (fun s att => s.countDetach att.shmid) s =
      { s with registry, released, underflow } := by
  induction atts generalizing s with
  | nil => exact ⟨_, _, _, rfl⟩
  | cons att atts ih =>
    obtain ⟨registry, released, underflow, hone⟩ := countDetach_frame s att.shmid
    obtain ⟨registry', released', underflow', hrest⟩ := ih (s.countDetach att.shmid)
    rw [foldl_cons, hrest, hone]
    exact ⟨_, _, _, rfl⟩

/-! ## Records lie on mapped pages -/

/-- Every segment has a page. -/
def Sized (s : ShmState) : Prop :=
  ∀ shmid seg, s.registry shmid = some seg → 0 < seg.size / pageSize

section

variable (h : s.Sized)

include h

theorem Sized.congr (hregistry : s'.registry = s.registry) : s'.Sized := by
  unfold Sized
  rw [hregistry]
  exact h

theorem Sized.write {slot : Option ShmSegment}
    (hregistry : s'.registry = update s.registry shmid slot)
    (hslot : ∀ seg, slot = some seg → 0 < seg.size / pageSize) : s'.Sized := by
  intro shmid' seg' hfound
  rw [hregistry] at hfound
  rcases update_eq_cases hfound with ⟨-, hnew⟩ | ⟨-, hold⟩
  · exact hslot seg' hnew
  · exact h shmid' seg' hold

/-- A segment is written back with its size. -/
theorem Sized.writeBack {seg seg' : ShmSegment} (hseg : s.registry shmid = some seg)
    (hregistry : s'.registry = update s.registry shmid (some seg')) (hsize : seg'.size = seg.size) :
    s'.Sized := by
  refine h.write hregistry ?_
  rintro _ ⟨⟩
  rw [hsize]
  exact h shmid seg hseg

theorem Sized.countAttach (shmid : Int) : (s.countAttach shmid).Sized := by
  unfold ShmState.countAttach
  cases hseg : s.registry shmid with
  | none => exact h
  | some seg => exact h.writeBack hseg rfl rfl

theorem Sized.countDetach (shmid : Int) : (s.countDetach shmid).Sized := by
  unfold ShmState.countDetach
  cases hseg : s.registry shmid with
  | none => exact h
  | some seg =>
    dsimp only
    by_cases hlast : seg.nattch ≤ 1 ∧ seg.markedForDeletion = true
    · rw [if_pos hlast]
      exact h.write rfl nofun
    · rw [if_neg hlast]
      exact h.writeBack hseg rfl rfl

theorem Sized.countAttachAll (atts : List ShmAttachment) :
    (atts.foldl (fun s att => s.countAttach att.shmid) s).Sized :=
  foldlRecOn atts _ h fun _ ht att _ => ht.countAttach att.shmid

theorem Sized.countDetachAll (atts : List ShmAttachment) :
    (atts.foldl (fun s att => s.countDetach att.shmid) s).Sized :=
  foldlRecOn atts _ h fun _ ht att _ => ht.countDetach att.shmid

end

/-- The records of one process are for different pages, and all of these are mapped. -/
structure Lays (m : SortedMap Nat ShmAttachment) (pages : Nat → Bool) : Prop where
  key : ∀ addr att, m.get? addr = some att → att.addr = addr
  size : ∀ addr att, m.get? addr = some att → 0 < att.size / pageSize
  mapped : ∀ addr att, m.get? addr = some att → ∀ page, att.covers page = true → pages page = true
  apart : ∀ addr addr' att att', m.get? addr = some att → m.get? addr' = some att' → addr ≠ addr' →
    ∀ page, att.covers page = true → att'.covers page = false

theorem lays_empty (pages : Nat → Bool) : Lays .empty pages := ⟨nofun, nofun, nofun, nofun⟩

/-- The records of every process are for mapped pages, and a process with records has an address
space to itself. -/
structure Placed (s : ShmState) : Prop where
  lays : ∀ pid ∈ s.procs, Lays (s.attachments pid) (s.mapped (s.space pid))
  absent : ∀ pid, pid ∉ s.procs → s.attachments pid = .empty
  alone : ∀ pid ∈ s.procs, ∀ pid' ∈ s.procs, s.space pid' = s.space pid → pid' ≠ pid →
    s.attachments pid = .empty
  space_lt : ∀ pid ∈ s.procs, s.space pid < s.nextSpace

/-- Whether a range of pages and an attachment have a page in common. -/
def overlaps (addr size : Nat) (att : ShmAttachment) : Bool :=
  addr / pageSize < att.addr / pageSize + att.size / pageSize &&
    att.addr / pageSize < addr / pageSize + size / pageSize

theorem not_covers_of_not_overlaps (h : overlaps addr size att = false) {page : Nat}
    (hpage : att.covers page = true) : covers addr size page = false := by
  unfold overlaps at h
  unfold ShmAttachment.covers covers at hpage
  unfold covers
  rw [and_eq_true, decide_eq_true_eq, decide_eq_true_eq] at hpage
  rw [and_eq_false_iff, decide_eq_false_iff_not, decide_eq_false_iff_not] at h ⊢
  omega

theorem free_eq_true : s.free pid addr size = true ↔
    ∀ page, covers addr size page = true → s.mapped (s.space pid) page = false := by
  unfold free covers
  rw [List.all_eq_true]
  constructor
  · intro h page hpage
    rw [and_eq_true, decide_eq_true_eq, decide_eq_true_eq] at hpage
    have hfree := h (page - addr / pageSize) (List.mem_range.mpr (by omega))
    rw [Nat.add_sub_cancel' hpage.1] at hfree
    simpa using hfree
  · intro h i hi
    have hfree := h (addr / pageSize + i) (by
      simpa using hi)
    simpa using hfree

namespace Lays

variable {pages : Nat → Bool} (h : Lays m pages)

include h

/-- The first page of an attachment. -/
theorem covers_first (hatt : m.get? addr = some att) : att.covers (addr / pageSize) = true := by
  have hsize := h.size addr att hatt
  unfold ShmAttachment.covers covers
  rw [h.key addr att hatt]
  simpa using hsize

/-- A range in which no attachment has a page has no record at its address. -/
theorem get?_eq_none (hsize : 0 < size / pageSize)
    (hapart : ∀ addr' att, m.get? addr' = some att → ∀ page, att.covers page = true →
      covers addr size page = false) : m.get? addr = none := by
  cases hatt : m.get? addr with
  | none => rfl
  | some att =>
    have hcovers := hapart addr att hatt _ (h.covers_first hatt)
    unfold covers at hcovers
    simp [hsize] at hcovers

/-- A record on pages that no attachment has. -/
theorem insert (hsize : 0 < att.size / pageSize)
    (hapart : ∀ addr' att', m.get? addr' = some att' → ∀ page, att'.covers page = true →
      att.covers page = false) :
    Lays (m.insert att.addr att) fun page => covers att.addr att.size page || pages page := by
  refine ⟨?_, ?_, ?_, ?_⟩
  · intro addr' att' hget
    rcases get?_insert_cases hget with ⟨rfl, rfl⟩ | ⟨-, hold⟩
    · rfl
    · exact h.key addr' att' hold
  · intro addr' att' hget
    rcases get?_insert_cases hget with ⟨-, rfl⟩ | ⟨-, hold⟩
    · exact hsize
    · exact h.size addr' att' hold
  · intro addr' att' hget page hpage
    rcases get?_insert_cases hget with ⟨-, rfl⟩ | ⟨-, hold⟩
    · exact or_eq_true_iff.mpr (.inl hpage)
    · exact or_eq_true_iff.mpr (.inr (h.mapped addr' att' hold page hpage))
  intro addr₁ addr₂ att₁ att₂ hget₁ hget₂ hne page hpage
  rcases get?_insert_cases hget₁ with ⟨rfl, rfl⟩ | ⟨-, hold₁⟩
  · rcases get?_insert_cases hget₂ with ⟨rfl, -⟩ | ⟨-, hold₂⟩
    · exact absurd rfl hne
    · by_contra hpage₂
      rw [hapart addr₂ att₂ hold₂ page (by simpa using hpage₂)] at hpage
      cases hpage
  · rcases get?_insert_cases hget₂ with ⟨rfl, rfl⟩ | ⟨-, hold₂⟩
    · exact hapart addr₁ att₁ hold₁ page hpage
    · exact h.apart addr₁ addr₂ att₁ att₂ hold₁ hold₂ hne page hpage

/-- A record is taken out, and its pages are unmapped. -/
theorem erase (hatt : m.get? addr = some att) :
    Lays (m.erase addr) fun page => !covers att.addr att.size page && pages page := by
  have hcases : ∀ addr' att', (m.erase addr).get? addr' = some att' →
      addr' ≠ addr ∧ m.get? addr' = some att' := by
    intro addr' att' hget
    rw [get?_erase] at hget
    split_ifs at hget with haddr
    exact ⟨haddr, hget⟩
  refine ⟨?_, ?_, ?_, ?_⟩
  · exact fun addr' att' hget => h.key addr' att' (hcases addr' att' hget).2
  · exact fun addr' att' hget => h.size addr' att' (hcases addr' att' hget).2
  · intro addr' att' hget page hpage
    obtain ⟨hne, hold⟩ := hcases addr' att' hget
    have hother : att.covers page = false := h.apart addr' addr att' att hold hatt hne page hpage
    change (!att.covers page && pages page) = true
    rw [hother, h.mapped addr' att' hold page hpage]
    rfl
  · exact fun addr₁ addr₂ att₁ att₂ hget₁ hget₂ => h.apart addr₁ addr₂ att₁ att₂
      (hcases addr₁ att₁ hget₁).2 (hcases addr₂ att₂ hget₂).2

end Lays

namespace Placed

variable (h : s.Placed)

include h

/-- No attachment has a page in a range that nothing is mapped in. -/
theorem apart_of_free (hpid : pid ∈ s.procs) {addr' : Nat} (hfree : s.free pid addr size = true)
    (hatt : (s.attachments pid).get? addr' = some att) {page : Nat} (hpage : att.covers page = true) :
    covers addr size page = false := by
  have hmapped := (h.lays pid hpid).mapped addr' att hatt page hpage
  by_contra hcovers
  rw [free_eq_true.mp hfree page (by simpa using hcovers)] at hmapped
  cases hmapped

/-- The records and pages of a process change that shares its address space with no other. -/
theorem changed {pages : Nat → Bool} (hlays : Lays m pages) (hpid : pid ∈ s.procs)
    (halone : ∀ pid' ∈ s.procs, s.space pid' = s.space pid → pid' = pid) :
    Placed { s with
      attachments := update s.attachments pid m
      mapped := update s.mapped (s.space pid) pages } := by
  refine ⟨fun pid' hpid' => ?_, fun pid' habsent => ?_, fun pid₁ h₁ pid₂ h₂ hspace hne => ?_,
    h.space_lt⟩
  · dsimp only
    by_cases hsame : pid' = pid
    · rw [hsame, update_self, update_self]
      exact hlays
    · rw [update_of_ne hsame, update_of_ne fun hspace => hsame (halone pid' hpid' hspace)]
      exact h.lays pid' hpid'
  · have hne : pid' ≠ pid := fun hsame => habsent (hsame ▸ hpid)
    exact (update_of_ne hne ..).trans (h.absent pid' habsent)
  · have hother : pid₁ ≠ pid := by
      rintro rfl
      exact hne (halone pid₂ h₂ hspace)
    exact (update_of_ne hother ..).trans (h.alone pid₁ h₁ pid₂ h₂ hspace hne)

/-- A new process has records of pages of its own, or no records in an address space whose other
processes have none. -/
theorem joined {child space next : Nat} {mapped : Nat → Nat → Bool} (hchild : child ∉ s.procs)
    (hlays : Lays m (mapped space))
    (hmapped : ∀ pid ∈ s.procs, mapped (s.space pid) = s.mapped (s.space pid))
    (hnext : s.nextSpace ≤ next) (hspace : space < next) (hshare : ∀ pid ∈ s.procs,
      s.space pid = space → s.attachments pid = .empty ∧ m = .empty) :
    Placed { s with
      procs := insert child s.procs
      attachments := update s.attachments child m
      space := update s.space child space
      nextSpace := next
      mapped } := by
  have hold : ∀ pid ∈ s.procs, update s.space child space pid = s.space pid ∧
      update s.attachments child m pid = s.attachments pid := by
    intro pid hpid
    have hne : pid ≠ child := fun hsame => hchild (hsame ▸ hpid)
    exact ⟨update_of_ne hne .., update_of_ne hne ..⟩
  refine ⟨fun pid hpid => ?_, fun pid hpid => ?_, fun pid₁ h₁ pid₂ h₂ hsame hne => ?_,
    fun pid hpid => ?_⟩
  · dsimp only
    rcases Finset.mem_insert.mp hpid with rfl | hmem
    · rw [update_self, update_self]
      exact hlays
    · rw [(hold pid hmem).1, (hold pid hmem).2, hmapped pid hmem]
      exact h.lays pid hmem
  · have hne : pid ≠ child := fun hsame => hpid (hsame ▸ mem_insert_self ..)
    exact (update_of_ne hne ..).trans (h.absent pid fun hmem => hpid (mem_insert_of_mem hmem))
  · dsimp only at hsame ⊢
    rcases Finset.mem_insert.mp h₁ with rfl | hfirst <;>
      rcases Finset.mem_insert.mp h₂ with rfl | hsecond
    · exact absurd rfl hne
    · rw [update_self, (hold pid₂ hsecond).1] at hsame
      rw [update_self]
      exact (hshare pid₂ hsecond hsame).2
    · rw [update_self, (hold pid₁ hfirst).1] at hsame
      rw [(hold pid₁ hfirst).2]
      exact (hshare pid₁ hfirst hsame.symm).1
    · rw [(hold pid₁ hfirst).1, (hold pid₂ hsecond).1] at hsame
      rw [(hold pid₁ hfirst).2]
      exact h.alone pid₁ hfirst pid₂ hsecond hsame hne
  · dsimp only
    rcases Finset.mem_insert.mp hpid with rfl | hmem
    · rw [update_self]
      exact hspace
    · rw [(hold pid hmem).1]
      exact (h.space_lt pid hmem).trans_le hnext

/-- A process and its records are gone. -/
theorem exited (pid : Nat) : Placed { s with
      procs := s.procs.erase pid
      attachments := update s.attachments pid .empty } := by
  have hold : ∀ pid' ∈ s.procs.erase pid, pid' ∈ s.procs ∧
      update s.attachments pid .empty pid' = s.attachments pid' := fun pid' hpid' =>
    ⟨mem_of_mem_erase hpid', update_of_ne (ne_of_mem_erase hpid') ..⟩
  refine ⟨fun pid' hpid' => ?_, fun pid' hpid' => ?_, fun pid₁ h₁ pid₂ h₂ hsame hne => ?_,
    fun pid' hpid' => h.space_lt pid' (hold pid' hpid').1⟩
  · dsimp only
    rw [(hold pid' hpid').2]
    exact h.lays pid' (hold pid' hpid').1
  · by_cases hsame : pid' = pid
    · rw [hsame]
      exact update_self ..
    · refine (update_of_ne hsame ..).trans (h.absent pid' fun hmem => hpid' ?_)
      exact mem_erase.mpr ⟨hsame, hmem⟩
  · dsimp only
    rw [(hold pid₁ h₁).2]
    exact h.alone pid₁ (hold pid₁ h₁).1 pid₂ (hold pid₂ h₂).1 hsame hne

/-- Nothing but segments changes. -/
theorem congr (hsame : s' = { s with
      registry := s'.registry
      released := s'.released
      underflow := s'.underflow }) : s'.Placed := by
  rw [hsame]
  exact ⟨h.lays, h.absent, h.alone, h.space_lt⟩

end Placed

/-! ## Calls -/

/-- What holds between two calls. -/
structure Sound (s : ShmState) : Prop where
  balanced : s.Balanced []
  placed : s.Placed
  sized : s.Sized

/-- The process shares its address space with another one. -/
def Shares (s : ShmState) (pid : Nat) : Prop :=
  ∃ pid' ∈ s.procs, pid' ≠ pid ∧ s.space pid' = s.space pid
deriving Decidable

/-- A process in a shared address space attaches nothing, a `shmat` that replaces mappings overlaps
no attachment of the process, and a process with attachments neither executes a new program nor
shares its address space with a child. -/
def Careful (s : ShmState) : ShmOp → Prop
  | .shmat pid shmid shmaddr shmflg _ _ _ => ¬ s.Shares pid ∧
    match s.registry shmid, attachAddr shmaddr shmflg with
    | some seg, .ok (target, .replace) =>
      ∀ att ∈ (s.attachments pid).values, overlaps target seg.size att = false
    | _, _ => True
  | .fork parent _ share => share = true → s.attachments parent = .empty
  | .exec pid _ => s.attachments pid = .empty
  | _ => True

instance (s : ShmState) : (op : ShmOp) → Decidable (s.Careful op)
  | .shmat .. => by
    dsimp only [Careful]
    refine @instDecidableAnd _ _ _ ?_
    split <;> infer_instance
  | .fork parent _ share => inferInstanceAs (Decidable (share = true → s.attachments parent = .empty))
  | .exec pid _ => inferInstanceAs (Decidable (s.attachments pid = .empty))
  | .create .. | .shmdt .. | .rmid .. | .exit .. => .isTrue trivial

namespace Sound

variable (h : s.Sound) {seg : ShmSegment} {shmaddr : Nat}

include h

theorem attach (hpid : pid ∈ s.procs) (halone : ¬ s.Shares pid)
    (hseg : s.registry att.shmid = some seg) (hsize : att.size = seg.size)
    (hapart : ∀ addr' att', (s.attachments pid).get? addr' = some att' → ∀ page,
      att'.covers page = true → att.covers page = false) : (s.attach pid att).Sound := by
  have hpages : 0 < att.size / pageSize := by
    rw [hsize]
    exact h.sized _ seg hseg
  have hlays := h.placed.lays pid hpid
  have hfree := hlays.get?_eq_none hpages hapart
  have hcounted := h.balanced.attached (Option.ne_none_iff_exists'.mpr ⟨seg, hseg⟩)
  have hplaced := h.placed.changed (hlays.insert hpages hapart) hpid fun pid' hpid' hspace => by
    by_contra hne
    exact halone ⟨pid', hpid', hne, hspace⟩
  simp only [ShmState.attach, countAttach, mapPages, setAttachments, hseg] at hcounted ⊢
  -- The record that was counted besides is in the table.
  refine ⟨hcounted.moved rfl rfl rfl fun shmid => ?_, hplaced.congr rfl,
    h.sized.writeBack hseg rfl rfl⟩
  have hsum := @records_setAttachments (s.mapPages pid att.addr att.size) pid
    ((s.attachments pid).insert att.addr att) hpid shmid
  rw [naming_insert hfree, naming_cons, ← Nat.add_assoc, Nat.add_right_comm] at hsum
  rw [naming_cons, naming_nil, Nat.zero_add]
  exact Nat.add_right_cancel hsum

theorem shmAt {shmflg chosen : Nat} {cred : Ucred} {refused : Option Errno}
    (hpid : pid ∈ s.procs)
    (hcareful : s.Careful (.shmat pid shmid shmaddr shmflg cred chosen refused))
    (hstep : s.shmAt pid shmid shmaddr shmflg cred chosen refused = some s') : s'.Sound := by
  unfold ShmState.shmAt at hstep
  dsimp only [Careful] at hcareful
  obtain ⟨halone, hcareful⟩ := hcareful
  cases hseg : s.registry shmid with
  | none =>
    rw [hseg] at hstep
    cases hstep
    exact h
  | some seg =>
    rw [hseg] at hstep hcareful
    dsimp only at hstep
    split at hstep
    next target mode hcheck haddr =>
      rw [haddr] at hcareful
      split at hstep
      · cases hstep
      · cases hstep
        exact h
      next addr hmmap =>
        cases hstep
        refine h.attach hpid halone hseg rfl ?_
        intro addr' att' hatt' page hpage
        unfold mmapBacked at hmmap
        cases refused with
        | some e => cases hmmap
        | none =>
          cases mode with
          | replace =>
            dsimp only at hmmap hcareful
            split_ifs at hmmap
            · cases hmmap
              have hmem : att' ∈ (s.attachments pid).values :=
                mem_map.mpr ⟨_, get?_eq_some.mp hatt', rfl⟩
              exact not_covers_of_not_overlaps (hcareful att' hmem) hpage
            · cases hmmap
          | noReplace =>
            dsimp only at hmmap
            split_ifs at hmmap with hcap hfree
            · cases hmmap
            · cases hmmap
              exact h.placed.apart_of_free hpid hfree hatt' hpage
            · cases hmmap
          | anywhere =>
            dsimp only at hmmap
            split_ifs at hmmap with hfree
            cases hmmap
            exact h.placed.apart_of_free hpid hfree.2 hatt' hpage
    · cases hstep
      exact h

theorem shmDt (hpid : pid ∈ s.procs) : (s.shmDt pid shmaddr).Sound := by
  unfold ShmState.shmDt
  split_ifs
  · exact h
  cases hatt : (s.attachments pid).get? shmaddr with
  | none => exact h
  | some att =>
    dsimp only
    -- A process with a record has its address space to itself.
    have hplaced := h.placed.changed ((h.placed.lays pid hpid).erase hatt) hpid
      fun pid' hpid' hspace => by
        by_contra hne
        rw [h.placed.alone pid hpid pid' hpid' hspace hne] at hatt
        cases hatt
    generalize ht : (s.setAttachments pid ((s.attachments pid).erase shmaddr)).unmapPages pid
      att.addr att.size = t
    have hregistry : t.registry = s.registry := by rw [← ht]; rfl
    have hbalanced : t.Balanced [att] := by
      refine h.balanced.moved hregistry (by rw [← ht]; rfl) (by rw [← ht]; rfl) ?_
      intro shmid
      have hsum := @records_setAttachments s pid ((s.attachments pid).erase shmaddr) hpid shmid
      have hsame : t.records shmid =
          (s.setAttachments pid ((s.attachments pid).erase shmaddr)).records shmid := by
        rw [← ht]
        rfl
      rw [naming_erase hatt, naming_cons] at hsum
      rw [hsame, naming_cons]
      omega
    obtain ⟨registry, released, underflow, hframe⟩ := countDetach_frame t att.shmid
    refine ⟨hbalanced.detached, ?_, (h.sized.congr hregistry).countDetach att.shmid⟩
    rw [hframe, ← ht]
    exact hplaced.congr rfl

theorem shmRmid (shmid : Int) (cred : Ucred) : (s.shmRmid shmid cred).Sound := by
  unfold ShmState.shmRmid
  cases hseg : s.registry shmid with
  | none => exact h
  | some seg =>
    have hcounted := h.balanced.counted shmid seg hseg
    dsimp only
    split
    · exact h
    split_ifs with hzero
    · refine ⟨h.balanced.write rfl (hcounted.symm.trans hzero) (fun _ _ => rfl)
        (forall_mem_cons.mpr ⟨⟨rfl, hzero⟩, h.balanced.released⟩) rfl,
        h.placed.congr rfl, h.sized.write rfl nofun⟩
    · exact ⟨h.balanced.write rfl ⟨hcounted, fun _ => hcounted ▸ hzero⟩ (fun _ _ => rfl)
        h.balanced.released rfl, h.placed.congr rfl, h.sized.writeBack hseg rfl rfl⟩

/-- A new segment under a free id. -/
theorem create (hfree : s.registry shmid = none)
    (hsize : 0 < seg.size / pageSize) (hnattch : seg.nattch = 0)
    (hmarked : seg.markedForDeletion = false) : (s.setSegment shmid seg).Sound := by
  have hzero : s.records shmid + naming shmid [] = 0 :=
    Nat.add_eq_zero_iff.mpr (h.balanced.known shmid hfree)
  refine ⟨h.balanced.write rfl ⟨hnattch.trans hzero.symm, fun hyes => ?_⟩ (fun _ _ => rfl)
    h.balanced.released rfl, h.placed.congr rfl, h.sized.write rfl ?_⟩
  · rw [hmarked] at hyes
    cases hyes
  · rintro _ ⟨⟩
    exact hsize

theorem forkSpace {parent child : Nat} {share : Bool} (hparent : parent ∈ s.procs)
    (hchild : child ∉ s.procs) (hcareful : share = true → s.attachments parent = .empty) :
    Placed { s.forkSpace parent child share with
      procs := insert child s.procs
      attachments := update s.attachments child (s.attachments parent) } := by
  cases share with
  | true =>
    have hempty := hcareful rfl
    refine h.placed.joined hchild ?_ (fun _ _ => rfl) le_rfl (h.placed.space_lt parent hparent) ?_
    · exact h.placed.lays parent hparent
    · intro pid hpid hspace
      by_cases hsame : pid = parent
      · rw [hsame]
        exact ⟨hempty, hempty⟩
      · exact ⟨h.placed.alone pid hpid parent hparent hspace.symm (Ne.symm hsame), hempty⟩
  | false =>
    refine h.placed.joined hchild ?_ (fun pid hpid => ?_) (Nat.le_succ _) (Nat.lt_succ_self _) ?_
    · have hpages : (s.forkSpace parent child false).mapped s.nextSpace = s.mapped (s.space parent) :=
        update_self ..
      rw [hpages]
      exact h.placed.lays parent hparent
    · exact update_of_ne (h.placed.space_lt pid hpid).ne ..
    · exact fun pid hpid hspace => absurd hspace (h.placed.space_lt pid hpid).ne

theorem fork {parent child : Nat} {share : Bool} (hparent : parent ∈ s.procs)
    (hchild : child ∉ s.procs) (hcareful : share = true → s.attachments parent = .empty) :
    Sound { (s.forkSpace parent child share).onProcFork parent child with
      procs := insert child s.procs } := by
  have hplaced := h.forkSpace hparent hchild hcareful
  obtain ⟨space, nextSpace, mapped, hspaces⟩ : ∃ space nextSpace mapped,
      s.forkSpace parent child share = { s with space, nextSpace, mapped } := by
    unfold ShmState.forkSpace
    split_ifs <;> exact ⟨_, _, _, rfl⟩
  rw [hspaces] at hplaced ⊢
  have hbalanced : Balanced { s with space, nextSpace, mapped } [] :=
    h.balanced.moved rfl rfl rfl fun _ => rfl
  have hall := hbalanced.attachedAll fun att hatt => h.balanced.named hparent hatt
  have hsized := Sized.countAttachAll (s := { s with space, nextSpace, mapped }) h.sized
    (s.attachments parent).values
  obtain ⟨registry, hframe⟩ := foldl_countAttach_frame { s with space, nextSpace, mapped }
    (s.attachments parent).values
  unfold onProcFork
  dsimp only at hall hsized hframe ⊢
  rw [hframe] at hall hsized ⊢
  refine ⟨hall.moved rfl rfl rfl ?_, hplaced.congr rfl, hsized⟩
  intro shmid
  have hothers : ∑ pid ∈ s.procs,
      (update s.attachments child (s.attachments parent) pid).values.countP
        (·.shmid = shmid) = s.records shmid := by
    refine sum_congr rfl fun pid hpid => ?_
    rw [update_of_ne]
    rintro rfl
    exact hchild hpid
  have hreverse : naming shmid ((s.attachments parent).values.reverse ++ []) =
      naming shmid (s.attachments parent).values := by
    rw [append_nil]
    exact countP_reverse
  rw [hreverse, naming_nil]
  change ∑ pid ∈ insert child s.procs, _ = s.records shmid + _
  rw [sum_insert hchild]
  dsimp only [setAttachments]
  rw [hothers, update_self]
  exact Nat.add_comm ..

theorem exit (hpid : pid ∈ s.procs) :
    Sound { s.onProcExit pid with procs := s.procs.erase pid } := by
  unfold onProcExit
  have hbalanced : (s.setAttachments pid .empty).Balanced ((s.attachments pid).values ++ []) := by
    refine h.balanced.moved rfl rfl rfl ?_
    intro shmid
    have hsum := @records_setAttachments s pid .empty hpid shmid
    rw [append_nil]
    exact hsum
  have hall := hbalanced.detachedAll
  have hsized : (s.setAttachments pid .empty).Sized := h.sized
  have hsized := hsized.countDetachAll (s.attachments pid).values
  obtain ⟨registry, released, underflow, hframe⟩ :=
    foldl_countDetach_frame (s.setAttachments pid .empty) (s.attachments pid).values
  rw [hframe] at hall hsized ⊢
  refine ⟨hall.moved rfl rfl rfl fun shmid => ?_, (h.placed.exited pid).congr rfl, hsized⟩
  have hempty : update s.attachments pid .empty pid = .empty := update_self ..
  have hsum := sum_erase s.procs (a := pid)
    (f := fun pid' => (update s.attachments pid .empty pid').values.countP (·.shmid = shmid))
    (by rw [hempty]; rfl)
  unfold records setAttachments
  exact congrArg (· + _) hsum

theorem step {op : ShmOp} (hcareful : s.Careful op) (hstep : ShmState.step s op = .ok s') :
    s'.Sound := by
  cases op <;> dsimp only [ShmState.step] at hstep
  case create shmid size perm =>
    split_ifs at hstep with hok
    cases hstep
    refine h.create hok.2.1 ?_ rfl rfl
    have hmin : 1 ≤ size := hok.2.2.1
    dsimp only
    unfold pageSize
    omega
  case shmat pid shmid shmaddr shmflg cred chosen refused =>
    split_ifs at hstep with hpid
    split at hstep
    next t hat =>
      cases hstep
      exact h.shmAt hpid hcareful hat
    · cases hstep
  case shmdt pid shmaddr =>
    split_ifs at hstep with hpid
    cases hstep
    exact h.shmDt hpid
  case rmid shmid cred =>
    cases hstep
    exact h.shmRmid shmid cred
  case fork parent child share =>
    split_ifs at hstep with hprocs
    cases hstep
    exact h.fork hprocs.1 hprocs.2 hcareful
  case exec pid image =>
    split_ifs at hstep with hpid
    cases hstep
    have hsame : update s.attachments pid .empty = s.attachments := by
      rw [← hcareful, update_eq_self]
    have hother : ∀ pid' ∈ s.procs.erase pid, s.space pid' ≠ s.nextSpace :=
      fun pid' hpid' => (h.placed.space_lt pid' (mem_of_mem_erase hpid')).ne
    have hpages : ∀ pid' ∈ s.procs.erase pid,
        update s.mapped s.nextSpace image (s.space pid') = s.mapped (s.space pid') :=
      fun pid' hpid' => update_of_ne (hother pid' hpid') ..
    have hplaced := (h.placed.exited pid).joined (notMem_erase pid s.procs) (lays_empty _) hpages
      (Nat.le_succ _) (Nat.lt_succ_self _)
      fun pid' hpid' hspace => absurd hspace (hother pid' hpid')
    rw [insert_erase hpid, update_idem] at hplaced
    refine ⟨h.balanced.moved rfl rfl rfl ?_, hplaced.congr rfl, h.sized⟩
    intro shmid
    rw [records_congr (s := s)]
    · rfl
    · exact hsame
  case exit pid =>
    split_ifs at hstep with hpid
    cases hstep
    exact h.exit hpid

end Sound

theorem sound_initial : initial.Sound where
  balanced :=
    { counted := nofun
      known := fun _ _ => ⟨rfl, rfl⟩
      kept := nofun
      released := nofun
      sound := rfl }
  placed :=
    { lays := fun _ _ => lays_empty _
      absent := fun _ _ => rfl
      alone := fun _ _ _ _ _ _ => rfl
      space_lt := fun _ _ => Nat.zero_lt_one }
  sized := nofun

/-- In every run in which no `shmat` replaces a part of an attachment or is made in a shared address
space, and no process with attachments executes a new program or shares its address space with a
child: a count is the number of records that name the segment, no
record names a released segment, no count goes below 0, a segment that is marked and has no
attachments is released, and only such segments are. -/
theorem counted_of_visits (h : Visits ShmState.step Careful initial s) :
    (∀ shmid seg, s.registry shmid = some seg → seg.nattch = s.records shmid) ∧
    (∀ shmid, s.registry shmid = none → s.records shmid = 0) ∧ s.underflow = false ∧
    (∀ shmid seg, s.registry shmid = some seg → ¬(seg.markedForDeletion = true ∧ seg.nattch = 0)) ∧
    ∀ seg ∈ s.released, seg.markedForDeletion = true ∧ seg.nattch = 0 := by
  have hsound : s.Sound :=
    h.invariant (I := Sound) sound_initial fun _ _ _ hs hcareful hstep => hs.step hcareful hstep
  have hbalanced := hsound.balanced
  exact ⟨hbalanced.counted, fun shmid hnone => (hbalanced.known shmid hnone).1, hbalanced.sound,
    fun shmid seg hseg hboth => hbalanced.kept shmid seg hseg hboth.1 hboth.2,
    hbalanced.released⟩

/-- Root attaches a segment at an address, with flags. -/
def attachAt (pid : Nat) (shmid : Int) (shmaddr shmflg : Nat) : ShmOp :=
  .shmat pid shmid shmaddr shmflg ⟨0, 0⟩ 0 none

def newSegment (shmid : Int) : ShmOp := .create shmid 1 (.new 0 ⟨0, 0⟩ 0o600)

/-- The count and the records of a segment. -/
def countOf (s : ShmState) (shmid : Int) : Option Nat × Nat :=
  ((s.registry shmid).map ShmSegment.nattch, s.records shmid)

/-- A process that has no attachments yet has a child in its address space for a while. Then a
segment is attached, inherited by a child and marked. It is released when both processes have let
go of it. -/
theorem counted_inherited : ∃ s, Visits ShmState.step Careful initial s ∧
    s.countOf 5 = (none, 0) ∧ s.released.length = 1 ∧ s.underflow = false := by
  obtain ⟨s, hs, hcount, hreleased⟩ := exists_visits step Careful initial
    [newSegment 5, .fork 1 2 true, .exit 2, attachAt 1 5 0x200000 0, .fork 1 2 false,
      .rmid 5 ⟨0, 0⟩, .exit 2, .shmdt 1 0x200000]
    (fun s => s.countOf 5 = (none, 0) ∧ s.released.length = 1) (by decide)
  exact ⟨s, hs, hcount, hreleased, (counted_of_visits hs).2.2.1⟩

/-- A segment is attached over another one with `SHM_REMAP`, or a process with an attachment
executes a new program: the record is gone and the count stays, also after the segment was
marked and the process has ended. -/
theorem not_counted : (Base.run ShmState.step initial
      [newSegment 5, newSegment 6, attachAt 1 5 0x200000 0, attachAt 1 6 0x200000 shmRemap,
        .rmid 5 ⟨0, 0⟩, .exit 1]).map
      (fun s => (s.countOf 5, s.released.length)) = .ok ((some 1, 0), 0) ∧
    (Base.run ShmState.step initial
      [newSegment 5, attachAt 1 5 0x200000 0, .exec 1 fun _ => false, .rmid 5 ⟨0, 0⟩, .exit 1]).map
      (fun s => (s.countOf 5, s.released.length)) = .ok ((some 1, 0), 0) := by
  constructor <;> decide

end ShmState

end Petra.Ipc.Shm
