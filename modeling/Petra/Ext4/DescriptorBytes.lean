import Petra.Ext4.AllocatorRuns

/-! # The bytes of a descriptor

A descriptor is decoded, its counts are changed, and it is written back as a whole. The bytes
that no field decodes do not come back.
-/

namespace Petra.Ext4

open Base List Nat
open Call (Ensures Keeps)

namespace BgTable

variable {t₀ t : BgTable} {d : BgDesc} {b : Bytes} {descSize n lo hi g k : Nat}

/-! ### Bytes that come back -/

/-- Byte `k` of a descriptor is in a field that is decoded. -/
def Decoded (descSize k : Nat) : Prop :=
  k < 18 ∨ if b64DescSize ≤ descSize then (32 ≤ k ∧ k < 50) ∨ (60 ≤ k ∧ k < 64)
    else 30 ≤ k ∧ k < 32
  deriving Decidable

/-- Byte `k` is in a count of free blocks or inodes, or in a checksum. -/
def Counting (descSize k : Nat) : Prop :=
  (12 ≤ k ∧ k < 16) ∨ (24 ≤ k ∧ k < 28) ∨
    if b64DescSize ≤ descSize then (44 ≤ k ∧ k < 48) ∨ (56 ≤ k ∧ k < 64) else 30 ≤ k ∧ k < 32
  deriving Decidable

theorem halves_mod (hi : Nat) (h : lo + n ≤ b.length) :
    halves b descSize n lo hi % 256 ^ n = leAt b lo n := by
  have hpow : 256 ^ n = 2 ^ (8 * n) := by rw [Nat.pow_mul]
  rw [halves, joinHalves, hpow, add_mul_mod_self_left, fieldOr0, if_pos h, ← hpow]
  exact mod_eq_of_lt (leAt_lt _ _ _)

theorem halves_div (hlarge : b64DescSize ≤ descSize) (h : hi + n ≤ b.length) :
    halves b descSize n lo hi / 2 ^ (8 * n) % 256 ^ n = leAt b hi n := by
  rw [halves, joinHalves, if_pos hlarge, Nat.add_mul_div_left _ _ (Nat.two_pow_pos _),
    Nat.div_eq_of_lt (fieldOr0_lt b lo n), Nat.zero_add, fieldOr0, if_pos h]
  exact Nat.mod_eq_of_lt (leAt_lt _ _ _)

/-- A descriptor with other counts and another checksum. -/
def recounted (d : BgDesc) (blocks inodes sum : Nat) : BgDesc :=
  { d with freeBlocksCount := blocks, freeInodesCount := inodes, checksum := sum }

theorem getD_encode {blocks inodes sum : Nat} (hb : b.length = descSize) (hsize : 32 ≤ descSize)
    (hk : ¬ Counting descSize k) (hblank : ¬ Decoded descSize k → b.getD k 0 = 0)
    (hd : d = recounted (parseDesc b descSize) blocks inodes sum) :
    (encode descSize d).getD k 0 = b.getD k 0 := by
  have hfield : ∀ f ∈ fields descSize d, f.value % 256 ^ f.size = leAt b f.off f.size →
      f.off ≤ k → k < f.off + f.size → (encode descSize d).getD k 0 = b.getD k 0 := by
    intro f hf hvalue
    apply getD_of_leAt
    rw [encode, leAt_putFields hf (fields_apart _ _) (by simpa using fields_inside hsize f hf), hvalue]
  unfold Counting b64DescSize at hk
  by_cases hlow : k < 18
  · subst hd
    rcases (by omega : k < 4 ∨ 4 ≤ k ∧ k < 8 ∨ 8 ≤ k ∧ k < 12 ∨ 16 ≤ k) with h | h | h | h
    · exact hfield _ (mem_fields_low (mem_of_getElem? (i := 0) rfl))
        (halves_mod 32 (by omega)) (zero_le _) h
    · exact hfield _ (mem_fields_low (mem_of_getElem? (i := 1) rfl))
        (halves_mod 36 (by omega)) h.1 h.2
    · exact hfield _ (mem_fields_low (mem_of_getElem? (i := 2) rfl))
        (halves_mod 40 (by omega)) h.1 h.2
    · exact hfield _ (mem_fields_low (mem_of_getElem? (i := 5) rfl))
        (halves_mod 48 (by omega)) h hlow
  by_cases hhigh : 64 ≤ descSize ∧ 32 ≤ k ∧ k < 50
  · subst hd
    obtain ⟨hlarge, hhigh⟩ := hhigh
    rw [if_pos hlarge] at hk
    rcases (by omega : k < 36 ∨ 36 ≤ k ∧ k < 40 ∨ 40 ≤ k ∧ k < 44 ∨ 48 ≤ k) with h | h | h | h
    · exact hfield _ (mem_fields_high hlarge (mem_of_getElem? (i := 0) rfl))
        (halves_div hlarge (by omega)) hhigh.1 h
    · exact hfield _ (mem_fields_high hlarge (mem_of_getElem? (i := 1) rfl))
        (halves_div hlarge (by omega)) h.1 h.2
    · exact hfield _ (mem_fields_high hlarge (mem_of_getElem? (i := 2) rfl))
        (halves_div hlarge (by omega)) h.1 h.2
    · exact hfield _ (mem_fields_high hlarge (mem_of_getElem? (i := 5) rfl))
        (halves_div hlarge (by omega)) h hhigh.2
  -- no field has the byte, and a descriptor is encoded into zeros
  have hnone : ¬ Decoded descSize k := by
    unfold Decoded b64DescSize
    split_ifs at hk ⊢ <;> omega
  rw [hblank hnone, encode, getD_putFields_outside]
  · simp
  unfold fields lowFields highFields b64DescSize
  split_ifs at hk ⊢
  · simp
    omega
  · simp
    omega

/-! ### Tables -/

theorem slot_eq_ok {p : Nat × Nat} (h : t.slot g = .ok p) :
    p = (t.blockOf g, t.offsetOf g) ∧ t.blockOf g < t.rawJump.length ∧
      t.offsetOf g + t.descSize ≤ (t.rawJump.getD (t.blockOf g) []).length := by
  unfold slot at h
  dsimp only at h
  split at h
  · cases h
  next blk hblk =>
    split_ifs at h with hfits
    cases h
    refine ⟨rfl, (List.getElem?_eq_some_iff.mp hblk).1, ?_⟩
    rwa [blockOf, offsetOf, perBlock, getD_eq_getElem?_getD, hblk]

/-- Descriptor bytes other than counts and checksums are the same. -/
structure Framed (t t' : BgTable) : Prop where
  count : t'.count = t.count
  descSize : t'.descSize = t.descSize
  bytes : ∀ g < t.count, ∀ k < t.descSize, ¬ Counting t.descSize k →
    (t'.slotBytes g).getD k 0 = (t.slotBytes g).getD k 0

/-- The bytes that are not decoded are zero. -/
def Blank (t : BgTable) : Prop :=
  ∀ g < t.count, ∀ k < t.descSize, ¬ Decoded t.descSize k → ¬ Counting t.descSize k →
    (t.slotBytes g).getD k 0 = 0

instance (t : BgTable) : Decidable t.Blank :=
  inferInstanceAs (Decidable (∀ g < _, ∀ k < _, ¬ Decoded _ k → ¬ Counting _ k → _ = _))

theorem ensures_updateDesc (h : Framed t₀ t) (hblank : t₀.Blank) (g blocks inodes sum : Nat) :
    (updateDesc g (recounted (t.descAt g) blocks inodes sum)).Ensures (· = t)
      (fun _ => Framed t₀) (fun _ => True) := by
  apply Ensures.get
  rintro s rfl
  refine Ensures.check (fun s' hs' => hs' ▸ h) fun _ => ?_
  apply Ensures.orAbort fun _ _ _ _ => trivial
  intro d hd
  obtain ⟨_, hserialized, ⟨⟩⟩ := ok_of_bind hd
  have hsize : 32 ≤ s.descSize := by
    by_contra hsmall
    rw [serializeDesc, if_neg hsmall] at hserialized
    cases hserialized
  apply Ensures.orAbort fun _ _ _ _ => trivial
  intro bytes hbytes
  rw [serializeDesc, if_pos hsize] at hbytes
  cases hbytes
  apply Ensures.orAbort fun _ _ _ _ => trivial
  intro p hp
  obtain ⟨rfl, hin, hfits⟩ := slot_eq_ok hp
  apply Ensures.set_pure
  refine ⟨h.count, h.descSize, fun g' hg' k hsmall hk => ?_⟩
  rw [← h.bytes g' hg' k hsmall hk]
  by_cases hne : g' = g
  · subst hne
    rw [slotBytes_patchSlot_self hin hfits (length_encode _ _)]
    refine getD_encode (length_slice hfits) hsize (h.descSize ▸ hk) (fun hnone => ?_) rfl
    exact (h.bytes g' hg' k hsmall hk).trans (hblank g' hg' k hsmall (h.descSize ▸ hnone) hk)
  · exact congrArg (getD · k 0) (slotBytes_patchSlot_other hne
      (le_of_eq ((zero_add _).trans (length_encode _ _))))

end BgTable

namespace AllocIo

open BgTable

/-! ### Calls -/

/-- There are no checksums of bitmaps, and descriptors are as in the table `t₀` but for their
counts and checksums. -/
structure Unsummed (t₀ : BgTable) (io : AllocIo) : Prop where
  framed : Framed t₀ io.bgt
  noSums : io.sb.hasMetadataCsum = false

variable {t₀ : BgTable} {io io₀ : AllocIo} {α : Type}

abbrev Unsums (t₀ : BgTable) (call : AllocCall α) : Prop :=
  call.Keeps (Unsummed t₀) fun _ => True

theorem ensures_onTable {call : TableCall α} {Q : Except Errno α → AllocIo → Prop}
    (h : call.Ensures (fun t => t = io.bgt) (fun r t => Q r { io with bgt := t }) fun _ => True) :
    (onTable call).Ensures (· = io) Q fun _ => True := by
  rintro s rfl
  have hcall := h s.bgt rfl
  unfold onTable
  cases hrun : call s.bgt with
  | error p => trivial
  | ok out => rwa [hrun] at hcall

theorem keeps_desc {f : BgDesc → AllocCall α} (g : Nat) (h : ∀ io, Unsummed t₀ io →
      (f (io.bgt.descAt g)).Ensures (· = io) (fun _ => Unsummed t₀) fun _ => True) :
    Unsums t₀ (onTable (desc g) >>= f) := by
  apply Ensures.of_forall
  intro io hio
  refine Ensures.bind (R := fun d s => d = io.bgt.descAt g ∧ s = io) (ensures_onTable ?_) ?_
  · apply Ensures.get
    rintro t rfl
    refine Ensures.check ?_ fun _ => ?_
    · rintro t rfl
      exact hio
    apply Ensures.orAbort fun _ _ _ _ => trivial
    intro p hp
    obtain ⟨rfl, _, _⟩ := slot_eq_ok hp
    apply Ensures.pure
    rintro t rfl
    exact ⟨rfl, rfl⟩
  · rintro d s ⟨rfl, rfl⟩
    exact h s hio s rfl

theorem keeps_onSuper {f : SuperBlock → SuperBlock}
    (hf : ∀ sb, (f sb).hasMetadataCsum = sb.hasMetadataCsum) :
    Unsums t₀ (onSuper f) :=
  fun s hs => ⟨hs.framed, (hf s.sb).trans hs.noSums⟩

theorem hasMetadataCsum_recompute (sb : SuperBlock) :
    sb.recomputeSbChecksum.hasMetadataCsum = sb.hasMetadataCsum := by
  obtain ⟨raw, hraw⟩ := SuperBlock.recomputeSbChecksum_eq sb
  rw [hraw]
  rfl

section Blank

variable (hblank : t₀.Blank)

include hblank

/-- Without checksums only the descriptor is written, with other counts. -/
theorem ensures_store (hio : Unsummed t₀ io) (blk : Nat) (bm summed : Bytes)
    (patchCsum : UInt32 → Bool → TableCall Unit) (g blocks inodes : Nat) :
    (do
      storeBitmap blk bm summed patchCsum
      let _ ← onTable (updateDesc g
        (recounted (io.bgt.descAt g) blocks inodes (io.bgt.descAt g).checksum))
      pure () : AllocCall Unit).Ensures (· = io) (fun _ => Unsummed t₀) fun _ => True := by
  refine Ensures.bind (R := fun _ s => s = { io with blocks := Function.update io.blocks blk bm })
    ?_ fun _ => ?_
  · rintro s rfl
    have hoff : ¬ (b64DescSize ≤ s.sb.descSize ∧ s.sb.hasMetadataCsum = true) := by
      rw [hio.noSums]
      exact fun h => nomatch h.2
    rw [storeBitmap, Call.run_bind (a := ()) rfl, Call.run_bind rfl, if_neg hoff]
    rfl
  · apply Ensures.bind_keeps (ensures_onTable ?_) fun _ => Keeps.pure
    exact (ensures_updateDesc hio.framed hblank g blocks inodes _).weaken (fun _ hs => hs)
      fun _ _ ht => ⟨ht, hio.noSums⟩

theorem keeps_allocBlockIn (g : Nat) : Unsums t₀ (allocBlockIn g) := by
  apply keeps_desc
  intro io hio
  refine Ensures.ite (fun _ s hs => hs ▸ hio) fun _ => ?_
  refine Ensures.bind (R := fun _ s => s = io) (fun s hs => hs) fun bm => ?_
  apply Ensures.get
  rintro s rfl
  cases scanFree bm (s.groupBlockBits g) with
  | none => exact fun _ hs => hs ▸ hio
  | some bit =>
    refine (ensures_store hblank hio _ _ _ _ g _ _).bind_keeps fun _ => ?_
    refine Keeps.bind (keeps_onSuper ?_) fun _ => Keeps.pure
    exact fun _ => hasMetadataCsum_recompute _

theorem keeps_freeBlocksIn (b left : Nat) :
    Unsums t₀ (freeBlocksIn b left) := by
  refine Keeps.get fun _ _ => ?_
  apply Ensures.assert_any
  refine Ensures.assert_any (keeps_desc _ fun io hio => ?_)
  refine Ensures.bind (R := fun _ s => s = io) (fun s hs => hs) fun bm => ?_
  apply Ensures.assert_any
  apply Ensures.assert_any
  exact (ensures_store hblank hio _ _ _ _ _ _ _).bind_keeps fun _ => Keeps.pure

theorem keeps_freeBlocksLoop (rounds b left : Nat) :
    Unsums t₀ (freeBlocksLoop rounds b left) := by
  fun_induction freeBlocksLoop rounds b left with
  | case1 => exact Keeps.pure
  | case2 => exact Ensures.abort fun _ _ => trivial
  | case3 rounds b left ih =>
    refine (keeps_freeBlocksIn hblank b (left + 1)).bind fun take => ?_
    exact Ensures.assert_any (ih take)

theorem keeps_allocInodeIn (totalInodes g : Nat) :
    Unsums t₀ (allocInodeIn totalInodes g) := by
  apply keeps_desc
  intro io hio
  refine Ensures.ite (fun _ s hs => hs ▸ hio) fun _ => ?_
  refine Ensures.bind (R := fun _ s => s = io) (fun s hs => hs) fun bm => ?_
  apply Ensures.get
  rintro s rfl
  cases scanFree bm (min s.sb.inodesPerGroup (8 * s.blockSize)) with
  | none => exact fun _ hs => hs ▸ hio
  | some bit =>
    refine Ensures.ite (fun _ s hs => hs ▸ hio) fun _ => ?_
    refine Ensures.bind_keeps (Ensures.get ?_) fun _ => ?_
    · rintro s rfl
      exact ensures_store hblank hio _ _ _ _ g _ _
    · refine Keeps.bind (keeps_onSuper ?_) fun _ => Keeps.pure
      exact fun _ => hasMetadataCsum_recompute _

theorem keeps_freeInode (ino : Nat) : Unsums t₀ (freeInode ino) := by
  refine Keeps.get fun _ _ => ?_
  apply Ensures.assert_any
  refine Ensures.assert_any (keeps_desc _ fun io hio => ?_)
  refine Ensures.bind (R := fun _ s => s = io) (fun s hs => hs) fun bm => ?_
  apply Ensures.assert_any
  apply Ensures.assert_any
  refine Ensures.bind_keeps (Ensures.get ?_) fun _ => ?_
  · rintro s rfl
    exact ensures_store hblank hio _ _ _ _ _ _ _
  · exact keeps_onSuper fun _ => hasMetadataCsum_recompute _

omit hblank in
theorem keeps_firstOf {tryGroup : Nat → AllocCall (Option α)}
    (h : ∀ g, Unsums t₀ (tryGroup g)) (gs : List Nat) :
    Unsums t₀ (firstOf tryGroup gs) := by
  induction gs with
  | nil => exact Keeps.fail
  | cons g gs ih =>
    refine (h g).bind fun answer => ?_
    cases answer with
    | none => exact ih
    | some a => exact Keeps.pure

/-! ### Runs -/

inductive Request
  | allocBlock (startGroup : Nat)
  | freeBlocks (phys len : Nat)
  | allocInode (startGroup totalInodes : Nat)
  | freeInode (ino : Nat)

def serve : Request → AllocCall Unit
  | .allocBlock startGroup => do
    let _ ← allocBlock startGroup
    pure ()
  | .freeBlocks phys len => freeBlocks phys len
  | .allocInode startGroup totalInodes => do
    let _ ← allocInode startGroup totalInodes
    pure ()
  | .freeInode ino => freeInode ino

def serveStep (io : AllocIo) (request : Request) : Except Panic AllocIo :=
  (serve request io).map Prod.snd

theorem keeps_serve (request : Request) : Unsums t₀ (serve request) := by
  cases request with
  | allocBlock startGroup =>
    refine Keeps.bind (Keeps.get fun _ _ => ?_) fun _ => Keeps.pure
    exact keeps_firstOf (keeps_allocBlockIn hblank) _
  | freeBlocks phys len =>
    refine (keeps_freeBlocksLoop hblank len phys len).bind fun _ => Keeps.get fun _ _ => ?_
    apply Ensures.assert_any
    exact keeps_onSuper fun _ => hasMetadataCsum_recompute _
  | allocInode startGroup totalInodes =>
    refine Keeps.bind (Keeps.get fun _ _ => ?_) fun _ => Keeps.pure
    exact keeps_firstOf (keeps_allocInodeIn hblank totalInodes) _
  | freeInode ino => exact keeps_freeInode hblank ino

theorem serveStep_unsummed {request : Request} {io' : AllocIo} (hio : Unsummed t₀ io)
    (hstep : serveStep io request = .ok io') : Unsummed t₀ io' := by
  obtain ⟨out, hrun, rfl⟩ := exists_of_observed hstep
  exact (keeps_serve hblank request).holds hio hrun

end Blank

/-- Where the bytes that are lost were zero and no bitmap has a checksum, a run changes counts
and checksums of descriptors only. -/
theorem framed_of_visits (hsums : io₀.sb.hasMetadataCsum = false) (hblank : io₀.bgt.Blank)
    (hrun : Visits serveStep (fun _ _ => True) io₀ io) : Framed io₀.bgt io.bgt := by
  have hstart : Unsummed io₀.bgt io₀ := ⟨⟨rfl, rfl, fun _ _ _ _ _ => rfl⟩, hsums⟩
  exact (hrun.invariant hstart fun _ _ _ hio _ hstep => serveStep_unsummed hblank hio hstep).framed

/-- A block of the first group is freed and taken again, and an inode is freed. -/
theorem framed_after_freeAndAlloc :
    ∃ io₀ io : AllocIo, mount (SuperBlock.decode twoGroups) twoGroupsBlocks = .ok io₀ ∧
      io.freeIn 0 = 0 ∧ Framed io₀.bgt io.bgt := by
  obtain ⟨io₀, hmount, _⟩ := twoGroups_mount
  obtain ⟨hsums, hblank⟩ := of_twoGroups_mount
    (fun io => io.sb.hasMetadataCsum = false ∧ io.bgt.Blank) hmount (by decide +kernel)
  have hchecked := of_twoGroups_mount (fun io =>
    ((run serveStep io [.freeBlocks 5 1, .allocBlock 0, .freeInode 3]).toOption.any
      fun io : AllocIo => decide (io.freeIn 0 = 0)) = true) hmount (by decide +kernel)
  obtain ⟨io, hrun, hend⟩ := exists_ok _ _ hchecked
  exact ⟨io₀, io, hmount, hend,
    framed_of_visits hsums hblank (.of_run .start (fun _ _ _ => trivial) hrun)⟩

/-- The first group's table of inodes is zeroed, and a flag of its descriptor says so. -/
def flaggedBlocks (b : Nat) : Bytes :=
  if b = 2 then putLe (twoGroupsBlocks 2) 18 2 4 else twoGroupsBlocks b

/-- Freeing a block clears the flag. -/
theorem flag_lost :
    ∃ io₀ io : AllocIo, mount (SuperBlock.decode twoGroups) flaggedBlocks = .ok io₀ ∧
      Visits serveStep (fun _ _ => True) io₀ io ∧ ¬ Framed io₀.bgt io.bgt := by
  have hobserved : (do
      let io₀ ← mount (SuperBlock.decode twoGroups) flaggedBlocks
      let io ← serveStep io₀ (.freeBlocks 5 1)
      .ok (decide (io₀.bgt.count = 2 ∧ io₀.bgt.descSize = 32 ∧
        (io.bgt.slotBytes 0).getD 18 0 ≠ (io₀.bgt.slotBytes 0).getD 18 0))) = .ok true := by
    decide +kernel
  obtain ⟨io₀, hmount, hrest⟩ := ok_of_bind hobserved
  obtain ⟨io, hstep, hend⟩ := ok_of_bind hrest
  obtain ⟨hcount, hsize, hbyte⟩ := of_decide_eq_true (Except.ok.inj hend)
  refine ⟨io₀, io, hmount, .next .start trivial hstep, fun h => hbyte ?_⟩
  exact h.bytes 0 (by omega) 18 (by omega) (by rw [hsize]; decide)

end AllocIo

end Petra.Ext4
