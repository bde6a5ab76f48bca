import Petra.Vm.Steps

/-! # Copy-on-write isolation

A writable entry of a private mapping is the only holder of its frame, so what is stored
through it is read back through it alone.
-/

namespace Petra.Vm

open Base Vmar List

namespace World

variable {P : Platform} {w w' : World} {mem : Frame → Nat → UInt8} {i : Nat}

/-- What a store may leave: the world as it was, or one byte changed in the frame behind a
writable entry. -/
def StoreResult (w : World) (i addr : Nat) (byte : UInt8) (w' : World) : Prop :=
  w' = w ∨ ∃ v pte, w.spaces.get? i = some v ∧
    v.vmSpace.get? (addr - addr % pageSize) = some pte ∧ pte.flags.w = true ∧
    w' = w.setMem pte.frame (fun j => if j = addr % pageSize then byte else w.mem pte.frame j)

theorem store_ensures (w : World) (i addr : Nat) (byte : UInt8) :
    (store i addr byte).Ensures (· = w) (fun _ => StoreResult w i addr byte)
      (fun _ => False) := by
  refine ensures_space (.inl rfl) ?_
  intro v hv
  cases hpte : v.vmSpace.get? (addr - addr % pageSize) with
  | none => exact Call.Ensures.fail (fun _ => .inl)
  | some pte =>
    apply Call.Ensures.ite
    · rintro hwrite t rfl
      exact .inr ⟨v, pte, hv, hpte, hwrite, rfl⟩
    · intro _
      exact Call.Ensures.fail (fun _ => .inl)

theorem store_step {addr : Nat} {byte : UInt8} (h : step P w (.store i addr byte) = .ok w') :
    StoreResult w i addr byte w' := by
  have hrun := store_ensures w i addr byte w rfl
  simp only [step, exec] at h
  cases hres : store i addr byte w with
  | error p =>
    rw [hres] at h
    cases h
  | ok out =>
    rw [hres] at h hrun
    cases h
    exact hrun

/-- A frame that only one page table entry holds. -/
theorem load_setMem {f : Frame} {bytes : Nat → UInt8} {page : Nat}
    (honly : ∀ h, w.Holds h f → h = .pte i page) :
    (∀ j ≠ i, ∀ a, (w.setMem f bytes).load P j a = w.load P j a) ∧
      ∀ object offset k, (w.setMem f bytes).objectByte P object offset k =
        w.objectByte P object offset k := by
  have hother : ∀ g ≠ f, (w.setMem f bytes).mem g = w.mem g := fun g hg => if_neg hg
  have hobject : ∀ object offset k, (w.setMem f bytes).objectByte P object offset k =
      w.objectByte P object offset k := by
    intro object offset k
    unfold objectByte
    cases hpage : w.pages.get? (toLex (object.ptr, if object.kind = .singleFrame then 0 else offset)) with
    | none => simp only [setMem, hpage]
    | some g =>
      have hg : g ≠ f := by
        rintro rfl
        have hsame := honly (.page object.ptr (if object.kind = .singleFrame then 0 else offset))
          hpage
        cases hsame
      have hpage' : (w.setMem f bytes).pages = w.pages := rfl
      simp only [hpage', hpage, hother g hg]
  refine ⟨?_, hobject⟩
  intro j hji a
  unfold load
  have hspaces : (w.setMem f bytes).spaces = w.spaces := rfl
  rw [hspaces]
  cases hv : w.spaces.get? j with
  | none => rfl
  | some v =>
    dsimp only
    cases hpte : v.vmSpace.get? (a - a % pageSize) with
    | some pte =>
      have hg : pte.frame ≠ f := by
        rintro rfl
        have hsame := honly (.pte j (a - a % pageSize)) ⟨v, pte, hv, hpte, rfl⟩
        simp only [Holder.pte.injEq] at hsame
        exact hji hsame.1
      simp only [hother _ hg]
    | none =>
      have hmapped : ∀ m offset k, (w.setMem f bytes).mappedByte P m offset k =
          w.mappedByte P m offset k := by
        intro m offset k
        unfold mappedByte
        cases m.backing <;> simp only [hobject]
      simp only [hmapped]

/-- In every state that is reached without `MREMAP_DONTUNMAP`, a writable entry of a private
mapping has a frame of its own, and a store through a private mapping changes neither what
another address space reads nor an object. -/
theorem privateStore_isolated (h : Visits (step P) (fun _ op => GivesUpOld op) (boot mem) w) :
    (∀ i v p pte, w.spaces.get? i = some v → v.vmSpace.get? p = some pte → pte.flags.w = true →
      v.PrivateAt p → w.refcount pte.frame = 1 ∧ w.zeroFrame ≠ some pte.frame) ∧
    ∀ i v addr byte w', w.spaces.get? i = some v → v.PrivateAt addr →
      step P w (.store i addr byte) = .ok w' → (∀ j, j ≠ i → ∀ a, w'.load P j a = w.load P j a) ∧
          ∀ object offset k, w'.objectByte P object offset k = w.objectByte P object offset k := by
  have hadmissible : Visits (step P) (Admissible False True) (boot mem) w :=
    h.mono (fun _ _ hop => ⟨hop.wholeRecord, False.elim, fun _ => hop⟩)
  have hsound := sound_of_visits P hadmissible
  have hexcl := hsound.exclusive trivial
  constructor
  · intro i v p pte hv hpte hwrite hpriv
    have honly := hexcl i p v pte hv hpte hwrite hpriv
    refine ⟨refcount_eq_one (h := .pte i p) ⟨v, pte, hv, hpte, rfl⟩ honly, ?_⟩
    intro hzero
    have hsame := honly .zero hzero
    cases hsame
  intro i v addr byte w' hv hpriv hstep
  rcases store_step hstep with rfl | ⟨u, pte, hu, hpte, hwrite, rfl⟩
  · exact ⟨fun _ _ _ => rfl, fun _ _ _ => rfl⟩
  rw [hv] at hu
  cases hu
  obtain ⟨a, ha, hshared⟩ := hpriv
  obtain ⟨m, hget, rfl⟩ := Option.map_eq_some_iff.mp ha
  have hpage := get_page (hsound.good i v hv).partition hget
  have hpriv : v.PrivateAt (addr - addr % pageSize) := (privateAt_iff rfl hpage).mpr hshared
  exact load_setMem (hexcl i _ v pte hv hpte hwrite hpriv)

/-! ### A store after a fork -/

/-- The first frame above all that are held. -/
def freshFrame (w : World) : Frame := (w.holders.map Prod.snd).foldr max 0 + 1

theorem le_foldr_max {l : List Nat} {n : Nat} (h : n ∈ l) : n ≤ l.foldr max 0 := by
  induction l with
  | nil => cases h
  | cons a l ih =>
    rcases mem_cons.mp h with rfl | h
    · exact le_max_left _ _
    · exact (ih h).trans (le_max_right _ _)

/-- A machine that never runs out of memory. -/
def endlessMemory : Platform where
  alloc := fun w => some w.freshFrame
  unused := by
    rintro w f hf
    cases hf
    rw [refcount_eq_zero]
    intro h hheld
    have hle := le_foldr_max (List.mem_map_of_mem (f := Prod.snd) (mem_holders.mpr hheld))
    unfold freshFrame at hle
    omega
  faultIn := fun _ _ _ _ => 0

/-- A page is written, the process forks, and the parent writes the page again. -/
def storeAfterFork : List Op :=
  [.newSpace 0, .mmapAnonymous 0 0x200000 4096 (.READ ||| .WRITE) .PRIVATE,
    .pageFault 0 0x200000 .WRITE false, .store 0 0x200000 5, .forkFrom 0,
    .pageFault 0 0x200000 .WRITE false, .store 0 0x200000 7]

theorem isolated_after_storeAfterFork :
    (run (step endlessMemory) (boot fun _ _ => 0) storeAfterFork).map
        (fun w => (w.load endlessMemory 0 0x200000, w.load endlessMemory 1 0x200000)) =
        .ok (some 7, some 5) ∧
      ∀ w, run (step endlessMemory) (boot fun _ _ => 0) storeAfterFork = .ok w →
        ∀ i v p pte, w.spaces.get? i = some v → v.vmSpace.get? p = some pte →
          pte.flags.w = true → v.PrivateAt p →
            w.refcount pte.frame = 1 ∧ w.zeroFrame ≠ some pte.frame := by
  refine ⟨rfl, fun w hrun => (privateStore_isolated (Visits.of_run .start ?_ hrun)).1⟩
  intro s op hop
  simp only [storeAfterFork, mem_cons, not_mem_nil, or_false] at hop
  rcases hop with rfl | rfl | rfl | rfl | rfl | rfl | rfl <;> trivial

end World

end Petra.Vm
