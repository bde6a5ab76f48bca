import Petra.Vm.Steps

/-! # The records of every reachable address space

As long as `mremap` keeps whole records, the records of every address space are a partition.
If its fixed new places are free as well, the running total is the sum of the lengths.
Neither condition can be dropped.
-/

namespace Petra.Vm

open Base Vmar

namespace World

/-- A machine without free memory. -/
def noMemory : Platform where
  alloc := fun _ => none
  unused := fun _ _ h => by cases h
  faultIn := fun _ _ _ _ => 0

/-- The start and the length of each record of an address space. -/
def extents (w : World) (i : Nat) : Option (List (Nat × Nat)) :=
  (w.spaces.get? i).map (fun v => v.mappings.map.entries.map (fun e => (e.1, e.2.len)))

variable {P : Platform} {w : World} {mem : Frame → Nat → UInt8} {i : Nat} {v : Vmar}

theorem extents_eq_some {l : List (Nat × Nat)} (h : w.extents i = some l) :
    ∃ v, w.spaces.get? i = some v ∧ v.mappings.totalLen = (l.map Prod.snd).sum ∧
      ∀ x ∈ l, ∃ e ∈ v.mappings.map.entries, (e.1, e.2.len) = x := by
  obtain ⟨v, hv, rfl⟩ := Option.map_eq_some_iff.mp h
  refine ⟨v, hv, ?_, fun x hx => List.mem_map.mp hx⟩
  rw [List.map_map]
  rfl

/-! ### The partition -/

/-- The records of an address space are a partition in every state that is reached while
`mremap` keeps whole records. -/
theorem partition_of_visits (h : Visits (step P) WholeRecord (boot mem) w)
    (hv : w.spaces.get? i = some v) : v.mappings.Partition := by
  have hadmissible : Visits (step P) (Admissible False False) (boot mem) w :=
    h.mono (fun _ _ hop => ⟨hop, False.elim, False.elim⟩)
  exact ((sound_of_visits P hadmissible).good i v hv).partition

/-- Map two pages, grow them to three, and unmap the first one. -/
def growAndUnmap : List Op :=
  [.newSpace 0, .mmapAnonymous 0 0 8192 .READ .PRIVATE,
    .mremap 0 140737471565824 8192 12288 .MAYMOVE none,
    .munmap 0 ⟨140737471565824, 140737471569920⟩]

theorem growAndUnmap_admissible (s : World) :
    ∀ op ∈ growAndUnmap, s.WholeRecord op ∧ s.FreePlace op := by
  have hkeeps : MremapFlags.contains .MAYMOVE .DONTUNMAP = false := by decide
  simp [growAndUnmap, WholeRecord, FreePlace, KeepsWhole, MovesToFree, hkeeps]

theorem partition_after_growAndUnmap :
    (run (step noMemory) (boot fun _ _ => 0) growAndUnmap).map (fun w => w.extents 0) =
        .ok (some [(140737471569920, 8192)]) ∧
      ∀ w v, run (step noMemory) (boot fun _ _ => 0) growAndUnmap = .ok w →
        w.spaces.get? 0 = some v → v.mappings.Partition := by
  refine ⟨rfl, fun w v hrun hv => partition_of_visits (Visits.of_run .start ?_ hrun) hv⟩
  exact fun s op hop => (growAndUnmap_admissible s op hop).1

/-- Map two pages and keep the first one while mapping it a second time. -/
def keepPart : List Op :=
  [.newSpace 0, .mmapAnonymous 0 0 8192 .READ .PRIVATE,
    .mremap 0 140737471565824 4096 4096 (.MAYMOVE ||| .DONTUNMAP) none]

/-- The second record is as long as the first, so it runs into it. -/
theorem not_partition_after_keepPart : ¬ ∀ (P : Platform) (mem : Frame → Nat → UInt8) (w : World),
      Visits (step P) (fun _ _ => True) (boot mem) w →
        ∀ i v, w.spaces.get? i = some v → v.mappings.Partition := by
  intro hall
  have hobserved : (run (step noMemory) (boot fun _ _ => 0) keepPart).map (fun w => w.extents 0) =
      .ok (some [(140737471561728, 8192), (140737471565824, 8192)]) := rfl
  obtain ⟨w, hrun, hextents⟩ := exists_of_observed hobserved
  obtain ⟨v, hv, _, hentries⟩ := extents_eq_some hextents
  have hpart := hall noMemory _ w (Visits.of_run .start (fun _ _ _ => trivial) hrun) 0 v hv
  obtain ⟨a, ha, hal⟩ := hentries (140737471561728, 8192) (by simp)
  obtain ⟨b, hb, hbl⟩ := hentries (140737471565824, 8192) (by simp)
  simp only [Prod.mk.injEq] at hal hbl
  have hkeyA := hpart.keyed a ha
  have hkeyB := hpart.keyed b hb
  have hapart := hpart.apart a ha b hb (by omega)
  unfold VmMapping.Apart VmMapping.stop at hapart
  omega

/-! ### The running total -/

/-- In every state that is reached while `mremap` keeps whole records and moves to free places,
the running total is the sum of the record lengths, and no such operation takes more off the
running total than it holds. -/
theorem totalVm_of_visits
    (h : Visits (step P) (fun w op => w.WholeRecord op ∧ w.FreePlace op) (boot mem) w) :
    (∀ i v, w.spaces.get? i = some v → v.totalVm = v.mappings.totalLen) ∧
      ∀ op, w.WholeRecord op → w.FreePlace op → step P w op ≠ .error .totalVm := by
  have hadmissible : Visits (step P) (Admissible True False) (boot mem) w :=
    h.mono (fun _ _ hop => ⟨hop.1, fun _ => hop.2, False.elim⟩)
  have hsound := sound_of_visits P hadmissible
  refine ⟨fun i v hv => (hsound.good i v hv).total trivial, ?_⟩
  intro op hwhole hfree hpanic
  have hnext := step_sound P hsound ⟨hwhole, fun _ => hfree, False.elim⟩
  rw [hpanic] at hnext
  exact hnext trivial rfl

theorem totalVm_after_growAndUnmap : (run (step noMemory) (boot fun _ _ => 0) growAndUnmap).map
        (fun w => (w.spaces.get? 0).map Vmar.totalVm) = .ok (some 8192) ∧
      ∀ w v, run (step noMemory) (boot fun _ _ => 0) growAndUnmap = .ok w →
        w.spaces.get? 0 = some v → v.totalVm = v.mappings.totalLen := by
  refine ⟨rfl, fun w v hrun hv => (totalVm_of_visits (Visits.of_run .start ?_ hrun)).1 0 v hv⟩
  exact fun s op hop => growAndUnmap_admissible s op hop

/-- Map two places and move the lower one over the upper one. -/
def moveOver : List Op :=
  [.newSpace 0, .mmapAnonymous 0 0x200000 4096 .READ .PRIVATE,
    .mmapAnonymous 0 0x300000 4096 .READ .PRIVATE,
    .mremap 0 0x200000 4096 4096 (.MAYMOVE ||| .FIXED) (some 0x300000)]

/-- One page is mapped, but the running total still counts the page that was replaced. -/
theorem totalVm_wrong_after_moveOver : ¬ ∀ (P : Platform) (mem : Frame → Nat → UInt8) (w : World),
      Visits (step P) (fun _ _ => True) (boot mem) w →
        (∀ i v, w.spaces.get? i = some v → v.totalVm = v.mappings.totalLen) ∧
          ∀ op, step P w op ≠ .error .totalVm := by
  intro hall
  have hobserved : (run (step noMemory) (boot fun _ _ => 0) moveOver).map
      (fun w => (w.extents 0, (w.spaces.get? 0).map Vmar.totalVm)) =
        .ok (some [(0x300000, 4096)], some 8192) := rfl
  obtain ⟨w, hrun, hboth⟩ := exists_of_observed hobserved
  simp only [Prod.mk.injEq] at hboth
  obtain ⟨v, hv, htotal, _⟩ := extents_eq_some hboth.1
  have hsum := (hall noMemory _ w (Visits.of_run .start (fun _ _ _ => trivial) hrun)).1 0 v hv
  have hcounted := hboth.2
  simp only [hv, Option.map_some, Option.some.injEq] at hcounted
  rw [hcounted, htotal] at hsum
  exact absurd hsum (by decide)

end World

end Petra.Vm
