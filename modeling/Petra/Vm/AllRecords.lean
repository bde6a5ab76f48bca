import Petra.Vm.Vmar

/-! # What holds of every record

Records come from other records: by cutting, by merging and by what an operation makes of a
piece. A property that survives these holds of every record of a set, whether or not the
records overlap.
-/

namespace Petra.Vm

open Base List SortedMap Option

/-- A record with the permissions, the sharing and the object of another one. -/
structure VmMapping.Like (k m : VmMapping) : Prop where
  perms : k.perms = m.perms
  shared : k.shared = m.shared
  backing : k.backing = m.backing

/-- A record cut out of another one. -/
structure VmMapping.PartOf (k m : VmMapping) : Prop extends VmMapping.Like k m where
  start_le : m.start ≤ k.start
  stop_le : k.stop ≤ m.stop
  offset_le : k.backingOffset ≤ m.backingOffset + (k.start - m.start)

namespace VmMapping

theorem Like.trans {k l m : VmMapping} (h : k.Like l) (h' : l.Like m) : k.Like m :=
  ⟨h.perms.trans h'.perms, h.shared.trans h'.shared, h.backing.trans h'.backing⟩

theorem PartOf.refl (m : VmMapping) : m.PartOf m :=
  ⟨⟨rfl, rfl, rfl⟩, le_rfl, le_rfl, Nat.le_add_right _ _⟩

theorem PartOf.trans {k l m : VmMapping} (h : k.PartOf l) (h' : l.PartOf m) : k.PartOf m := by
  have hstart := h.start_le
  have hstart' := h'.start_le
  have hoffset := h.offset_le
  have hoffset' := h'.offset_le
  exact ⟨h.toLike.trans h'.toLike, hstart'.trans hstart, h.stop_le.trans h'.stop_le, by omega⟩

theorem split_partOf {m l r : VmMapping} {pos : Nat} (h : m.split pos = .ok (l, r)) :
    l.PartOf m ∧ r.PartOf m := by
  unfold split at h
  split_ifs at h with hpos
  obtain ⟨left, hleft, h⟩ := ok_of_bind h
  obtain ⟨right, hright, h⟩ := ok_of_bind h
  obtain ⟨offset, hoffset, h⟩ := ok_of_bind h
  cases h
  obtain ⟨_, rfl⟩ := withLen_eq_ok hleft
  obtain ⟨_, rfl⟩ := withLen_eq_ok hright
  obtain ⟨rfl, _⟩ := addUsize_eq_ok hoffset
  obtain ⟨hstart, hstop, _⟩ := hpos
  refine ⟨⟨⟨rfl, rfl, rfl⟩, le_rfl, ?_, Nat.le_add_right _ _⟩,
    ⟨⟨rfl, rfl, rfl⟩, hstart.le, ?_, le_rfl⟩⟩
  all_goals
    simp only [stop]
    omega

theorem splitRange_partOf {m middle : VmMapping} {left right : Option VmMapping} {sub : Range}
    (h : m.splitRange sub = .ok (left, middle, right)) :
    middle.PartOf m ∧ ∀ k ∈ left.toList ++ right.toList, k.PartOf m := by
  unfold splitRange at h
  split_ifs at h
  · cases h
    exact ⟨PartOf.refl m, by simp⟩
  · obtain ⟨⟨l, rest⟩, hfst, h⟩ := ok_of_bind h
    obtain ⟨⟨mid, r⟩, hsnd, h⟩ := ok_of_bind h
    cases h
    obtain ⟨hl, hrest⟩ := split_partOf hfst
    obtain ⟨hmid, hr⟩ := split_partOf hsnd
    exact ⟨hmid.trans hrest, by simpa using ⟨hl, hr.trans hrest⟩⟩
  · obtain ⟨⟨l, rest⟩, hfst, h⟩ := ok_of_bind h
    cases h
    obtain ⟨hl, hrest⟩ := split_partOf hfst
    exact ⟨hrest, by simpa using hl⟩
  · obtain ⟨⟨mid, r⟩, hsnd, h⟩ := ok_of_bind h
    cases h
    obtain ⟨hmid, hr⟩ := split_partOf hsnd
    exact ⟨hmid, by simpa using hr⟩
  · cases h
    exact ⟨PartOf.refl m, by simp⟩

end VmMapping

namespace Mappings

variable {ms ms' : Mappings} {P Q : VmMapping → Prop} {τ : Type}

/-- The property holds of every record, and each record is kept under its own start. -/
structure All (Q : VmMapping → Prop) (ms : Mappings) : Prop where
  keyed : ∀ e ∈ ms.map.entries, e.1 = e.2.start
  holds : ∀ e ∈ ms.map.entries, Q e.2

/-- Merging two records with the property gives one. -/
def Merges (Q : VmMapping → Prop) : Prop :=
  ∀ l r : VmMapping, l.canMerge r = true → Q l → Q r → Q (VmMapping.merged l r)

theorem All.empty : empty.All Q := ⟨nofun, nofun⟩

theorem All.imp (h : ms.All P) (himp : ∀ m, P m → Q m) : ms.All Q :=
  ⟨h.keyed, fun e he => himp e.2 (h.holds e he)⟩

theorem All.erase (h : ms.All Q) (key : Nat) : (⟨ms.map.erase key⟩ : Mappings).All Q :=
  ⟨fun e he => h.keyed e (mem_erase.mp he).2,
    fun e he => h.holds e (mem_erase.mp he).2⟩

variable {m : VmMapping} {taken l : List VmMapping} {rest : Mappings}

theorem All.get (h : ms.All Q) {p : Nat} (hm : ms.get p = some m) : Q m := by
  obtain ⟨hfound, _⟩ := filter_eq_some_iff.mp hm
  obtain ⟨e, he, rfl⟩ := map_eq_some_iff.mp hfound
  exact h.holds e (atMost?_eq_some he).1

theorem All.get? (h : ms.All Q) {key : Nat} (hm : ms.map.get? key = some m) :
    Q m ∧ m.start = key := by
  have hmem := get?_eq_some.mp hm
  exact ⟨h.holds _ hmem, (h.keyed _ hmem).symm⟩

theorem All.joins {out : VmMapping × Mappings} (hmerge : Merges Q) (h : ms.All Q) (hm : Q m)
    (hjoins : ms.Joins m out) : out.2.All Q ∧ Q out.1 := by
  cases hjoins with
  | alone => exact ⟨h, hm⟩
  | below he hcan => exact ⟨h.erase _, hmerge _ _ hcan (h.holds _ he) hm⟩
  | above he hcan => exact ⟨h.erase _, hmerge _ _ hcan hm (h.holds _ he)⟩

/-- Putting in a record with the property keeps the property. -/
theorem All.insert (hmerge : Merges Q) (h : ms.All Q) (hm : Q m)
    (hrun : ms.insert m = .ok ms') : ms'.All Q := by
  obtain ⟨h₁, hm₁⟩ := h.joins hmerge hm (joins_mergePrev ms m)
  obtain ⟨h₂, hm₂⟩ := h₁.joins hmerge hm₁ (joins_mergeNext ..)
  unfold Mappings.insert at hrun
  dsimp only at hrun
  split_ifs at hrun
  cases hrun
  refine ⟨?_, ?_⟩
  · intro e he
    rcases mem_insert.mp he with rfl | ⟨_, he⟩
    · rfl
    · exact h₂.keyed e he
  · intro e he
    rcases mem_insert.mp he with rfl | ⟨_, he⟩
    · exact hm₂
    · exact h₂.holds e he

theorem All.insertAll (hmerge : Merges Q) (h : ms.All Q)
    (hl : ∀ m ∈ l, Q m) (hrun : ms.insertAll l = .ok ms') : ms'.All Q := by
  induction l generalizing ms with
  | nil =>
    cases hrun
    exact h
  | cons m rest ih =>
    obtain ⟨mid, hmid, hrun⟩ := ok_of_bind hrun
    exact ih (h.insert hmerge (hl m (by simp)) hmid) (fun k hk => hl k (by simp [hk])) hrun

theorem All.takeKeys {keys : List Nat} (h : ms.All Q)
    (hrun : ms.takeKeys keys = .ok (taken, rest)) :
    rest.All Q ∧ ∀ m ∈ taken, Q m ∧ m.start ∈ keys ∧ (m.start, m) ∈ ms.map.entries := by
  induction keys generalizing ms taken with
  | nil =>
    cases hrun
    exact ⟨h, by simp⟩
  | cons key keys ih =>
    unfold takeKeys remove at hrun
    cases hget : ms.map.get? key with
    | none =>
      rw [hget] at hrun
      cases hrun
    | some m =>
      rw [hget] at hrun
      obtain ⟨⟨more, rest'⟩, hmore, hrun⟩ := ok_of_bind hrun
      cases hrun
      obtain ⟨hm, rfl⟩ := h.get? hget
      obtain ⟨hrest, htaken⟩ := ih (h.erase _) hmore
      refine ⟨hrest, forall_mem_cons.mpr ⟨⟨hm, by simp, get?_eq_some.mp hget⟩, ?_⟩⟩
      intro k hk
      obtain ⟨hQ, hkey, hmem⟩ := htaken k hk
      exact ⟨hQ, by simp [hkey], (mem_erase.mp hmem).2⟩

variable {range : Range} {op : CarveOp τ} {env env' : τ} {outcome : CarveOutcome}

/-- The records a carve takes out are records of the set that meet the range. -/
theorem All.takeIn (h : ms.All Q) (hrun : ms.takeIn range = .ok (taken, rest)) :
    rest.All Q ∧ ∀ m ∈ taken, Q m ∧ meets range m = true := by
  obtain ⟨found, hfound, hrun⟩ := ok_of_bind hrun
  obtain ⟨hrest, htaken⟩ := h.takeKeys hrun
  refine ⟨hrest, ?_⟩
  intro m hm
  obtain ⟨hQ, hkey, hmem⟩ := htaken m hm
  refine ⟨hQ, ?_⟩
  unfold iterRange at hfound
  dsimp only at hfound
  split_ifs at hfound
  cases hfound
  obtain ⟨k, hk, hstart⟩ := mem_map.mp hkey
  obtain ⟨hk, hmeets⟩ := mem_filter.mp hk
  obtain ⟨e, he, rfl⟩ := mem_map.mp hk
  have hmem' := (mem_filter.mp he).1
  have hsame := eq_of_mem_of_key hmem' hmem ((h.keyed e hmem').trans hstart)
  rw [hsame] at hmeets
  simpa [meets] using hmeets

theorem carvePieces_all {survivors : List VmMapping} (hl : ∀ m ∈ l, P m)
    (hpart : ∀ m k, P m → k.PartOf m → Q k) (hop : ∀ m mid env k env', P m → mid.PartOf m →
      op env mid (intersect range m.range) = .ok (some k, env') → Q k)
    (hrun : carvePieces range op env l = .ok (survivors, outcome, env')) :
    ∀ k ∈ survivors, Q k := by
  induction l generalizing env survivors outcome with
  | nil =>
    cases hrun
    simp
  | cons m rest ih =>
    obtain ⟨⟨left, middle, right⟩, hsplit, hrun⟩ := ok_of_bind hrun
    obtain ⟨⟨kept, mid⟩, hkept, hrun⟩ := ok_of_bind hrun
    obtain ⟨⟨more, outcome', last⟩, hmore, hrun⟩ := ok_of_bind hrun
    cases hrun
    have hm := hl m (by simp)
    obtain ⟨hmiddle, houter⟩ := VmMapping.splitRange_partOf hsplit
    intro k hk
    rcases mem_append.mp hk with hk | hk
    · rcases mem_append.mp hk with hk | hk
      · exact hpart m k hm (houter k hk)
      · rw [mem_toList.mp hk] at hkept
        exact hop m middle env k mid hm hmiddle hkept
    · exact ih (fun k hk => hl k (by simp [hk])) hmore k hk

/-- A property that cutting, merging and the operation keep is kept by a carve. The operation
only sees pieces of records that meet the range. -/
theorem All.carve (hmerge : Merges Q) (h : ms.All P) (hpart : ∀ m k, P m → k.PartOf m → Q k)
    (hop : ∀ m mid env k env', P m → meets range m = true → mid.PartOf m →
      op env mid (intersect range m.range) = .ok (some k, env') → Q k)
    (hrun : ms.carve range op env = .ok (ms', outcome, env')) : ms'.All Q := by
  unfold Mappings.carve at hrun
  split_ifs at hrun
  obtain ⟨⟨pieces, rest⟩, htake, hrun⟩ := ok_of_bind hrun
  obtain ⟨⟨survivors, outcome', env''⟩, hpieces, hrun⟩ := ok_of_bind hrun
  obtain ⟨final, hput, hrun⟩ := ok_of_bind hrun
  cases hrun
  obtain ⟨hrest, htaken⟩ := h.takeIn htake
  have hrest' : rest.All Q := hrest.imp (fun m hm => hpart m m hm (VmMapping.PartOf.refl m))
  have hsurvivors := carvePieces_all (P := fun m => P m ∧ meets range m = true) htaken
    (fun m k hm => hpart m k hm.1)
    (fun m mid env k env' hm => hop m mid env k env' hm.1 hm.2) hpieces
  exact hrest'.insertAll hmerge hsurvivors hput

end Mappings

end Petra.Vm
