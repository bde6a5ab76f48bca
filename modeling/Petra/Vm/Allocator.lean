import Petra.Vm.Accounting
import Petra.Vm.Vmar

/-! # The search for a free region

The search walks the records from high addresses to low ones and takes the first hole
that is large enough. What it returns is free, and nothing above it would have done.
-/

namespace Petra.Vm

open Base List

namespace Vmar

/-- A region that a search below `limit` may return. -/
structure Region (size limit : Nat) (r : Range) : Prop where
  stop_eq : r.stop = r.start + size
  aligned : pageSize ∣ r.start
  lowest_le : vmarLowestAddr ≤ r.start
  stop_le : r.stop ≤ limit

variable {r : Range} {low high size ceiling : Nat} {l : List VmMapping} {r' : Range}

theorem takeBetween_eq_some (hlow : vmarLowestAddr ≤ low)
    (h : takeBetween low high size = some r) : Region size high r ∧ low ≤ r.start := by
  unfold takeBetween takeFromHole at h
  dsimp only at h
  split_ifs at h with hlt hfits hstart
  cases h
  have hle := Nat.div_mul_le_self (high - size) pageSize
  exact ⟨⟨rfl, Dvd.intro_left _ rfl, hlow.trans hstart, by dsimp only; omega⟩, hstart⟩

theorem searchHoles_eq_some (hl : l.Pairwise (fun a b => b.stop ≤ a.start))
    (h : searchHoles size ceiling l = some r) :
    Region size ceiling r ∧ ∀ m ∈ l, m.stop ≤ r.start ∨ r.stop ≤ m.start := by
  induction l generalizing ceiling with
  | nil => exact ⟨(takeBetween_eq_some le_rfl h).1, by simp⟩
  | cons m rest ih =>
    obtain ⟨hhead, hrest⟩ := pairwise_cons.mp hl
    by_cases habove : m.start ≥ ceiling
    · rw [searchHoles, if_pos habove] at h
      obtain ⟨hregion, hall⟩ := ih hrest h
      have hstop := hregion.stop_le
      exact ⟨hregion, forall_mem_cons.mpr ⟨.inr (by omega), hall⟩⟩
    rw [searchHoles, if_neg habove] at h
    split at h
    next region hfound =>
      cases h
      obtain ⟨hregion, hstart⟩ := takeBetween_eq_some (le_max_right _ _) hfound
      have hm := m.start_lt_stop
      refine ⟨hregion, forall_mem_cons.mpr ⟨.inl (by omega), ?_⟩⟩
      -- the rest lies below the record under the hole
      intro k hk
      have hbelow := hhead k hk
      exact .inl (by omega)
    · split_ifs at h
      obtain ⟨hregion, hall⟩ := ih hrest h
      have hstop := hregion.stop_le
      refine ⟨⟨hregion.stop_eq, hregion.aligned, hregion.lowest_le, by omega⟩, ?_⟩
      exact forall_mem_cons.mpr ⟨.inr (by omega), hall⟩

/-- The top of a hole is above every region inside the hole. -/
theorem takeBetween_highest (hpos : 0 < size) (hr' : Region size high r') (hlow : low ≤ r'.start) :
    ∃ r, takeBetween low high size = some r ∧ r'.start ≤ r.start := by
  have hstop := hr'.stop_eq
  have hle := hr'.stop_le
  have htop : r'.start ≤ (high - size) / pageSize * pageSize := by
    rw [← Nat.div_mul_cancel hr'.aligned]
    exact Nat.mul_le_mul_right _ (Nat.div_le_div_right (by omega))
  have hfits : size ≤ high ∧ pageSize ≠ 0 := ⟨by omega, by decide⟩
  unfold takeBetween takeFromHole
  rw [if_pos (by omega), if_pos hfits]
  exact ⟨_, if_pos (hlow.trans htop), htop⟩

/-- A region apart from all records is not above the one the search returns. -/
theorem searchHoles_highest (hpos : 0 < size) (hl : l.Pairwise (fun a b => b.stop ≤ a.start))
    (hr' : Region size ceiling r') (hapart : ∀ m ∈ l, m.stop ≤ r'.start ∨ r'.stop ≤ m.start) :
    ∃ r, searchHoles size ceiling l = some r ∧ r'.start ≤ r.start := by
  induction l generalizing ceiling with
  | nil => exact takeBetween_highest hpos hr' hr'.lowest_le
  | cons m rest ih =>
    obtain ⟨_, hrest⟩ := pairwise_cons.mp hl
    obtain ⟨hm, hapart⟩ := forall_mem_cons.mp hapart
    rw [searchHoles]
    by_cases habove : m.start ≥ ceiling
    · rw [if_pos habove]
      exact ih hrest hr' hapart
    rw [if_neg habove]
    rcases hm with hover | hunder
    · obtain ⟨r, hfound, hle⟩ := takeBetween_highest hpos hr' (max_le hover hr'.lowest_le)
      exact ⟨r, by rw [hfound], hle⟩
    have hlt := m.start_lt_stop
    have hstop := hr'.stop_eq
    cases hfound : takeBetween (max m.stop vmarLowestAddr) ceiling size with
    | some r =>
      have hstart := (takeBetween_eq_some (le_max_right _ _) hfound).2
      exact ⟨r, rfl, by omega⟩
    | none =>
      -- the region lies between the lowest address and the record, so the search goes on
      have hlow := hr'.lowest_le
      rw [if_neg (by omega)]
      exact ih hrest ⟨hstop, hr'.aligned, hlow, by omega⟩ hapart

variable {ms : Mappings}

/-- The records in descending order lie below one another. -/
theorem reverse_descending (h : ms.Partition) :
    ms.iter.reverse.Pairwise (fun a b => b.stop ≤ a.start) := by
  rw [pairwise_reverse]
  unfold Mappings.iter SortedMap.values
  rw [pairwise_map]
  refine ms.map.sorted.imp_of_mem ?_
  intro a b ha hb hlt
  have hapart := h.apart a ha b hb hlt.ne
  have hakey := h.keyed a ha
  have hbkey := h.keyed b hb
  have hb' := b.2.start_lt_stop
  unfold VmMapping.Apart at hapart
  omega

/-- A range is free if it is apart from every record. -/
theorem free_iff_apart (h : ms.Partition) (hr : r.start < r.stop) :
    ms.Free r ↔ ∀ m ∈ ms.iter.reverse, m.stop ≤ r.start ∨ r.stop ≤ m.start := by
  constructor
  · intro hfree m hm
    rw [mem_reverse, h.mem_iter] at hm
    by_contra hmeet
    have hlt := m.start_lt_stop
    have hnone := hfree (max m.start r.start) (by omega) (by omega)
    rw [h.view_eq_none] at hnone
    exact hnone _ hm ⟨by dsimp only; omega, by dsimp only; omega⟩
  · intro hall p hstart hstop
    rw [h.view_eq_none]
    intro e he hcov
    have hmem : e.2 ∈ ms.iter.reverse := by
      rw [mem_reverse, h.mem_iter, ← h.keyed e he]
      exact he
    have hout := hall e.2 hmem
    unfold VmMapping.Covers at hcov
    omega

/-- A region the search returns is free, page-aligned and below the limit. -/
theorem findFreeRegion_eq_some (h : ms.Partition) {size limit : Nat}
    (hr : findFreeRegion ms size limit = some r) : Region size limit r ∧ ms.Free r := by
  unfold findFreeRegion at hr
  split_ifs at hr
  obtain ⟨hregion, hall⟩ := searchHoles_eq_some (reverse_descending h) hr
  refine ⟨hregion, ?_⟩
  rcases Nat.lt_or_ge r.start r.stop with hlt | hempty
  · exact (free_iff_apart h hlt).mpr hall
  · intro p hstart hstop
    omega

/-- The starts of the regions of a size that are free below a limit. -/
def rooms (ms : Mappings) (size limit : Nat) : Set Nat :=
  {start | Region size limit ⟨start, start + size⟩ ∧ ms.Free ⟨start, start + size⟩}

theorem findFreeRegion_of_room (h : ms.Partition) {size limit start : Nat}
    (hpos : 0 < size) (hroom : start ∈ rooms ms size limit) :
    ∃ r, findFreeRegion ms size limit = some r ∧ start ≤ r.start := by
  obtain ⟨hregion, hfree⟩ := hroom
  have hlow := hregion.lowest_le
  have hstop := hregion.stop_le
  have hapart := (free_iff_apart h (by dsimp only; omega)).mp hfree
  unfold findFreeRegion
  dsimp only at hlow hstop
  rw [if_neg (by omega)]
  exact searchHoles_highest hpos (reverse_descending h) hregion hapart

/-- The search returns the highest free region and fails only if there is none. -/
theorem findFreeRegion_isGreatest {ms : Mappings} (h : ms.Partition) {size limit : Nat}
    (hpos : 0 < size) : (∀ r, findFreeRegion ms size limit = some r →
      r.stop = r.start + size ∧ IsGreatest (rooms ms size limit) r.start) ∧
    (findFreeRegion ms size limit = none ↔ rooms ms size limit = ∅) := by
  refine ⟨?_, ?_⟩
  · intro r hr
    obtain ⟨hregion, hfree⟩ := findFreeRegion_eq_some h hr
    have hstop := hregion.stop_eq
    have hself : (⟨r.start, r.start + size⟩ : Range) = r := by rw [← hstop]
    refine ⟨hstop, ⟨hself ▸ hregion, hself ▸ hfree⟩, ?_⟩
    intro start hroom
    obtain ⟨found, hfound, hle⟩ := findFreeRegion_of_room h hpos hroom
    rw [hr] at hfound
    cases hfound
    exact hle
  · constructor
    · intro hnone
      rw [Set.eq_empty_iff_forall_notMem]
      intro start hroom
      obtain ⟨found, hfound, _⟩ := findFreeRegion_of_room h hpos hroom
      rw [hnone] at hfound
      cases hfound
    · intro hempty
      cases hr : findFreeRegion ms size limit with
      | none => rfl
      | some r =>
        obtain ⟨hregion, hfree⟩ := findFreeRegion_eq_some h hr
        have hself : (⟨r.start, r.start + size⟩ : Range) = r := by rw [← hregion.stop_eq]
        have hroom : r.start ∈ rooms ms size limit := ⟨hself ▸ hregion, hself ▸ hfree⟩
        rw [hempty] at hroom
        cases hroom

/-- A page that straddles the limit is passed by, and the page below it is taken. -/
theorem findFreeRegion_under_straddling :
    let ms : Mappings := ⟨SortedMap.empty.insert 0x200000
      (.new 0x200000 0x2000 (by decide) .READ false false none 0)⟩
    findFreeRegion ms 0x1000 0x201000 = some ⟨0x1ff000, 0x200000⟩ ∧
      IsGreatest (rooms ms 0x1000 0x201000) 0x1ff000 :=
  ⟨by decide, ((findFreeRegion_isGreatest (by decide) (by decide)).1
    ⟨0x1ff000, 0x200000⟩ (by decide)).2⟩

end Vmar

end Petra.Vm
