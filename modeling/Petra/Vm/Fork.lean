import Petra.Vm.Frames

/-! # What fork gives the child

At every address the child gets what the parent's record there passes on: nothing, fresh
anonymous memory, or the record itself together with its resident pages. Shared entries
are the same on both sides.
-/

namespace Petra.Vm

open Base List SortedMap Option

namespace World

/-- The record of a list that covers an address. -/
def covering (l : List VmMapping) (p : Nat) : Option VmMapping := l.find? (fun m => m.Covers p)

/-- The record a child gets for a record of the parent. -/
def inherited (m : VmMapping) : Option VmMapping :=
  if m.dontFork then none else if m.wipeOnFork then some (wiped m) else some m

/-- The record of a list whose resident page at an address is shared with the child. -/
def sharing (l : List VmMapping) (p : Nat) : Option VmMapping :=
  (covering l p).filter (fun m => !m.dontFork && !m.wipeOnFork)

theorem covering_append_single (l : List VmMapping) (m : VmMapping) (p : Nat) :
    covering (l ++ [m]) p = (covering l p).or (if m.Covers p then some m else none) := by
  simp only [covering, find?_append, find?_singleton, decide_eq_true_eq]

variable {l : List VmMapping} {p : Nat}

theorem covering_eq_none : covering l p = none ↔ ∀ m ∈ l, ¬ m.Covers p := by
  simp [covering]

theorem covering_iter {ms : Mappings} (h : ms.Partition) (p : Nat) :
    covering ms.iter p = ms.get p := by
  cases hfind : covering ms.iter p with
  | none =>
    symm
    rw [eq_none_iff_forall_ne_some]
    intro m hget
    obtain ⟨hmem, hcov⟩ := h.get_eq_some.mp hget
    exact covering_eq_none.mp hfind m (mem_map_of_mem hmem) hcov
  | some m =>
    obtain ⟨e, he, rfl⟩ := mem_map.mp (mem_of_find?_eq_some hfind)
    have hcov : e.2.Covers p := by simpa using find?_some hfind
    exact (h.get_eq_some.mpr ⟨h.keyed e he ▸ he, hcov⟩).symm

variable {m : VmMapping}

theorem sharing_of_covering (h : covering l p = some m) :
    sharing l p = if m.dontFork = false ∧ m.wipeOnFork = false then some m else none := by
  rw [sharing, h, filter_some]
  cases m.dontFork <;> cases m.wipeOnFork <;> rfl

variable {child child' v : Vmar} {pages pages' pages'' : VmSpace}

theorem inheritRecord_eq_ok (hfits : child.mappings.Fits m)
    (htotal : child.totalVm = child.mappings.totalLen) (h : inheritRecord child m = .ok child') :
    child'.mappings.Partition ∧ child'.totalVm = child'.mappings.totalLen ∧
      child'.vmSpace = child.vmSpace ∧ child'.view = child.mappings.viewWith m := by
  obtain ⟨total, hadd, h⟩ := ok_of_bind h
  obtain ⟨ms, hput, h⟩ := ok_of_bind h
  cases h
  obtain ⟨rfl, _⟩ := addUsize_eq_ok hadd
  obtain ⟨ms', hput', hpart, hview⟩ := hfits.insert
  rw [hput'] at hput
  cases hput
  refine ⟨hpart, ?_, rfl, hview⟩
  rw [hfits.totalLen_insert hpart hview, htotal]

theorem sharePages_get? (m : VmMapping) (src dst : VmSpace) (p : Nat) :
    (sharePages m src dst).1.get? p =
        (if m.Covers p then (src.get? p).map (sharedEntry m) else src.get? p) ∧
      (sharePages m src dst).2.get? p =
        (if m.Covers p then ((src.get? p).map (sharedEntry m)).or (dst.get? p) else dst.get? p) := by
  have hfound : ((src.filter (fun p _ => m.range.Mem p)).mapValues
      (fun _ => sharedEntry m)).get? p =
        if m.Covers p then (src.get? p).map (sharedEntry m) else none := by
    rw [get?_mapValues, get?_filter]
    by_cases hcov : m.Covers p
    · have hmem : m.range.Mem p := hcov
      cases src.get? p <;> simp [hcov, hmem]
    · have hmem : ¬ m.range.Mem p := hcov
      cases src.get? p <;> simp [hcov, hmem]
  unfold sharePages
  dsimp only
  constructor
  · by_cases hcow : m.isCow = true
    · rw [if_pos hcow, get?_union, hfound]
      by_cases hcov : m.Covers p
      · cases src.get? p <;> simp [hcov]
      · simp [hcov]
    · have hsame : sharedEntry m = id := by
        funext pte
        simp [sharedEntry, hcow]
      rw [if_neg hcow, hsame]
      simp
  · rw [get?_union, hfound]
    by_cases hcov : m.Covers p <;> simp [hcov]

/-- What the child and the parent's page table are once the records of `l` have been passed on. -/
structure Forked (l : List VmMapping) (pages pages' : VmSpace) (child : Vmar) : Prop where
  partition : child.mappings.Partition
  total : child.totalVm = child.mappings.totalLen
  view : ∀ p, child.view p = ((covering l p).bind inherited).map (fun k => k.attrAt p)
  childPages : ∀ p, child.vmSpace.get? p =
    (sharing l p).bind (fun m => (pages.get? p).map (sharedEntry m))
  parentPages : ∀ p, pages'.get? p = match sharing l p with
    | some m => (pages.get? p).map (sharedEntry m)
    | none => pages.get? p

theorem Forked.nil (pages : VmSpace) (aslrOffset limit : Nat) :
    Forked [] pages pages { Vmar.new aslrOffset with maxAddrSpace := limit } where
  partition := ⟨by simp [Vmar.new, Mappings.empty, empty],
    by simp [Vmar.new, Mappings.empty, empty],
    by simp [Vmar.new, Mappings.empty, empty]⟩
  total := rfl
  view := fun _ => rfl
  childPages := fun _ => rfl
  parentPages := fun _ => rfl

/-- What passing on one record changes: nothing outside the record. -/
theorem forkMapping_eq_ok {pages pages' : VmSpace}
    (hfits : child.mappings.Fits m) (htotal : child.totalVm = child.mappings.totalLen)
    (hempty : ∀ p, m.Covers p → child.vmSpace.get? p = none)
    (h : forkMapping m pages child = .ok (pages', child')) :
    child'.mappings.Partition ∧ child'.totalVm = child'.mappings.totalLen ∧ ∀ p, child'.view p =
          (if m.Covers p then (inherited m).map (fun k => k.attrAt p) else child.view p) ∧
        child'.vmSpace.get? p = (if m.Covers p ∧ m.dontFork = false ∧ m.wipeOnFork = false
          then (pages.get? p).map (sharedEntry m) else child.vmSpace.get? p) ∧
        pages'.get? p = (if m.Covers p ∧ m.dontFork = false ∧ m.wipeOnFork = false
          then (pages.get? p).map (sharedEntry m) else pages.get? p) := by
  unfold forkMapping at h
  cases hdont : m.dontFork with
  | true =>
    rw [hdont] at h
    cases h
    refine ⟨hfits.partition, htotal, fun p => ⟨?_, by simp, by simp⟩⟩
    by_cases hcov : m.Covers p
    · rw [if_pos hcov, inherited, if_pos hdont]
      exact hfits.free p hcov.1 hcov.2
    · rw [if_neg hcov]
  | false =>
    rw [hdont] at h
    cases hwipe : m.wipeOnFork with
    | true =>
      rw [hwipe] at h
      obtain ⟨fresh, hput, h⟩ := ok_of_bind h
      cases h
      have hfits' : child.mappings.Fits (wiped m) :=
        ⟨hfits.partition, ⟨hfits.placed.start_aligned, hfits.placed.len_aligned,
          hfits.placed.lowest_le, hfits.placed.stop_le⟩, hfits.free⟩
      obtain ⟨hpart, htotal', hpages, hview⟩ := inheritRecord_eq_ok hfits' htotal hput
      refine ⟨hpart, htotal', fun p => ⟨?_, by simp [hpages], by simp⟩⟩
      rw [hview]
      by_cases hcov : m.Covers p
      · have hcov' : (wiped m).Covers p := hcov
        simp [Mappings.viewWith, hcov, hcov', inherited, hdont, hwipe]
      · have hcov' : ¬ (wiped m).Covers p := hcov
        simp [Mappings.viewWith, hcov, hcov', Vmar.view]
    | false =>
      rw [hwipe] at h
      obtain ⟨grown, hput, h⟩ := ok_of_bind h
      cases h
      obtain ⟨hpart, htotal', hpages, hview⟩ := inheritRecord_eq_ok hfits htotal hput
      refine ⟨hpart, htotal', fun p => ⟨?_, ?_, ?_⟩⟩
      · change grown.view p = _
        rw [hview]
        by_cases hcov : m.Covers p <;>
          simp [Mappings.viewWith, inherited, hdont, hwipe, Vmar.view]
      · refine (sharePages_get? m pages grown.vmSpace p).2.trans ?_
        rw [hpages]
        by_cases hcov : m.Covers p
        · simp [hempty p hcov]
        · simp [hcov]
      · refine (sharePages_get? m pages grown.vmSpace p).1.trans ?_
        by_cases hcov : m.Covers p <;> simp [hcov]

theorem Forked.append (h : Forked l pages pages' child) (hplaced : m.Placed)
    (hapart : ∀ k ∈ l, k.Apart m) (hstep : forkMapping m pages' child = .ok (pages'', child')) :
    Forked (l ++ [m]) pages pages'' child' := by
  have hnone : ∀ p, m.Covers p → covering l p = none := fun p hcov =>
    covering_eq_none.mpr (fun k hk hkcov => (hapart k hk).not_covers hkcov hcov)
  have hfits : child.mappings.Fits m :=
    ⟨h.partition, hplaced, fun p hp hp' => (h.view p).trans (by rw [hnone p ⟨hp, hp'⟩]; rfl)⟩
  have hempty : ∀ p, m.Covers p → child.vmSpace.get? p = none := by
    intro p hcov
    rw [h.childPages p, sharing, hnone p hcov]
    rfl
  obtain ⟨hpart, htotal, hat⟩ := forkMapping_eq_ok hfits h.total hempty hstep
  have hcases : ∀ p, m.Covers p ∧ covering (l ++ [m]) p = some m ∧ covering l p = none ∨
      ¬ m.Covers p ∧ covering (l ++ [m]) p = covering l p := by
    intro p
    rw [covering_append_single]
    by_cases hcov : m.Covers p
    · exact .inl ⟨hcov, by simp [hnone p hcov, hcov], hnone p hcov⟩
    · exact .inr ⟨hcov, by simp [hcov]⟩
  refine ⟨hpart, htotal, ?_, ?_, ?_⟩
  · intro p
    rw [(hat p).1]
    rcases hcases p with ⟨hcov, hnew, _⟩ | ⟨hcov, hnew⟩
    · rw [if_pos hcov, hnew]
      rfl
    · rw [if_neg hcov, hnew, h.view p]
  · intro p
    rw [(hat p).2.1]
    rcases hcases p with ⟨hcov, hnew, hold⟩ | ⟨hcov, hnew⟩
    · have hsame : pages'.get? p = pages.get? p := by
        rw [h.parentPages p, sharing, hold]
        rfl
      rw [sharing_of_covering hnew, hsame, hempty p hcov]
      by_cases hshares : m.dontFork = false ∧ m.wipeOnFork = false
      · simp [hcov, hshares]
      · rw [if_neg hshares, if_neg (fun hc => hshares hc.2)]
        rfl
    · rw [if_neg (fun hc => hcov hc.1), sharing, hnew, h.childPages p]
      rfl
  · intro p
    rw [(hat p).2.2]
    rcases hcases p with ⟨hcov, hnew, hold⟩ | ⟨hcov, hnew⟩
    · have hsame : pages'.get? p = pages.get? p := by
        rw [h.parentPages p, sharing, hold]
        rfl
      rw [sharing_of_covering hnew, hsame]
      by_cases hshares : m.dontFork = false ∧ m.wipeOnFork = false
      · simp [hcov, hshares]
      · rw [if_neg hshares, if_neg (fun hc => hshares hc.2)]
    · rw [if_neg (fun hc => hcov hc.1), sharing, hnew, h.parentPages p]
      rfl

theorem Forked.forkMappings {l rest : List VmMapping}
    (h : Forked l pages pages' child) (hplaced : ∀ m ∈ rest, m.Placed)
    (hapart : (l ++ rest).Pairwise VmMapping.Apart)
    (hrun : forkMappings rest pages' child = .ok (pages'', child')) :
    Forked (l ++ rest) pages pages'' child' := by
  induction rest generalizing l pages' child with
  | nil =>
    cases hrun
    simpa using h
  | cons m rest ih =>
    obtain ⟨⟨mid, child₁⟩, hstep, hrun⟩ := ok_of_bind hrun
    have hassoc : l ++ m :: rest = (l ++ [m]) ++ rest := by simp
    rw [hassoc] at hapart ⊢
    have hbefore : ∀ k ∈ l, k.Apart m := fun k hk =>
      (pairwise_append.mp (pairwise_append.mp hapart).1).2.2 k hk m (by simp)
    have hnext := h.append (hplaced m (by simp)) hbefore hstep
    exact ih hnext (fun k hk => hplaced k (by simp [hk])) hapart hrun

/-- The parent's page table and the child after a fork. -/
theorem forked_of_partition {limit : Nat} (h : v.mappings.Partition)
    (hrun : forkMappings v.mappings.iter v.vmSpace
      { Vmar.new v.aslrOffset with maxAddrSpace := limit } = .ok (pages, child)) :
    Forked v.mappings.iter v.vmSpace pages child := by
  refine (Forked.nil v.vmSpace v.aslrOffset limit).forkMappings ?_ ?_ hrun
  · intro m hm
    obtain ⟨e, he, rfl⟩ := mem_map.mp hm
    exact h.placed e he
  · exact h.iter_apart

theorem sharing_eq_some (h : sharing l p = some m) :
    covering l p = some m ∧ inherited m = some m := by
  obtain ⟨hcov, hflags⟩ := filter_eq_some_iff.mp h
  simp only [Bool.and_eq_true, Bool.not_eq_true'] at hflags
  exact ⟨hcov, by simp [inherited, hflags]⟩

theorem sharedEntry_frame (m : VmMapping) (pte : Pte) : (sharedEntry m pte).frame = pte.frame := by
  unfold sharedEntry
  split_ifs <;> rfl

theorem sharedEntry_w {pte : Pte} (h : (sharedEntry m pte).flags.w = true) :
    m.shared = true ∧ pte.flags.w = true := by
  unfold sharedEntry VmMapping.isCow at h
  cases hshared : m.shared with
  | true => exact ⟨rfl, by simpa [hshared] using h⟩
  | false => simp [hshared] at h

section Sides

variable {v child : Vmar} {pages : VmSpace} (hfork : Forked v.mappings.iter v.vmSpace pages child)
  {pte : Pte} {p : Nat}
include hfork

/-- An entry of the child is one the parent shares, and it is not a writable private one. -/
theorem Forked.child_entry (h : child.vmSpace.get? p = some pte) :
    ∃ m pte₀, sharing v.mappings.iter p = some m ∧ v.vmSpace.get? p = some pte₀ ∧
      pte.frame = pte₀.frame ∧ (child.view p).isSome ∧
      (pte.flags.w = true → ¬ child.PrivateAt p) := by
  rw [hfork.childPages p] at h
  obtain ⟨m, hm, hpte⟩ := bind_eq_some_iff.mp h
  obtain ⟨pte₀, hpte₀, rfl⟩ := map_eq_some_iff.mp hpte
  obtain ⟨hcov, hinherit⟩ := sharing_eq_some hm
  have hview : child.view p = some (m.attrAt p) := by
    rw [hfork.view p, hcov, bind_some, hinherit]
    rfl
  refine ⟨m, pte₀, hm, hpte₀, sharedEntry_frame m pte₀, by simp [hview], ?_⟩
  rintro hw ⟨a, ha, hpriv⟩
  rw [hview] at ha
  cases ha
  have hshared : m.shared = false := hpriv
  rw [(sharedEntry_w hw).1] at hshared
  cases hshared

/-- An entry of the parent was there before. If it is still a writable private one, the child
has no entry at its address. -/
theorem Forked.parent_entry (hv : v.mappings.Partition) (h : pages.get? p = some pte) :
    ∃ pte₀, v.vmSpace.get? p = some pte₀ ∧ pte.frame = pte₀.frame ∧
      (pte.flags.w = true → v.PrivateAt p →
        pte₀.flags.w = true ∧ sharing v.mappings.iter p = none) := by
  rw [hfork.parentPages p] at h
  cases hm : sharing v.mappings.iter p with
  | none =>
    rw [hm] at h
    exact ⟨pte, h, rfl, fun hw _ => ⟨hw, rfl⟩⟩
  | some m =>
    rw [hm] at h
    obtain ⟨pte₀, hpte₀, rfl⟩ := map_eq_some_iff.mp h
    refine ⟨pte₀, hpte₀, sharedEntry_frame m pte₀, ?_⟩
    rintro hw ⟨a, ha, hpriv⟩
    have hget := covering_iter hv p ▸ (sharing_eq_some hm).1
    simp only [Vmar.view, Mappings.view, hget, map_some, some.injEq] at ha
    subst ha
    have hshared : m.shared = false := hpriv
    rw [(sharedEntry_w hw).1] at hshared
    cases hshared

end Sides

/-- The world once `i` has forked `j`. -/
def forkInto (w : World) (i j : Nat) (v child : Vmar) (pages : VmSpace) : World :=
  { w with spaces := (w.spaces.insert i { v with vmSpace := pages }).insert j child }

theorem Exclusive.fork {w : World} (h : w.Exclusive) {i j : Nat}
    (hv : w.spaces.get? i = some v) (hj : w.spaces.get? j = none) (hpart : v.mappings.Partition)
    (hfork : Forked v.mappings.iter v.vmSpace pages child) :
    (w.forkInto i j v child pages).Exclusive := by
  have hget : ∀ k u, (w.forkInto i j v child pages).spaces.get? k = some u →
      k = j ∧ u = child ∨ k = i ∧ u = { v with vmSpace := pages } ∨
        k ≠ i ∧ w.spaces.get? k = some u := by
    intro k u hu
    rcases get?_insert_cases hu with hchild | ⟨-, hu⟩
    · exact .inl hchild
    · exact .inr (get?_insert_cases hu)
  -- a holder after the fork is one from before, or the child's copy of an entry of the parent
  have hheld : ∀ holder f, (w.forkInto i j v child pages).Holds holder f →
      w.Holds holder f ∨ ∃ q, sharing v.mappings.iter q ≠ none ∧ w.Holds (.pte i q) f := by
    intro holder f hholds
    cases holder with
    | pte k q =>
      obtain ⟨u, qte, hu, hqte, hframe⟩ := hholds
      rcases hget k u hu with ⟨rfl, rfl⟩ | ⟨rfl, rfl⟩ | ⟨_, hu⟩
      · obtain ⟨m, qte₀, hm, hqte₀, hframe₀, _⟩ := hfork.child_entry hqte
        exact .inr ⟨q, by simp [hm], v, qte₀, hv, hqte₀, by rw [← hframe₀, hframe]⟩
      · obtain ⟨qte₀, hqte₀, hframe₀, _⟩ := hfork.parent_entry hpart hqte
        exact .inl ⟨v, qte₀, hv, hqte₀, by rw [← hframe₀, hframe]⟩
      · exact .inl ⟨u, qte, hu, hqte, hframe⟩
    | page object offset | zero => exact .inl hholds
  intro k p u pte hu hpte hwrite hpriv holder hholds
  rcases hget k u hu with ⟨rfl, rfl⟩ | ⟨rfl, rfl⟩ | ⟨hki, hu⟩
  · obtain ⟨_, _, _, _, _, _, hnot⟩ := hfork.child_entry hpte
    exact absurd hpriv (hnot hwrite)
  · obtain ⟨pte₀, hpte₀, hframe, hwas⟩ := hfork.parent_entry hpart hpte
    obtain ⟨hwrite₀, hnone⟩ := hwas hwrite hpriv
    have honly := h k p v pte₀ hv hpte₀ hwrite₀ hpriv
    rw [hframe] at hholds
    rcases hheld holder _ hholds with hold | ⟨q, hq, hold⟩
    · exact honly holder hold
    · have hsame := honly _ hold
      simp only [Holder.pte.injEq, true_and] at hsame
      exact absurd (hsame ▸ hnone) hq
  · have honly := h k p u pte hu hpte hwrite hpriv
    rcases hheld holder _ hholds with hold | ⟨q, hq, hold⟩
    · exact honly holder hold
    · have hsame := honly _ hold
      simp only [Holder.pte.injEq] at hsame
      exact absurd hsame.1.symm hki

end World

end Petra.Vm
