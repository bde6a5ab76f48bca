import Petra.Vm.Accounting
import Petra.Vm.Vmar

/-! # What an operation may do to an address space

The records are a partition, every resident page is mapped, and the running total is the
sum of the record lengths. Page table entries only ever move or disappear: a writable
entry of a private mapping was one before.
-/

namespace Petra.Vm

open Base Option

namespace Vmar

/-- The properties in force at an address. -/
def view (v : Vmar) (p : Nat) : Option Attr := v.mappings.view p

/-- The address belongs to a private mapping. -/
def PrivateAt (v : Vmar) (p : Nat) : Prop := ∃ a, v.view p = some a ∧ a.shared = false

/-- The invariant of an address space. The running total is part of it if `exact` holds. -/
structure Good (exact : Prop) (v : Vmar) : Prop where
  partition : v.mappings.Partition
  resident : ∀ p pte, v.vmSpace.get? p = some pte → (v.view p).isSome
  total : exact → v.totalVm = v.mappings.totalLen

/-- The page table entries of `v'` are entries of `v`, moved or with flags taken away. -/
def Evolves (v v' : Vmar) : Prop :=
  ∃ origin : Nat → Nat,
    (∀ p pte', v'.vmSpace.get? p = some pte' → ∃ pte, v.vmSpace.get? (origin p) = some pte ∧
      pte'.frame = pte.frame ∧
      (pte'.flags.w = true → v'.PrivateAt p → pte.flags.w = true ∧ v.PrivateAt (origin p))) ∧
    ∀ p q, (v'.vmSpace.get? p).isSome → (v'.vmSpace.get? q).isSome → origin p = origin q → p = q

/-- Panics that are not an update of the running total going wrong. -/
def NoUnderflow (exact : Prop) (p : VmarPanic) : Prop := exact → p ≠ .totalVm

theorem Evolves.refl (v : Vmar) : v.Evolves v :=
  ⟨id, fun _ pte h => ⟨pte, h, rfl, fun hw hp => ⟨hw, hp⟩⟩, fun _ _ _ _ h => h⟩

theorem Evolves.trans {u v w : Vmar} (h : u.Evolves v) (h' : v.Evolves w) : u.Evolves w := by
  obtain ⟨f, hf, hinj⟩ := h
  obtain ⟨g, hg, hinj'⟩ := h'
  refine ⟨f ∘ g, ?_, ?_⟩
  · intro p pte' hp
    obtain ⟨mid, hmid, hframe, hw⟩ := hg p pte' hp
    obtain ⟨pte, hpte, hframe', hw'⟩ := hf (g p) mid hmid
    refine ⟨pte, hpte, hframe.trans hframe', ?_⟩
    intro hflag hpriv
    obtain ⟨hflag', hpriv'⟩ := hw hflag hpriv
    exact hw' hflag' hpriv'
  · intro p q hp hq heq
    apply hinj' p q hp hq
    obtain ⟨pte, hpte⟩ := isSome_iff_exists.mp hp
    obtain ⟨qte, hqte⟩ := isSome_iff_exists.mp hq
    obtain ⟨_, hpmid, _⟩ := hg p pte hpte
    obtain ⟨_, hqmid, _⟩ := hg q qte hqte
    exact hinj _ _ (by simp [hpmid]) (by simp [hqmid]) heq

variable {v v' : Vmar}

/-- Operations that leave the page table alone and keep what is mapped at resident pages. -/
theorem Evolves.of_pages_eq (hpages : v'.vmSpace = v.vmSpace)
    (hview : ∀ p, (v.vmSpace.get? p).isSome → v'.view p = v.view p) : v.Evolves v' := by
  refine ⟨id, ?_, fun _ _ _ _ h => h⟩
  intro p pte hp
  rw [hpages] at hp
  refine ⟨pte, hp, rfl, ?_⟩
  rintro hw ⟨a, ha, hshared⟩
  rw [hview p (by simp [hp])] at ha
  exact ⟨hw, a, ha, hshared⟩

/-! ### Carves in place -/

/-- What a carve operation that works in place does to the properties and to the page table
entry of an address. -/
structure PieceOp (op : Mappings.CarveOp VmSpace) (eff : Attr → Option Attr)
    (page : Attr → Pte → Option Pte) : Prop where
  records : Mappings.Implements op eff
  pages : ∀ env m sub kept env', op env m sub = .ok (kept, env') → ∀ p,
    env'.get? p = if m.Covers p then (env.get? p).bind (page (m.attrAt p)) else env.get? p
  shared : ∀ a b, eff a = some b → b.shared = a.shared
  frame : ∀ a pte pte', page a pte = some pte' → pte'.frame = pte.frame
  write : ∀ a pte pte', page a pte = some pte' → a.shared = false → pte'.flags.w = true →
    pte.flags.w = true
  dropped : ∀ a pte, eff a = none → page a pte = none

variable {eff : Attr → Option Attr} {op : Mappings.CarveOp VmSpace} {outcome : CarveOutcome}
variable {page : Attr → Pte → Option Pte} {range : Range}

variable (hop : PieceOp op eff page)

include hop

theorem carvePieces_pages {l survivors : List VmMapping} {env env' : VmSpace}
    (hl : Mappings.Pieces range l) (hapart : l.Pairwise VmMapping.Apart)
    (h : Mappings.carvePieces range op env l = .ok (survivors, outcome, env')) (p : Nat) :
    (∀ m ∈ l, m.Covers p → range.Mem p → env'.get? p = (env.get? p).bind (page (m.attrAt p))) ∧
    ((∀ m ∈ l, ¬ (m.Covers p ∧ range.Mem p)) → env'.get? p = env.get? p) := by
  induction l generalizing env survivors outcome with
  | nil =>
    cases h
    simp
  | cons m rest ih =>
    obtain ⟨hhead, hrest⟩ := List.pairwise_cons.mp hapart
    obtain ⟨⟨left, middle, right⟩, hsplit, h⟩ := ok_of_bind h
    obtain ⟨⟨kept, mid⟩, hrun, h⟩ := ok_of_bind h
    obtain ⟨⟨more, outcome', last⟩, hmore, h⟩ := ok_of_bind h
    cases h
    have hdiv := Mappings.splitRange_divided (hl.placed m (by simp)) hl.nonempty hsplit
    have hstep := hop.pages _ _ _ _ _ hrun p
    have hcov : middle.Covers p ↔ range.Mem p ∧ m.Covers p := hdiv.middle_covers
    obtain ⟨hin, hout⟩ := ih hl.tail hrest hmore
    refine ⟨?_, ?_⟩
    · intro k hk hkp hp
      rcases List.mem_cons.mp hk with rfl | hk
      · -- the later pieces do not cover an address of this one
        rw [hout (fun k' hk' hcon => (hhead k' hk').not_covers hkp hcon.1), hstep,
          if_pos (hcov.mpr ⟨hp, hkp⟩), hdiv.inner.attr p (hcov.mpr ⟨hp, hkp⟩)]
      · rw [hin k hk hkp hp, hstep, if_neg]
        intro hmid
        exact (hhead k hk).not_covers (hcov.mp hmid).2 hkp
    · intro hnone
      rw [hout (fun k hk => hnone k (by simp [hk])), hstep, if_neg]
      intro hmid
      exact hnone m (by simp) ⟨(hcov.mp hmid).2, (hcov.mp hmid).1⟩

/-- How a carve in place changes an address space. -/
structure InPlace (range : Range) (eff : Attr → Option Attr) (page : Attr → Pte → Option Pte)
    (outcome : CarveOutcome) (v v' : Vmar) : Prop where
  partition : v'.mappings.Partition
  view : ∀ p, v'.view p = if range.Mem p then (v.view p).bind eff else v.view p
  pages : ∀ p, v'.vmSpace.get? p =
    if range.Mem p then (v.vmSpace.get? p).bind (fun pte => (v.view p).bind (fun a => page a pte))
    else v.vmSpace.get? p
  dropped : v'.totalVm + outcome.dropped = v.totalVm
  totalLen : v'.mappings.totalLen + outcome.dropped = v.mappings.totalLen

variable {exact : Prop}

theorem InPlace.good (hv : v.Good exact) (h : InPlace range eff page outcome v v') :
    v'.Good exact := by
  refine ⟨h.partition, ?_, ?_⟩
  · intro p pte' hp
    rw [h.pages] at hp
    rw [h.view]
    split_ifs at hp ⊢ with hrange
    · obtain ⟨pte, hpte, hp⟩ := bind_eq_some_iff.mp hp
      obtain ⟨a, ha, hpage⟩ := bind_eq_some_iff.mp hp
      rw [ha, isSome_iff_ne_none]
      intro hnone
      rw [hop.dropped a pte hnone] at hpage
      cases hpage
    · exact hv.resident p pte' hp
  · intro hexact
    have htotal := hv.total hexact
    have hdropped := h.dropped
    have hlen := h.totalLen
    omega

theorem InPlace.evolves (h : InPlace range eff page outcome v v') : v.Evolves v' := by
  refine ⟨id, ?_, fun _ _ _ _ heq => heq⟩
  intro p pte' hp
  rw [h.pages] at hp
  by_cases hrange : range.Mem p
  · rw [if_pos hrange] at hp
    obtain ⟨pte, hpte, hp⟩ := bind_eq_some_iff.mp hp
    obtain ⟨a, ha, hpage⟩ := bind_eq_some_iff.mp hp
    refine ⟨pte, hpte, hop.frame a pte pte' hpage, ?_⟩
    rintro hw ⟨b, hb, hshared⟩
    rw [h.view, if_pos hrange, ha] at hb
    have hsame := hop.shared a b hb
    rw [hshared] at hsame
    exact ⟨hop.write a pte pte' hpage hsame.symm hw, a, ha, hsame.symm⟩
  · rw [if_neg hrange] at hp
    refine ⟨pte', hp, rfl, ?_⟩
    rintro hw ⟨b, hb, hshared⟩
    rw [h.view, if_neg hrange] at hb
    exact ⟨hw, b, hb, hshared⟩

theorem inPlace_of_carve {v : Vmar} (hv : v.Good exact) {ms' : Mappings} {pages' : VmSpace}
    (h : v.mappings.carve range op v.vmSpace = .ok (ms', outcome, pages'))
    (hle : outcome.dropped ≤ v.totalVm) : InPlace range eff page outcome v
      { v with mappings := ms', vmSpace := pages', totalVm := v.totalVm - outcome.dropped } := by
  have hpart := hv.partition
  obtain ⟨hpart', hview⟩ := hpart.carve hop.records h
  obtain ⟨_, _, hlt, survivors, hpieces, _⟩ := Mappings.carve_eq_ok hpart h
  refine ⟨hpart', hview, ?_, Nat.sub_add_cancel hle, hpart.carve_totalLen hop.records h⟩
  intro p
  obtain ⟨hin, hout⟩ := carvePieces_pages hop (hpart.pieces hlt) (hpart.inside_apart range) hpieces p
  by_cases hcov : ∃ m ∈ v.mappings.inside range, m.Covers p
  · obtain ⟨m, hm, hp⟩ := hcov
    have hattr : v.view p = some (m.attrAt p) :=
      (hpart.view_outside range).mpr (.inl ⟨m, hm, hp, rfl⟩)
    by_cases hrange : range.Mem p
    · rw [if_pos hrange, hin m hm hp hrange, hattr]
      rfl
    · rw [if_neg hrange]
      exact hout (fun _ _ hcon => hrange hcon.2)
  push Not at hcov
  rw [hout (fun m hm hcon => hcov m hm hcon.1)]
  split_ifs with hrange
  · -- an address of the range that no piece covers is not resident
    cases hpte : v.vmSpace.get? p with
    | none => rfl
    | some pte =>
      obtain ⟨m, hm, hp⟩ := (hpart.isSome_view_inside hrange).mp (hv.resident p pte hpte)
      exact absurd hp (hcov m hm)
  · rfl

/-- A carve in place, as a call. It cannot take more off the running total than is there. -/
theorem carve_ensures {v : Vmar} (hv : v.Good exact) : (carve range op).Ensures (· = v)
      (fun r s => ∃ outcome, r = .ok outcome ∧ outcome.mapped = v.mappings.overlap range ∧
        InPlace range eff page outcome v s) (NoUnderflow exact) := by
  apply Call.Ensures.get
  rintro s rfl
  apply Call.Ensures.orAbort
  · intro p hp _ _ _
    cases hrun : s.mappings.carve range op s.vmSpace with
    | error e =>
      rw [hrun] at hp
      cases hp
      exact VmarPanic.noConfusion
    | ok out => rw [hrun] at hp; cases hp
  rintro ⟨ms', outcome, pages'⟩ hrun
  have hcarve : s.mappings.carve range op s.vmSpace = .ok (ms', outcome, pages') := by
    cases hr : s.mappings.carve range op s.vmSpace with
    | error e => rw [hr] at hrun; cases hrun
    | ok out =>
      rw [hr] at hrun
      cases hrun
      rfl
  apply Call.Ensures.assert
  · intro hover t _ hexact
    have htotal := hv.total hexact
    have hlen := hv.partition.carve_totalLen hop.records hcarve
    simp only [decide_eq_false_iff_not] at hover
    omega
  · intro hle
    apply Call.Ensures.set_pure
    exact ⟨outcome, rfl, hv.partition.carve_mapped hcarve,
      inPlace_of_carve hop hv hcarve (by simpa using hle)⟩

end Vmar

end Petra.Vm
