import Petra.Vm.Operations
import Petra.Vm.World

/-! # Who holds a frame

The reference count of a frame says whether it has no holder, one, or more. A writable
entry of a private mapping is the only holder of its frame, and this is kept by whatever
adds holders of frames that are not held by page tables alone.
-/

namespace Petra.Vm

open Base List SortedMap

namespace World

/-- A place holds a frame. -/
def Holds (w : World) : Holder → Frame → Prop
  | .pte i p, f => ∃ v pte, w.spaces.get? i = some v ∧ v.vmSpace.get? p = some pte ∧ pte.frame = f
  | .page object offset, f => w.pages.get? (toLex (object, offset)) = some f
  | .zero, f => w.zeroFrame = some f

variable {w w' : World} {f : Frame}

variable {h : Holder} {v v' : Vmar} {pte : Pte} {i : Nat}

theorem mem_holders : (h, f) ∈ w.holders ↔ w.Holds h f := by
  simp only [holders, mem_append, mem_flatMap, mem_map, Option.mem_toList,
    Prod.mk.injEq]
  cases h with
  | pte i p =>
    simp only [Holder.pte.injEq, reduceCtorEq, false_and, and_false, exists_false, or_false]
    constructor
    · rintro ⟨s, hs, e, he, ⟨rfl, rfl⟩, rfl⟩
      exact ⟨s.2, e.2, get?_eq_some.mpr hs, get?_eq_some.mpr he, rfl⟩
    · rintro ⟨v, pte, hv, hpte, rfl⟩
      exact ⟨(i, v), get?_eq_some.mp hv, (p, pte), get?_eq_some.mp hpte,
        ⟨rfl, rfl⟩, rfl⟩
  | page object offset =>
    simp only [Holder.page.injEq, reduceCtorEq, false_and, and_false, exists_false, false_or,
      or_false, Holds, get?_eq_some]
    constructor
    · rintro ⟨e, he, ⟨rfl, rfl⟩, rfl⟩
      exact he
    · intro he
      exact ⟨_, he, ⟨rfl, rfl⟩, rfl⟩
  | zero =>
    simp only [reduceCtorEq, false_and, and_false, exists_false, false_or, true_and]
    exact ⟨fun ⟨_, hz, hf⟩ => hf ▸ hz, fun hz => ⟨f, hz, rfl⟩⟩

theorem mem_holding {e : Holder × Frame} :
    e ∈ w.holders.filter (fun h => h.2 = f) ↔ w.Holds e.1 f ∧ e.2 = f := by
  obtain ⟨h, g⟩ := e
  simp only [mem_filter, mem_holders, decide_eq_true_eq]
  constructor
  · rintro ⟨hheld, rfl⟩
    exact ⟨hheld, rfl⟩
  · rintro ⟨hheld, rfl⟩
    exact ⟨hheld, rfl⟩

theorem holders_nodup (w : World) : w.holders.Nodup := by
  have hkeys : ∀ {κ ν α : Type} [LinearOrder κ] (m : SortedMap κ ν) (g : κ × ν → α),
      (∀ a b, g a = g b → a.1 = b.1) → (m.entries.map g).Nodup := by
    intro κ ν α _ m g hg
    exact pairwise_map.mpr (m.sorted.imp (fun hlt heq => hlt.ne (hg _ _ heq)))
  refine nodup_append.mpr ⟨nodup_append.mpr ⟨?_, ?_, ?_⟩, ?_, ?_⟩
  · apply nodup_flatMap.mpr
    refine ⟨fun s _ => hkeys _ _ (fun a b h => by simpa using congrArg Prod.fst h), ?_⟩
    refine w.spaces.sorted.imp ?_
    intro a b hlt e hea heb
    obtain ⟨x, _, rfl⟩ := mem_map.mp hea
    obtain ⟨y, _, hy⟩ := mem_map.mp heb
    simp only [Prod.mk.injEq, Holder.pte.injEq] at hy
    exact hlt.ne hy.1.1.symm
  · refine hkeys _ _ (fun a b h => ?_)
    simp only [Prod.mk.injEq, Holder.page.injEq] at h
    exact ofLex.injective (Prod.ext h.1.1 h.1.2)
  · rintro a ha b hb rfl
    obtain ⟨s, _, hs⟩ := mem_flatMap.mp ha
    obtain ⟨x, _, rfl⟩ := mem_map.mp hs
    obtain ⟨y, _, hy⟩ := mem_map.mp hb
    simp at hy
  · cases w.zeroFrame <;> simp
  · rintro a ha b hb rfl
    obtain ⟨z, _, rfl⟩ := mem_map.mp hb
    rcases mem_append.mp ha with ha | ha
    · obtain ⟨s, _, hs⟩ := mem_flatMap.mp ha
      obtain ⟨x, _, hx⟩ := mem_map.mp hs
      simp at hx
    · obtain ⟨x, _, hx⟩ := mem_map.mp ha
      simp at hx

/-- Nothing holds the frame. -/
def Unheld (w : World) (f : Frame) : Prop := ∀ h, ¬ w.Holds h f

theorem refcount_eq_zero : w.refcount f = 0 ↔ w.Unheld f := by
  unfold refcount
  rw [length_eq_zero_iff, eq_nil_iff_forall_not_mem]
  constructor
  · intro hnone h hheld
    exact hnone (h, f) (mem_holding.mpr ⟨hheld, rfl⟩)
  · intro hnone e he
    exact hnone e.1 (mem_holding.mp he).1

theorem holder_unique (hcount : w.refcount f ≤ 1) {h h' : Holder} (hh : w.Holds h f)
    (hh' : w.Holds h' f) : h = h' := by
  have hmem : (h, f) ∈ w.holders.filter (fun h => h.2 = f) := mem_holding.mpr ⟨hh, rfl⟩
  have hmem' : (h', f) ∈ w.holders.filter (fun h => h.2 = f) := mem_holding.mpr ⟨hh', rfl⟩
  unfold refcount at hcount
  generalize w.holders.filter (fun h => h.2 = f) = l at hcount hmem hmem'
  match l, hcount with
  | [], _ => cases hmem
  | [e], _ =>
    have heq := (mem_singleton.mp hmem).trans (mem_singleton.mp hmem').symm
    exact congrArg Prod.fst heq

theorem refcount_eq_one (hh : w.Holds h f) (honly : ∀ h', w.Holds h' f → h' = h) :
    w.refcount f = 1 := by
  have hperm : (w.holders.filter (fun h => h.2 = f)).Perm [(h, f)] := by
    refine (perm_ext_iff_of_nodup (w.holders_nodup.filter _) (nodup_singleton _)).mpr ?_
    intro e
    rw [mem_holding, mem_singleton]
    constructor
    · rintro ⟨hheld, rfl⟩
      exact Prod.ext (honly _ hheld) rfl
    · rintro rfl
      exact ⟨hh, rfl⟩
  exact hperm.length_eq

/-- If the frame is held at all, something other than a page table entry holds it. -/
def Shareable (w : World) (f : Frame) : Prop :=
  ∀ h, w.Holds h f → ∃ h', w.Holds h' f ∧ ∀ i p, h' ≠ .pte i p

theorem Unheld.shareable (h : w.Unheld f) : w.Shareable f := fun holder hheld =>
  absurd hheld (h holder)

/-- A writable entry of a private mapping is the only holder of its frame. -/
def Exclusive (w : World) : Prop :=
  ∀ i p v pte, w.spaces.get? i = some v → v.vmSpace.get? p = some pte → pte.flags.w = true →
    v.PrivateAt p → ∀ h, w.Holds h pte.frame → h = .pte i p

/-- A frame that something else holds as well is not behind a writable private entry. -/
theorem Exclusive.not_shareable (h : w.Exclusive) {i p : Nat}
    (hv : w.spaces.get? i = some v) (hpte : v.vmSpace.get? p = some pte)
    (hwrite : pte.flags.w = true) (hpriv : v.PrivateAt p) : ¬ w.Shareable pte.frame := by
  intro hshare
  obtain ⟨h', hheld, hother⟩ := hshare (.pte i p) ⟨v, pte, hv, hpte, rfl⟩
  exact hother i p (h i p v pte hv hpte hwrite hpriv h' hheld)

/-- Dropping address spaces and holders, and adding holders of shareable frames. -/
theorem Exclusive.of_holders (h : w.Exclusive)
    (hspaces : ∀ i v, w'.spaces.get? i = some v → w.spaces.get? i = some v)
    (hheld : ∀ h f, w'.Holds h f → w.Holds h f ∨ w.Shareable f) : w'.Exclusive := by
  intro i p v pte hv hpte hwrite hpriv holder hholds
  rcases hheld holder pte.frame hholds with hold | hshare
  · exact h i p v pte (hspaces i v hv) hpte hwrite hpriv holder hold
  · exact absurd hshare (h.not_shareable (hspaces i v hv) hpte hwrite hpriv)

/-- Replace one address space. -/
def withSpace (w : World) (i : Nat) (v : Vmar) : World := { w with spaces := w.spaces.insert i v }

theorem withSpace_holds (hheld : (w.withSpace i v').Holds h f) :
    (∃ p pte, h = .pte i p ∧ v'.vmSpace.get? p = some pte ∧ pte.frame = f) ∨
      (∀ p, h ≠ .pte i p) ∧ w.Holds h f := by
  cases h with
  | pte j p =>
    obtain ⟨v, pte, hv, hpte, hframe⟩ := hheld
    rcases get?_insert_cases hv with ⟨rfl, rfl⟩ | ⟨hji, hv⟩
    · exact .inl ⟨p, pte, rfl, hpte, hframe⟩
    · exact .inr ⟨by simp [hji], v, pte, hv, hpte, hframe⟩
  | page object offset | zero => exact .inr ⟨by simp, hheld⟩

/-- An address space whose entries only moved or lost rights. -/
theorem Exclusive.evolves (h : w.Exclusive) {v : Vmar}
    (hv : w.spaces.get? i = some v) (hevolves : v.Evolves v') : (w.withSpace i v').Exclusive := by
  obtain ⟨origin, horigin, hinj⟩ := hevolves
  intro j p u pte hu hpte hwrite hpriv holder hholds
  rcases get?_insert_cases hu with ⟨rfl, rfl⟩ | ⟨hji, hu⟩
  · obtain ⟨pte₀, hpte₀, hframe, hwas⟩ := horigin p pte hpte
    obtain ⟨hwrite₀, hpriv₀⟩ := hwas hwrite hpriv
    have honly := h j (origin p) v pte₀ hv hpte₀ hwrite₀ hpriv₀
    rcases withSpace_holds hholds with ⟨q, qte, rfl, hqte, hqframe⟩ | ⟨hother, hold⟩
    · obtain ⟨qte₀, hqte₀, hqframe₀, _⟩ := horigin q qte hqte
      have hsame := honly (.pte j (origin q))
        ⟨v, qte₀, hv, hqte₀, by rw [← hqframe₀, hqframe, hframe]⟩
      rw [hinj q p (by simp [hqte]) (by simp [hpte]) (by simpa using hsame)]
    · exact absurd (honly holder (hframe ▸ hold)) (hother _)
  · have honly := h j p u pte hu hpte hwrite hpriv
    rcases withSpace_holds hholds with ⟨q, qte, rfl, hqte, hqframe⟩ | ⟨_, hold⟩
    · obtain ⟨qte₀, hqte₀, hqframe₀, _⟩ := horigin q qte hqte
      have hsame := honly (.pte i (origin q)) ⟨v, qte₀, hv, hqte₀, by rw [← hqframe₀, hqframe]⟩
      simp only [Holder.pte.injEq] at hsame
      exact absurd hsame.1.symm hji
    · exact honly holder hold

/-- A frame may be entered at a page: nothing writes it privately elsewhere, and if the entry
is a writable private one, nothing else holds the frame. -/
structure MayMap (w : World) (i page : Nat) (v : Vmar) (pte : Pte) : Prop where
  elsewhere : w.Shareable pte.frame ∨ w.Holds (.pte i page) pte.frame
  alone : pte.flags.w = true → v.PrivateAt page → ∀ h, w.Holds h pte.frame → h = .pte i page

/-- Entering a page. -/
theorem Exclusive.mapPage (h : w.Exclusive) {i page : Nat}
    (hv : w.spaces.get? i = some v) (hmay : w.MayMap i page v pte) :
    (w.withSpace i { v with vmSpace := v.vmSpace.insert page pte }).Exclusive := by
  -- an entry other than the new one was there before, and the new one's frame is not its frame
  have hothers : ∀ j p u qte, w.spaces.get? j = some u → u.vmSpace.get? p = some qte →
      qte.flags.w = true → u.PrivateAt p → (j, p) ≠ (i, page) → ∀ holder,
      (w.withSpace i { v with vmSpace := v.vmSpace.insert page pte }).Holds holder qte.frame →
      holder = .pte j p := by
    intro j p u qte hu hqte hwrite hpriv hne holder hholds
    have honly := h j p u qte hu hqte hwrite hpriv
    rcases withSpace_holds hholds with ⟨q, rte, rfl, hrte, hframe⟩ | ⟨_, hold⟩
    · rcases get?_insert_cases hrte with ⟨-, rfl⟩ | ⟨-, hrte⟩
      · rcases hmay.elsewhere with hshare | hheld
        · rw [hframe] at hshare
          exact absurd hshare (h.not_shareable hu hqte hwrite hpriv)
        · rw [hframe] at hheld
          have hsame := honly _ hheld
          simp only [Holder.pte.injEq] at hsame
          exact absurd (Prod.ext hsame.1.symm hsame.2.symm) hne
      · exact honly _ ⟨v, rte, hv, hrte, hframe⟩
    · exact honly holder hold
  intro j p u qte hu hqte hwrite hpriv holder hholds
  rcases get?_insert_cases hu with ⟨rfl, rfl⟩ | ⟨hji, hu⟩
  · rcases get?_insert_cases hqte with ⟨rfl, rfl⟩ | ⟨hp, hqte⟩
    · have honly := hmay.alone hwrite hpriv
      rcases withSpace_holds hholds with ⟨q, rte, rfl, hrte, hframe⟩ | ⟨hother, hold⟩
      · rcases get?_insert_cases hrte with ⟨rfl, -⟩ | ⟨-, hrte⟩
        · rfl
        · exact honly _ ⟨v, rte, hv, hrte, hframe⟩
      · exact honly holder hold
    · exact hothers j p v qte hv hqte hwrite hpriv (by simp [hp]) holder hholds
  · exact hothers j p u qte hu hqte hwrite hpriv (by simp [hji]) holder hholds

end World

end Petra.Vm
