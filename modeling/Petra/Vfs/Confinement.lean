import Petra.Vfs.Lookup
import Petra.Vfs.Mounts

/-! # Lookups stay below the root

A walk leaves the subtree of its root only upwards. From the root of a mounted file system the
way up leads through the mount point, one mount at a time.
-/

namespace Petra.Vfs.Dcache

open Option Nat

variable {v v' : Dcache} {R n start : PathNode} {k : Nat} {path : List Char} {noFollow : Bool}

/-- The subtree of a node, across the mounts on it. -/
inductive Inside (v : Dcache) (R : PathNode) : PathNode → Prop
  | root : Inside v R R
  | child {m d c : Nat} (above : Inside v R ⟨m, d⟩) (hparent : (v.dentry c).parent = some d)
      (hc : c < v.nextDentry) (hroot : ¬ v.IsRoot c) : Inside v R ⟨m, c⟩
  | mounted {m d m' : Nat} (above : Inside v R ⟨m, d⟩) (hm : m' ∈ (v.dentry d).mounts) :
      Inside v R ⟨m', (v.mount m').root⟩

/-- Below the root, nothing is mounted on the root of a mounted file system whose parent is
still there. -/
def Unstacked (v : Dcache) (R : PathNode) : Prop :=
  ∀ m d m', v.Inside R ⟨m, d⟩ → m' ∈ (v.dentry d).mounts → (⟨m, d⟩ : PathNode) ≠ R →
    d = (v.mount m).root → v.parent d = none

/-! ### The subtree -/

theorem Inside.paired (hn : v.Inside R n) (h : v.Wf)
    (hR : v.Paired R.mount R.dentry) : v.Paired n.mount n.dentry := by
  induction hn with
  | root => exact hR
  | child _ hparent hc hroot ih => exact .child ih hparent hc hroot
  | mounted _ hm => exact .root (h.mounted _ _ hm).1

/-- Nothing in the subtree is older than its root. -/
theorem Inside.le (hn : v.Inside R n) (h : v.Wf) : R.dentry ≤ n.dentry := by
  induction hn with
  | root => exact le_rfl
  | child _ hparent _ _ ih => exact ih.trans (le_of_lt (h.parent _ _ hparent))
  | mounted _ hm ih => exact ih.trans (le_of_lt (h.mounted _ _ hm).2.1)

/-- A mounted file system is left to where it was entered. -/
theorem mountPoint_eq {m d m' : Nat} (h : v.Wf) (hpaired : v.Paired m d)
    (hm : m' ∈ (v.dentry d).mounts) : (v.mount m').mountPoint = some ⟨m, d⟩ := by
  obtain ⟨-, -, m'', hpoint, hpaired'⟩ := h.mounted d m' hm
  rw [hpoint, hpaired'.unique hpaired h]

theorem Extends.inside (hext : v.Extends v') (hn : v.Inside R n) : v'.Inside R n := by
  induction hn with
  | root => exact .root
  | child _ hparent hc hroot ih =>
    exact .child ih ((hext.parent _ hc).trans hparent) (hc.trans_le hext.next)
      (fun hr => hroot (hext.isRoot.mp hr))
  | mounted _ hm ih =>
    rw [← hext.mount]
    exact .mounted ih (by rw [hext.mounts]; exact hm)

/-- The part of the subtree that was there before is the same. -/
theorem Extends.inside_of_old (hext : v.Extends v') (h' : v'.Wf) (h : v.Wf)
    (hn : v'.Inside R n) (hold : n.dentry < v.nextDentry) : v.Inside R n := by
  induction hn with
  | root => exact .root
  | child _ hparent _ hroot ih =>
    have hup := (h'.parent _ _ hparent).trans hold
    exact .child (ih hup) ((hext.parent _ hold).symm.trans hparent) hold
      (fun hr => hroot (hext.isRoot.mpr hr))
  | mounted _ hm ih =>
    rw [hext.mounts] at hm
    rw [hext.mount]
    obtain ⟨hlt, hbelow, -⟩ := h.mounted _ _ hm
    exact .mounted (ih (hbelow.trans (h.root _ hlt))) hm

theorem Extends.parent_eq (hext : v.Extends v') (h : v.Wf) {d : Nat} (hd : d < v.nextDentry) :
    v'.parent d = v.parent d := by
  unfold Dcache.parent
  rw [hext.parent d hd]
  cases hparent : (v.dentry d).parent with
  | none => rfl
  | some p =>
    have hp : p < v.nextDentry := (h.parent d p hparent).trans hd
    simp only [filter_some, hext.alive p hp]

theorem Extends.unstacked (hext : v.Extends v') (h : v.Wf) (h' : v'.Wf)
    (hflat : v.Unstacked R) : v'.Unstacked R := by
  intro m d m' hin hm hne hroot
  rw [hext.mounts] at hm
  rw [hext.mount] at hroot
  obtain ⟨hlt, hbelow, -⟩ := h.mounted d m' hm
  have hd : d < v.nextDentry := hbelow.trans (h.root _ hlt)
  rw [hext.parent_eq h hd]
  exact hflat m d m' (hext.inside_of_old h' h hin hd) hm hne hroot

/-! ### The steps of a walk -/

/-- Going up to the parent, from a node that is not the root of its mount. -/
theorem Inside.up {m d : Nat} (hn : v.Inside R ⟨m, d⟩) (hne : (⟨m, d⟩ : PathNode) ≠ R)
    (hflat : d = (v.mount m).root → v.parent d = none) :
    v.Inside R (match v.parent d with
      | some p => ⟨m, p⟩
      | none => ⟨m, d⟩) := by
  cases hparent : v.parent d with
  | none => exact hn
  | some p =>
    have hsome : (v.dentry d).parent = some p := (filter_eq_some_iff.mp hparent).1
    generalize hnode : (⟨m, d⟩ : PathNode) = n at hn
    cases hn with
    | root => exact absurd hnode hne
    | child above hparent' _ _ =>
      cases hnode
      rw [hsome] at hparent'
      cases hparent'
      exact above
    | mounted _ _ =>
      cases hnode
      rw [hflat rfl] at hparent
      cases hparent

theorem Inside.stepUp (hn : v.Inside R n) (h : v.Wf)
    (hR : v.Paired R.mount R.dentry) (hflat : v.Unstacked R) : v.Inside R (v.stepUp R n) := by
  obtain ⟨m, d⟩ := n
  unfold stepUp
  by_cases heq : (⟨m, d⟩ : PathNode) = R
  · rw [if_pos heq]
    exact hn
  rw [if_neg heq]
  by_cases hroot : d = (v.mount m).root
  · rw [if_pos hroot]
    -- The root of a mount other than `R` was entered from its mount point.
    have hentered : ∃ m₀ d₀, v.Inside R ⟨m₀, d₀⟩ ∧ m ∈ (v.dentry d₀).mounts := by
      generalize hnode : (⟨m, d⟩ : PathNode) = n at hn
      cases hn with
      | root => exact absurd hnode heq
      | child above hparent hc hnot =>
        cases hnode
        exact absurd ⟨m, (Inside.paired above h hR).lt_mount, hroot.symm⟩ hnot
      | mounted above hm =>
        cases hnode
        exact ⟨_, _, above, hm⟩
    obtain ⟨m₀, d₀, hin, hm⟩ := hentered
    rw [mountPoint_eq h (hin.paired h hR) hm, getD_some]
    by_cases heq' : (⟨m₀, d₀⟩ : PathNode) = R
    · rw [if_pos heq']
      exact hin
    · rw [if_neg heq']
      exact hin.up heq' (hflat m₀ d₀ m hin hm heq')
  · rw [if_neg hroot, if_neg heq]
    exact hn.up heq (fun hr => absurd hr hroot)

theorem Inside.enter {m d c : Nat} (hn : v.Inside R ⟨m, d⟩) (hc : c < v.nextDentry)
    (hparent : (v.dentry c).parent = some d) (hroot : ¬ v.IsRoot c) :
    v.Inside R (v.enter ⟨m, d⟩ c) := by
  have hchild : v.Inside R ⟨m, c⟩ := .child hn hparent hc hroot
  unfold Dcache.enter
  cases hlast : (v.dentry c).mounts.getLast? with
  | none => exact hchild
  | some m' => exact .mounted hchild (List.mem_of_getLast? hlast)

/-! ### Whole walks -/

/-- What a walk keeps that starts in the subtree of a root without stacked mounts. -/
structure Confined (R : PathNode) (v : Dcache) : Prop where
  wf : v.Wf
  root : v.Paired R.mount R.dentry
  flat : v.Unstacked R

theorem inside_lookup (h : Confined R v) (hstart : v.Inside R start) {flags : LookupFlags} :
    Confined R (v.lookup R start path flags).2 ∧
      ∀ n, (v.lookup R start path flags).1 = .ok n →
        (v.lookup R start path flags).2.Inside R n := by
  have hkept := @kept_lookup v R (Confined R) (fun v => v.Inside R)
    (fun v n hv hn => hn.stepUp hv.wf hv.root hv.flat) (by
      intro v n name hv hn
      obtain ⟨hext, hwf, hok⟩ := resolve_spec hv.wf ((hn.paired hv.wf hv.root).lt hv.wf) name
      refine ⟨⟨hwf, hext.paired hv.root, hext.unstacked hv.wf hwf hv.flat⟩,
        fun n' hn' => hext.inside hn', fun c hc => ?_⟩
      obtain ⟨hlt, hparent, hroot⟩ := hok c hc
      exact (hext.inside hn).enter hlt hparent hroot) (fun v _ => .root) start path flags h hstart
  exact ⟨hkept.1, hkept.2.2⟩

/-! ### Links -/

/-- The count of followed links grows and stays within the limit. -/
def Counted (k : Nat) (w : Walked) : Prop :=
  ∀ n k', w.1 = .ok (n, k') → k ≤ k' ∧ k' ≤ maxSymlinkDepth

theorem counted_checkSlash {w : Walked} (h : Counted k w) (path : List Char) :
    Counted k (checkSlash path w) := by
  rcases checkSlash_cases path w with heq | ⟨e, heq⟩ <;> rw [heq]
  · exact h
  · exact nofun

theorem counted_walk {follow : Follow} {stay : Bool} (comps : List Name)
    (hfollow : ∀ v n target k, k ≤ maxSymlinkDepth → Counted k (follow v n target k))
    (hk : k ≤ maxSymlinkDepth) :
    Counted k (walk follow R stay comps v n k) := by
  fun_induction walk follow R stay comps v n k with
  | case1 =>
    intro n' k' heq
    cases heq
    exact ⟨le_rfl, hk⟩
  | case2 _ _ _ _ ih | case3 _ _ _ _ _ ih | case5 _ _ _ _ _ _ _ _ _ _ _ ih => exact ih hk
  | case4 | case6 | case7 | case8 => simp [Counted]
  | case9 _ _ _ n k _ _ _ v' _ target _ hlimit _ n₁ k₁ _ hto ih =>
    have hcount := hfollow v' n target (k + 1) (Nat.le_of_not_lt hlimit)
    rw [hto] at hcount
    obtain ⟨hgrow, hbound⟩ := hcount n₁ k₁ rfl
    intro n' k' heq
    obtain ⟨hle, hle'⟩ := ih hbound n' k' heq
    exact ⟨by omega, hle'⟩

theorem counted_lookupInner (fuel : Nat) (hk : k ≤ maxSymlinkDepth) :
    Counted k (lookupInner R fuel v start path noFollow k) := by
  induction fuel generalizing v start path noFollow k with
  | zero => exact nofun
  | succ fuel ih =>
    exact counted_checkSlash (counted_walk _ (fun _ _ _ _ => ih) hk) path

/-- Two ways to follow links that agree up to the limit give the same walk. -/
theorem walk_congr {follow follow' : Follow} {stay : Bool} (comps : List Name)
    (hcount : ∀ v n target k, k ≤ maxSymlinkDepth → Counted k (follow v n target k))
    (hagree : ∀ v n target k', k < k' → k' ≤ maxSymlinkDepth →
      follow v n target k' = follow' v n target k') :
    walk follow R stay comps v n k = walk follow' R stay comps v n k := by
  fun_induction walk follow R stay comps v n k with
  | case1 => rfl
  | case2 _ _ _ _ ih | case3 _ _ _ _ _ ih | case5 _ _ _ _ _ _ _ _ _ _ _ ih =>
    simp only [walk, *, if_true, if_false]
    exact ih hagree
  | case4 | case6 | case7 => simp only [walk, *, if_true, if_false]
  | case8 _ _ _ _ _ _ _ _ _ _ _ _ hlimit _ _ _ hto =>
    rw [hagree _ _ _ _ (lt_succ_self _) (Nat.le_of_not_lt hlimit)] at hto
    simp only [walk, *, if_false]
  | case9 _ _ _ n k _ _ _ v' _ target _ hlimit _ n₁ k₁ _ hto ih =>
    have hle := Nat.le_of_not_lt hlimit
    have hgrow := hcount v' n target (k + 1) hle
    rw [hto] at hgrow
    obtain ⟨hge, -⟩ := hgrow n₁ k₁ rfl
    rw [hagree _ _ _ _ (lt_succ_self _) hle] at hto
    simp only [walk, *, if_false]
    exact ih fun v n target k' hk' hle' => hagree v n target k' (by omega) hle'

/-- The limit on links ends a walk, never the fuel. -/
theorem lookupInner_fuel (fuel fuel' : Nat) (hfuel : maxSymlinkDepth < fuel + k) (hpos : 0 < fuel)
    (hfuel' : maxSymlinkDepth < fuel' + k) (hpos' : 0 < fuel') :
    lookupInner R fuel v start path noFollow k = lookupInner R fuel' v start path noFollow k := by
  induction fuel generalizing fuel' v start path noFollow k with
  | zero => exact absurd hpos (lt_irrefl 0)
  | succ fuel ih =>
    obtain ⟨fuel'', rfl⟩ : ∃ n, fuel' = n + 1 := ⟨fuel' - 1, by omega⟩
    unfold lookupInner
    dsimp only
    refine congrArg _ (walk_congr _ (fun _ _ _ _ => counted_lookupInner fuel) ?_)
    intro v n target k' hk' hle
    exact ih fuel'' (by omega) (by omega) (by omega) (by omega)

/-! ### The result -/

/-- A walk that goes up once. -/
theorem lookup_dotDot (v : Dcache) (R start : PathNode) :
    v.lookup R start dotDot ⟨false, false⟩ = (.ok (v.stepUp R start), v) := by
  unfold lookup
  unfold lookupInner
  rfl

/-- Lookups below a root return nodes below it, each with the mount it belongs to, exactly if no
mounts are stacked there. They end after at most forty links in any case. -/
theorem confined_iff_unstacked (h : v.Wf) (hR : v.Paired R.mount R.dentry) :
    ((∀ start path flags n v', v.Inside R start → v.lookup R start path flags = (.ok n, v') →
        v'.Inside R n ∧ v'.Paired n.mount n.dentry) ↔ v.Unstacked R) ∧ ∀ start path noFollow,
        (∀ fuel, maxSymlinkDepth < fuel → lookupInner R fuel v start path noFollow 0 =
          lookupInner R (maxSymlinkDepth + 1) v start path noFollow 0) ∧
        ∀ n k v', lookupInner R (maxSymlinkDepth + 1) v start path noFollow 0 =
          (.ok (n, k), v') → k ≤ maxSymlinkDepth := by
  refine ⟨⟨?_, ?_⟩, ?_⟩
  · -- Going up once from the upper of two stacked mounts ends in a wrong pair.
    intro hall m d m' hin hm hne hroot
    cases hparent : v.parent d with
    | none => rfl
    | some p =>
      obtain ⟨hlt, hbelow, -⟩ := h.mounted d m' hm
      have hpoint := mountPoint_eq h (hin.paired h hR) hm
      have hstart : v.Inside R ⟨m', (v.mount m').root⟩ := .mounted hin hm
      have hnotRoot : (⟨m', (v.mount m').root⟩ : PathNode) ≠ R := by
        intro heq
        have hle := hin.le h
        rw [← heq] at hle
        exact absurd hbelow (not_lt.mpr hle)
      have hup : v.stepUp R ⟨m', (v.mount m').root⟩ = ⟨m, p⟩ := by
        unfold stepUp
        simp only [if_neg hnotRoot, if_true, hpoint, getD_some, if_neg hne, hparent]
      have hend := hall _ dotDot ⟨false, false⟩ _ _ hstart (lookup_dotDot v R _)
      rw [hup] at hend
      have hle : d ≤ p := hroot ▸ hend.2.root_le h
      have hgt : p < d := h.parent d p (filter_eq_some_iff.mp hparent).1
      exact absurd hgt (not_lt.mpr hle)
  · intro hflat start path flags n v' hstart hrun
    obtain ⟨hconfined, hinside⟩ := @inside_lookup v R start path ⟨h, hR, hflat⟩ hstart flags
    rw [hrun] at hconfined hinside
    have hn := hinside n rfl
    exact ⟨hn, hn.paired hconfined.wf hconfined.root⟩
  · intro start path noFollow
    refine ⟨?_, ?_⟩
    · intro fuel hfuel
      exact lookupInner_fuel fuel (maxSymlinkDepth + 1) hfuel (by omega) (lt_succ_self _)
        (succ_pos _)
    · intro n k v' hrun
      have hcount := @counted_lookupInner v R start 0 path noFollow (maxSymlinkDepth + 1) (zero_le _)
      rw [hrun] at hcount
      exact (hcount n k rfl).2

/-- The directory was looked up and a file system is mounted on it. -/
def oneMount : Dcache :=
  ((initial sampleNodes 0).newChild 0 ['a'] (some 1)).mountAt ⟨0, 1⟩ (some 2)

/-- Another file system is mounted on the root of the first one. -/
def twoMounts : Dcache := oneMount.mountAt ⟨1, 2⟩ (some 3)

theorem wf_oneMount : oneMount.Wf ∧ oneMount.Paired 0 0 ∧ oneMount.Paired 0 1 := by
  have hwf := wf_initial sampleNodes 0
  have hroot : (initial sampleNodes 0).Paired 0 0 := .root Nat.zero_lt_one
  have hdir : ((initial sampleNodes 0).newChild 0 ['a'] (some 1)).Paired 0 1 := by
    have hlt : 0 < (initial sampleNodes 0).nextDentry := Nat.zero_lt_one
    refine .child ((extends_newChild hlt hwf).paired hroot) rfl (by decide) ?_
    intro hr
    obtain ⟨m, -, hm⟩ := hr
    cases hm
  refine ⟨(hwf.newChild Nat.zero_lt_one).mountAt hdir, .root (by decide), ?_⟩
  exact paired_mountAt (by decide) hdir

theorem confined_oneMount : oneMount.Wf ∧ oneMount.Paired 0 0 ∧
      ((∀ start path flags n v', oneMount.Inside ⟨0, 0⟩ start →
        oneMount.lookup ⟨0, 0⟩ start path flags = (.ok n, v') →
          v'.Inside ⟨0, 0⟩ n ∧ v'.Paired n.mount n.dentry) ↔ oneMount.Unstacked ⟨0, 0⟩) :=
  ⟨wf_oneMount.1, wf_oneMount.2.1, (confined_iff_unstacked wf_oneMount.1 wf_oneMount.2.1).1⟩

/-- Below the directory, going up twice from the upper mount leaves it. -/
theorem not_confined_twoMounts :
    twoMounts.Wf ∧ twoMounts.Paired 0 1 ∧ twoMounts.Inside ⟨0, 1⟩ ⟨2, 3⟩ ∧
      twoMounts.lookup ⟨0, 1⟩ ⟨2, 3⟩ ['.', '.', '/', '.', '.'] ⟨false, false⟩ =
        (.ok ⟨1, 0⟩, twoMounts) ∧ ¬ twoMounts.Inside ⟨0, 1⟩ ⟨1, 0⟩ ∧ ¬ twoMounts.Paired 1 0 := by
  obtain ⟨hone, -, hdir⟩ := wf_oneMount
  have hwf : twoMounts.Wf := hone.mountAt (.root (by decide))
  have hlower : twoMounts.Inside ⟨0, 1⟩ ⟨1, 2⟩ := .mounted .root (.head _)
  refine ⟨hwf, paired_mountAt (by decide) hdir,
    .mounted hlower (.head _), rfl, ?_, ?_⟩
  · intro hin
    exact absurd (hin.le hwf) (by decide)
  · intro hpaired
    exact absurd (hpaired.root_le hwf) (by decide)

end Petra.Vfs.Dcache
