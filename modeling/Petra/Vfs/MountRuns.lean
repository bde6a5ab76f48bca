import Petra.Vfs.CacheCoherence
import Petra.Vfs.Routes

/-! # Mounts on a path

After a mount the path leads to the mounted file system, from there `..` leads to the parent of
what is covered, and an unmount uncovers it. A mount on the root of another one is not found,
because a lookup crosses one mount for each name.
-/

namespace Petra.Vfs

open Base Option Nat Dcache Prod

namespace Dcache

variable {v w w' : Dcache} {root t : PathNode} {ino : Option Nat} {P : Nat → Prop}

/-- Nothing is mounted on the root of a mounted file system. -/
structure Flat (v : Dcache) : Prop where
  wf : v.Wf
  alive : ∀ d, v.alive d = true
  bare : ∀ d m, m ∈ (v.dentry d).mounts → ¬ v.IsRoot d

namespace Flat

theorem parent (h : v.Flat) (d : Nat) : v.parent d = (v.dentry d).parent := by
  unfold Dcache.parent
  cases (v.dentry d).parent with
  | none => rfl
  | some p => rw [filter_some, if_pos (h.alive p)]

theorem grown (h : v.Flat) (hgrown : v.Grown w) : w.Flat where
  wf := hgrown.wf
  alive d := hgrown.alive d (h.alive d)
  bare d m hm := by
    rw [hgrown.ext.mounts] at hm
    exact fun hroot => h.bare d m hm (hgrown.ext.isRoot.mp hroot)

theorem mountAt (h : v.Flat) (hpaired : v.Paired t.mount t.dentry) (hnot : ¬ v.IsRoot t.dentry) :
    (v.mountAt t ino).Flat where
  wf := h.wf.mountAt hpaired
  alive d := by
    change Function.update v.alive v.nextDentry true d = true
    by_cases hd : d = v.nextDentry
    · rw [hd, Function.update_self]
    · rw [Function.update_of_ne hd]
      exact h.alive d
  bare d m hm := by
    have ht := hpaired.lt h.wf
    by_cases hd : d = v.nextDentry
    · subst hd
      rw [mountAt_dentry_new ht] at hm
      cases hm
    by_cases heq : d = t.dentry
    · rw [heq, isRoot_mountAt ht]
      exact hnot
    · rw [mountAt_dentry_of_ne heq hd] at hm
      obtain ⟨hlt, hbelow, -⟩ := h.wf.mounted d m hm
      rw [isRoot_mountAt (hbelow.trans (h.wf.root m hlt))]
      exact h.bare d m hm

theorem detach (h : v.Flat) {m : Nat} {p : PathNode} (hpoint : (v.mount m).mountPoint = some p) :
    (v.detach m p.dentry).Flat where
  wf := h.wf.detach hpoint
  alive := h.alive
  bare d k hk := by
    rw [isRoot_detach]
    exact h.bare d k (mem_mounts_detach hpoint h.wf hk).2

theorem initial (nodes : Nodes) (ino : Nat) : (Dcache.initial nodes ino).Flat where
  wf := wf_initial nodes ino
  alive _ := rfl
  bare d m hm := by
    simp only [Dcache.initial] at hm
    split_ifs at hm <;> cases hm

/-- What is looked up from the root belongs to its mount. -/
theorem lookup (h : v.Flat) (hroot : v.Paired root.mount root.dentry) {path : List Char}
    {flags : LookupFlags} (hlookup : v.lookup root root path flags = (.ok t, w)) :
    w.Paired t.mount t.dentry ∧ v.Grown w := by
  have hvalid : v.Valid root := ⟨hroot.lt_mount, hroot.lt h.wf⟩
  have hconfined : Confined root v := by
    refine ⟨h.wf, hroot, ?_⟩
    intro m d m' hin hm _ hd
    exact absurd ⟨m, (hin.paired h.wf hroot).lt_mount, hd.symm⟩ (h.bare d m' hm)
  obtain ⟨hend, hinside⟩ := @inside_lookup v root root path hconfined .root flags
  have hgrown := (grown_lookup h.wf hvalid hvalid path flags).1
  rw [hlookup] at hend hinside hgrown
  exact ⟨(hinside t rfl).paired hend.wf hend.root, hgrown⟩

end Flat

/-! ### What mounts leave alone -/

theorem undisturbed_mountAt (h : v.Flat) (h' : (v.mountAt t ino).Flat)
    (ht : t.dentry < v.nextDentry) (hP : ¬ P t.dentry) : v.Undisturbed (v.mountAt t ino) P := by
  have hmount : ∀ m < v.nextMount, (v.mountAt t ino).mount m = v.mount m := fun m hm =>
    mountAt_mount_of_ne hm.ne
  refine ⟨rfl, le_succ _, le_succ _, ?_, ?_, ?_, ?_, ?_, ?_⟩
  · intro d hd
    obtain ⟨mounts, heq⟩ := @mountAt_dentry_old v t ino ht d hd.ne
    rw [getInode, heq]
    rfl
  · intro d hd
    rw [h.parent, h'.parent, parent_mountAt ht hd]
  · intro m hm
    rw [hmount m hm]
  · intro m hm _
    rw [hmount m hm]
  · intro d name c _ hmem _
    rw [children_mountAt ht h.wf]
    exact hmem
  · intro d hd
    by_cases hnew : d = v.nextDentry
    · subst hnew
      rw [mountAt_dentry_new ht, (h.wf.fresh _ le_rfl).2]
    · rw [mountAt_dentry_of_ne (fun heq => hP (heq ▸ hd)) hnew]

theorem undisturbed_detach (h : v.Flat) {m : Nat} {p : PathNode}
    (hpoint : (v.mount m).mountPoint = some p) (hP : ¬ P p.dentry)
    (hroot : ¬ P (v.mount m).root) : v.Undisturbed (v.detach m p.dentry) P := by
  refine ⟨rfl, le_rfl, le_rfl, ?_, ?_, ?_, ?_, ?_, ?_⟩
  · exact fun d _ => getInode_detach v m p.dentry d
  · intro d _
    rw [(h.detach hpoint).parent, h.parent, detach_dentry]
  · exact fun k _ => detach_root v m p.dentry k
  · intro k _ hk
    rw [detach_mount_of_ne]
    intro heq
    exact hroot (heq ▸ hk)
  · intro d name c hd hmem _
    refine mem_children_detach.mpr ⟨?_, hmem⟩
    intro heq
    exact hroot (heq ▸ hd)
  · intro d hd
    have hne : d ≠ p.dentry := fun heq => hP (heq ▸ hd)
    rw [detach_dentry]
    exact if_neg hne

/-- An unmount fails, or it detaches the mount. -/
theorem umount_cases (v : Dcache) (n : PathNode) : (∃ e, v.umount n = (.error e, v)) ∨
      ∃ p, n.dentry = (v.mount n.mount).root ∧ (v.mount n.mount).mountPoint = some p ∧
        v.umount n = (.ok (), v.detach n.mount p.dentry) := by
  unfold umount
  by_cases hroot : n.dentry = (v.mount n.mount).root
  · rw [if_neg (not_not.mpr hroot)]
    cases hpoint : (v.mount n.mount).mountPoint with
    | none => exact .inl ⟨_, rfl⟩
    | some p =>
      split_ifs
      · exact .inl ⟨_, rfl⟩
      · exact .inr ⟨p, hroot, rfl, rfl⟩
  · rw [if_pos hroot]
    exact .inl ⟨_, rfl⟩

/-! ### A covered dentry -/

/-- The heap `v` with the mount `m` on `t` and other changes off the way. -/
structure Covered (v w : Dcache) (way : List Nat) (t : PathNode) (m r : Nat) : Prop where
  flat : w.Flat
  same : v.Undisturbed w fun d => d ∈ way ∧ d ≠ t.dentry
  mounts : (w.dentry t.dentry).mounts = (v.dentry t.dentry).mounts ++ [m]
  mount : w.mount m = ⟨some t, r⟩
  fresh : v.nextMount ≤ m ∧ v.nextDentry ≤ r
  lt : m < w.nextMount ∧ r < w.nextDentry
  dir : w.isDirAt ⟨m, r⟩ = true

variable {way : List Nat} {m r : Nat} {S : List Stop}

/-- A change off the way. -/
theorem Covered.next (h : v.Covered w way t m r) (hv : v.Wf) (ht : t.dentry ∈ way)
    (hflat : w'.Flat) (hsame : w.Undisturbed w' fun d => d ∈ way)
    (hmount : w'.mount m = w.mount m) : v.Covered w' way t m r where
  flat := hflat
  same := h.same.trans (hsame.mono fun _ hd => hd.1) hv
  mounts := (hsame.mounts _ ht).trans h.mounts
  mount := hmount.trans h.mount
  fresh := h.fresh
  lt := ⟨h.lt.1.trans_le hsame.nextMount, h.lt.2.trans_le hsame.next⟩
  dir := (hsame.isDirAt h.lt.2).trans h.dir

theorem covered_mountAt (h : v.Flat) (hgrown : v.Grown w)
    (hpaired : v.Paired t.mount t.dentry) (hnot : ¬ v.IsRoot t.dentry) {i : Nat}
    (hi : w.nodes.isDir i = true) :
    v.Covered (w.mountAt t (some i)) way t w.nextMount w.nextDentry := by
  have hw := h.grown hgrown
  have hpaired' := hgrown.ext.paired hpaired
  have ht := hpaired'.lt hw.wf
  have hflat : (w.mountAt t (some i)).Flat :=
    hw.mountAt hpaired' fun hroot => hnot (hgrown.ext.isRoot.mp hroot)
  refine ⟨hflat, ?_, ?_, mountAt_mount_new, ?_, ⟨lt_succ_self _, lt_succ_self _⟩, ?_⟩
  · refine (hgrown.undisturbed h.wf _).trans (undisturbed_mountAt hw hflat ht ?_) h.wf
    exact fun hd => hd.2 rfl
  · rw [mountAt_dentry_target ht, ← hgrown.ext.mounts]
  · exact ⟨le_of_eq hgrown.ext.nextMount.symm, hgrown.ext.next⟩
  · have hnew : (w.mountAt t (some i)).getInode w.nextDentry = some i := by
      rw [getInode, mountAt_dentry_new ht]
      rfl
    rw [isDirAt, hnew]
    exact hi

section

variable (h : v.Covered w way t m r) (hv : v.Wf) (hway : ∀ d ∈ S.map Stop.dentry, d ∈ way)
  (ht : Stop.passed t.dentry ∉ S)

include h hv hway ht

/-- The path leads to the root of the mount. -/
theorem Covered.shows (hnot : ¬ v.IsRoot t.dentry) (hroot : root.dentry ≠ t.dentry) :
    v.Shows w root S fun n => if n.dentry = t.dentry then ⟨m, r⟩ else n := by
  refine @Undisturbed.shows v w root S t.dentry (fun _ => ⟨m, r⟩) (h.same.mono ?_) hv h.flat.wf
    ht hnot hroot ?_ ?_
  · exact fun d hd => ⟨hway d hd.1, hd.2.1⟩
  · intro _ n
    unfold enter
    rw [h.mounts, List.getLast?_concat]
    dsimp only
    rw [h.mount]
  · exact fun _ _ _ _ => h.dir

/-- The path leads to the covered node again. -/
theorem Covered.shows_detach (hnot : ¬ v.IsRoot t.dentry) (hroot : root.dentry ≠ t.dentry) :
    v.Shows (w.detach m t.dentry) root S fun n => if n.dentry = t.dentry then n else n := by
  have hpoint : (w.mount m).mountPoint = some t := by rw [h.mount]
  have hsame : v.Undisturbed (w.detach m t.dentry)
      fun d => d ∈ S.map Stop.dentry ∧ d ≠ t.dentry ∧ d < v.nextDentry := by
    refine (h.same.mono fun d hd => ⟨hway d hd.1, hd.2.1⟩).trans
      (undisturbed_detach h.flat hpoint (fun hd => hd.2.1 rfl) ?_) hv
    rw [h.mount]
    exact fun hd => absurd hd.2.2 (Nat.not_lt_of_le h.fresh.2)
  refine @Undisturbed.shows v _ root S t.dentry (fun n => n) hsame hv (h.flat.detach hpoint).wf ht
    hnot hroot ?_ ?_
  · intro hnone n
    unfold enter
    rw [detach_dentry, h.mounts, hnone]
    simp
  · intro n hn heq hdir
    rw [hsame.isDirAt hn.2]
    exact hdir

end

/-- From the root of the mount, `..` leads where it leads from the covered node. -/
theorem Covered.stepUp (h : v.Covered w way t m r) (ht : v.Valid t)
    (hroot : root.dentry ≠ t.dentry) (hvalid : v.Valid root) {d : Nat}
    (hd : (v.dentry t.dentry).parent = some d) (hv : v.Flat) :
    w.stepUp root ⟨m, r⟩ = ⟨t.mount, d⟩ := by
  have hne : (⟨m, r⟩ : PathNode) ≠ root := by
    intro heq
    rw [← heq] at hvalid
    exact absurd hvalid.2 (Nat.not_lt_of_le h.fresh.2)
  have hne' : t ≠ root := fun heq => hroot (heq ▸ rfl)
  unfold Dcache.stepUp
  rw [if_neg hne, h.mount]
  rw [if_pos rfl, getD_some, if_neg hne', h.same.parent _ ht.2, hv.parent, hd]

end Dcache

namespace VfsOp

open Dcache

variable {v v' w : Dcache} {root t : PathNode} {path : List Char} {op : VfsOp}

/-! ### Runs of mounts and unmounts -/

/-- Lookups, mounts and unmounts, with no mount on the root of a mounted file system. -/
def Flatly (v : Dcache) : VfsOp → Prop
  | .lookup root start _ _ => v.Valid root ∧ v.Valid start
  | .mount root path _ | .bind root _ path => v.reachable root = true ∧
      match v.lookup root root path ⟨false, true⟩ with
      | (.ok t, w) => ∀ m < w.nextMount, (w.mount m).root ≠ t.dentry
      | _ => True
  | .umount root _ => v.reachable root = true
  | _ => False

/-- Nothing is mounted on the dentries `way`, and what is unmounted is neither there nor on one
of them. -/
def Elsewhere (way : List Nat) (v : Dcache) (op : VfsOp) : Prop :=
  Flatly v op ∧
    match op with
    | .mount root path _ | .bind root _ path =>
      match v.lookup root root path ⟨false, true⟩ with
      | (.ok t, _) => t.dentry ∉ way
      | _ => True
    | .umount root path =>
      match v.lookup root root path ⟨false, true⟩ with
      | (.ok n, w) => n.dentry ∉ way ∧ ∀ p ∈ (w.mount n.mount).mountPoint, p.dentry ∉ way
      | _ => True
    | _ => True

/-- What an operation that keeps to `Flatly` does. -/
inductive Mounting (v : Dcache) : VfsOp → Dcache → Prop
  | filled {op : VfsOp} {w : Dcache} (hgrown : v.Grown w) : Mounting v op w
  | mounted {op : VfsOp} {u w : Dcache} {root t : PathNode} {path : List Char} (ino : Option Nat)
      (hop : (∃ i, op = .mount root path i) ∨ ∃ source, op = .bind root source path)
      (hlookup : v.lookup root root path ⟨false, true⟩ = (.ok t, u)) (hgrown : v.Grown u)
      (hgrown' : u.Grown w) (hpaired : u.Paired t.mount t.dentry) (hnot : ¬ u.IsRoot t.dentry) :
      Mounting v op (w.mountAt t ino)
  | detached {w : Dcache} {root n p : PathNode} {path : List Char}
      (hlookup : v.lookup root root path ⟨false, true⟩ = (.ok n, w)) (hgrown : v.Grown w)
      (hroot : n.dentry = (w.mount n.mount).root)
      (hpoint : (w.mount n.mount).mountPoint = some p) :
      Mounting v (.umount root path) (w.detach n.mount p.dentry)

theorem flat_of_mounting (h : v.Flat) (hstep : Mounting v op v') : v'.Flat := by
  cases hstep with
  | filled hgrown => exact h.grown hgrown
  | mounted ino hop hlookup hgrown hgrown' hpaired hnot =>
    refine ((h.grown hgrown).grown hgrown').mountAt (hgrown'.ext.paired hpaired) ?_
    exact fun hroot => hnot (hgrown'.ext.isRoot.mp hroot)
  | detached hlookup hgrown hroot hpoint => exact (h.grown hgrown).detach hpoint

theorem mounting_of_step (h : v.Flat) (hflat : Flatly v op)
    (hstep : step v op = .ok v') : Mounting v op v' := by
  have hpaired : ∀ root : PathNode, v.reachable root = true → v.Paired root.mount root.dentry := by
    intro root hreach
    obtain ⟨place, hstands⟩ := attached_of_reachable hreach
    exact hstands.paired h.wf
  have hfail : ∀ {root : PathNode} {path e u}, v.Paired root.mount root.dentry →
      v.lookup root root path ⟨false, true⟩ = (.error e, u) → Mounting v op u := by
    intro root path e u hroot hlookup
    have hvalid : v.Valid root := ⟨hroot.lt_mount, hroot.lt h.wf⟩
    have hgrown := (grown_lookup h.wf hvalid hvalid path ⟨false, true⟩).1
    rw [hlookup] at hgrown
    exact .filled hgrown
  cases op with
  | lookup root start path flags =>
    cases hstep
    exact .filled (grown_lookup h.wf hflat.1 hflat.2 path flags).1
  | mount root path ino =>
    obtain ⟨hreach, hnot⟩ := hflat
    have hroot := hpaired root hreach
    rcases after_lookup hstep with ⟨e, hlookup⟩ | ⟨t, u, hlookup, hend⟩
    · exact hfail hroot hlookup
    cases hend
    obtain ⟨ht, hgrown⟩ := h.lookup hroot hlookup
    rw [hlookup] at hnot
    refine .mounted (some ino) (.inl ⟨ino, rfl⟩) hlookup hgrown (.refl hgrown.wf) ht ?_
    rintro ⟨m, hm, heq⟩
    exact hnot m hm heq
  | bind root source path =>
    obtain ⟨hreach, hnot⟩ := hflat
    have hroot := hpaired root hreach
    rcases after_lookup hstep with ⟨e, hlookup⟩ | ⟨t, u, hlookup, hend⟩
    · exact hfail hroot hlookup
    obtain ⟨ht, hgrown⟩ := h.lookup hroot hlookup
    have hvalid : u.Valid root := hgrown.ext.valid ⟨hroot.lt_mount, hroot.lt h.wf⟩
    have hgrown' := (grown_lookup hgrown.wf hvalid hvalid source ⟨false, true⟩).1
    rw [hlookup] at hnot
    rcases after_lookup hend with ⟨e, hsource⟩ | ⟨n, w, hsource, hend⟩
    · rw [hsource] at hgrown'
      exact .filled (hgrown.trans hgrown')
    · cases hend
      rw [hsource] at hgrown'
      refine .mounted _ (.inr ⟨source, rfl⟩) hlookup hgrown hgrown' ht ?_
      rintro ⟨m, hm, heq⟩
      exact hnot m hm heq
  | umount root path =>
    have hroot := hpaired root hflat
    rcases after_lookup hstep with ⟨e, hlookup⟩ | ⟨n, w, hlookup, hend⟩
    · exact hfail hroot hlookup
    obtain ⟨-, hgrown⟩ := h.lookup hroot hlookup
    rcases umount_cases w n with ⟨e, hfail⟩ | ⟨p, hself, hpoint, hdone⟩
    · change Except.map snd (.ok (w.umount n)) = _ at hend
      rw [hfail] at hend
      cases hend
      exact .filled hgrown
    · change Except.map snd (.ok (w.umount n)) = _ at hend
      rw [hdone] at hend
      cases hend
      exact .detached hlookup hgrown hself hpoint
  | create | mkdir | mknod | symlink | link | unlink | rmdir | rename => exact hflat.elim

theorem flat_of_visits {nodes : Nodes} {ino : Nat}
    (h : Visits step Flatly (initial nodes ino) v) : v.Flat :=
  h.invariant (I := Flat) (.initial nodes ino) fun _ _ _ hs hop hstep =>
    flat_of_mounting hs (mounting_of_step hs hop hstep)

/-- A covered dentry stays covered while nothing happens on the way to it. -/
theorem covered_of_visits {way : List Nat} {m r : Nat} (hv : v.Wf)
    (ht : t.dentry ∈ way) (hw : v.Covered w way t m r)
    (h : Visits step (Elsewhere way) w v') : v.Covered v' way t m r := by
  refine h.invariant (I := fun w => v.Covered w way t m r) hw ?_
  intro s op s' hs hop hstep
  obtain ⟨hflatly, haway⟩ := hop
  have hmounting := mounting_of_step hs.flat hflatly hstep
  have hflat := flat_of_mounting hs.flat hmounting
  cases hmounting with
  | filled hgrown =>
    exact hs.next hv ht hflat (hgrown.undisturbed hs.flat.wf _) (by rw [hgrown.ext.mount])
  | @mounted op u w' root' t' path ino hop hlookup hgrown hgrown' hpaired hnot =>
    have hgrown₂ := hgrown.trans hgrown'
    have haway : t'.dentry ∉ way := by
      rcases hop with ⟨i, rfl⟩ | ⟨source, rfl⟩
      all_goals
        dsimp only at haway
        rwa [hlookup] at haway
    have ht' := (hgrown'.ext.paired hpaired).lt hgrown'.wf
    refine hs.next hv ht hflat ((hgrown₂.undisturbed hs.flat.wf _).trans
      (undisturbed_mountAt (hs.flat.grown hgrown₂) hflat ht' haway) hs.flat.wf) ?_
    rw [mountAt_mount_of_ne, hgrown₂.ext.mount]
    rw [hgrown₂.ext.nextMount]
    exact hs.lt.1.ne
  | @detached w' root' n p path hlookup hgrown hroot hpoint =>
    dsimp only at haway
    rw [hlookup] at haway
    obtain ⟨hself, haway⟩ := haway
    have hp := haway p (mem_def.mpr hpoint)
    refine hs.next hv ht hflat ((hgrown.undisturbed hs.flat.wf _).trans
      (undisturbed_detach (hs.flat.grown hgrown) hpoint hp (hroot ▸ hself)) hs.flat.wf) ?_
    rw [detach_mount_of_ne, hgrown.ext.mount]
    -- The mount itself is on the way.
    intro heq
    rw [← heq, hgrown.ext.mount, hs.mount] at hpoint
    cases hpoint
    exact hp ht

/-! ### The result -/

/-- The path leads by a name to a directory that is not the root of a mount and does not pass
it before. -/
def Direct (v : Dcache) (root : PathNode) (path : List Char) : Prop :=
  match v.lookup root root path ⟨false, true⟩ with
  | (.ok t, w) => (∀ m < w.nextMount, (w.mount m).root ≠ t.dentry) ∧ root.dentry ≠ t.dentry ∧
      ∀ r ∈ w.route root (maxSymlinkDepth + 1) root path 0, Stop.passed t.dentry ∉ r.stops
  | _ => True

/-- The dentries to which the path leads, one after the other. -/
def way (v : Dcache) (root : PathNode) (path : List Char) : List Nat :=
  match v.lookup root root path ⟨false, true⟩ with
  | (.ok t, w) => t.dentry :: match w.route root (maxSymlinkDepth + 1) root path 0 with
      | some r => r.stops.map Stop.dentry
      | none => []
  | _ => []

/-- A mount of a file system or of a directory that succeeds. -/
def MountsOn (v : Dcache) (root : PathNode) (path : List Char) (v' : Dcache) : Prop :=
  (∃ ino, v.nodes.isDir ino = true ∧ mountPath root path ino v = .ok (.ok (), v')) ∨
    ∃ source, bindPath root source path v = .ok (.ok (), v')

/-- A test on what a lookup of a directory finds. -/
instance decidableFound (out : Except Errno PathNode × Dcache) (P : PathNode → Dcache → Prop)
    [∀ n w, Decidable (P n w)] : Decidable (match out with
      | (.ok n, w) => P n w
      | _ => True) :=
  match out with
  | (.ok n, w) => inferInstanceAs (Decidable (P n w))
  | (.error _, _) => inferInstanceAs (Decidable True)

instance (v : Dcache) (op : VfsOp) : Decidable (Flatly v op) := by
  unfold Flatly
  induction op using VfsOp.casesOn <;> infer_instance

instance (way : List Nat) (v : Dcache) (op : VfsOp) : Decidable (Elsewhere way v op) := by
  unfold Elsewhere
  induction op using VfsOp.casesOn <;> infer_instance

instance (v : Dcache) (root : PathNode) (path : List Char) : Decidable (Direct v root path) := by
  unfold Direct
  infer_instance

/-- A call that looks up a directory and then succeeds. -/
theorem ok_lookup {α : Type} {flags : LookupFlags} {f : PathNode → Op α} {a : α}
    (h : (lookupAt root root path flags >>= f) v = .ok (.ok a, v')) :
    ∃ n u, v.lookup root root path flags = (.ok n, u) ∧ f n u = .ok (.ok a, v') := by
  change Call.bind (lookupAt root root path flags) f v = _ at h
  rw [Call.bind, lookupAt] at h
  generalize v.lookup root root path flags = out at h
  obtain ⟨r, u⟩ := out
  cases r with
  | error e => cases h
  | ok n => exact ⟨n, u, rfl, h⟩

theorem MountsOn.spec (h : MountsOn v root path v') (hv : v.Wf) (hroot : v.Valid root) :
    ∃ t u w i, v.lookup root root path ⟨false, true⟩ = (.ok t, u) ∧ u.Grown w ∧
      w.nodes.isDir i = true ∧ v' = w.mountAt t (some i) := by
  rcases h with ⟨i, hdir, hmount⟩ | ⟨source, hbind⟩
  · obtain ⟨t, u, hlookup, hend⟩ := ok_lookup hmount
    cases hend
    have hgrown := (grown_lookup hv hroot hroot path ⟨false, true⟩).1
    rw [hlookup] at hgrown
    refine ⟨t, u, u, i, hlookup, .refl hgrown.wf, ?_, rfl⟩
    rw [hgrown.ext.nodes]
    exact hdir
  obtain ⟨t, u, hlookup, hend⟩ := ok_lookup hbind
  obtain ⟨n, w, hsource, hend⟩ := ok_lookup hend
  cases hend
  have hgrown := (grown_lookup hv hroot hroot path ⟨false, true⟩).1
  rw [hlookup] at hgrown
  have hroot' := hgrown.ext.valid hroot
  have hgrown' := (grown_lookup hgrown.wf hroot' hroot' source ⟨false, true⟩).1
  obtain ⟨-, -, i, hi, hdir⟩ := lookup_directory hsource
  rw [hsource] at hgrown'
  refine ⟨t, u, w, i, hlookup, hgrown', hdir, ?_⟩
  rw [← hi]

/-- The route that a lookup of a directory has taken is in the cache. -/
theorem route_of_lookup (hv : v.Wf) (hroot : v.Valid root)
    (h : v.lookup root root path ⟨false, true⟩ = (.ok t, w)) : path ≠ [] ∧ w.isDirAt t = true ∧
      ∃ r, w.route root (maxSymlinkDepth + 1) root path 0 = some r ∧ r.node = t := by
  have hleads := @leads_route v root (maxSymlinkDepth + 1) root path 0 hv hroot hroot
  obtain ⟨hpath, ⟨k, hinner⟩, i, hi, hdir⟩ := lookup_directory h
  rw [hinner] at hleads
  obtain ⟨stops, hr⟩ := hleads.routed t k rfl w (.refl hleads.grown.wf)
  refine ⟨hpath, ?_, _, hr, rfl⟩
  rw [isDirAt, hi]
  exact hdir

/-- **A mount on a path is found, left and removed there.** After a mount on a path that leads to
a directory by a name, and as long as nothing else is mounted or unmounted on the way, the path
leads to the root of the mount, with `..` behind it to the parent of the covered directory, and
an unmount removes this mount and nothing else and uncovers the directory. -/
theorem mounted_of_visits {nodes : Nodes} {ino : Nat} {v₁ v₂ : Dcache}
    (h : Visits step Flatly (Dcache.initial nodes ino) v) (hroot : v.reachable root = true)
    (hdirect : Direct v root path) (hmount : MountsOn v root path v₁)
    (hrun : Visits step (Elsewhere (way v root path)) v₁ v₂) :
    ∃ t w, v.lookup root root path ⟨false, true⟩ = (.ok t, w) ∧
      (∀ directory, (v₂.lookup root root path ⟨false, directory⟩).1 =
        .ok ⟨v.nextMount, (v₁.mount v.nextMount).root⟩) ∧
      (∃ d, (w.dentry t.dentry).parent = some d ∧
        (v₂.lookup root root (path ++ ['/', '.', '.']) ⟨false, false⟩).1 = .ok ⟨t.mount, d⟩) ∧
      ∀ v₃, umountPath root path v₂ = .ok (.ok (), v₃) →
        (∀ d m, m ∈ (v₃.dentry d).mounts ↔ m ∈ (v₂.dentry d).mounts ∧ m ≠ v.nextMount) ∧
        (∀ m, m ≠ v.nextMount → v₃.mount m = v₂.mount m) ∧
        ∀ directory, (v₃.lookup root root path ⟨false, directory⟩).1 = .ok t := by
  have hv := flat_of_visits h
  obtain ⟨place, hstands⟩ := attached_of_reachable hroot
  have hpairedRoot := hstands.paired hv.wf
  have hvalid : v.Valid root := ⟨hpairedRoot.lt_mount, hpairedRoot.lt hv.wf⟩
  obtain ⟨t, u, w, i, hlookup, hgrown', hi, rfl⟩ := hmount.spec hv.wf hvalid
  obtain ⟨hpaired, hgrown⟩ := hv.lookup hpairedRoot hlookup
  obtain ⟨hpath, hisDir, r, hr, rfl⟩ := route_of_lookup hv.wf hvalid hlookup
  have hu := hv.grown hgrown
  have hrootU := hgrown.ext.valid hvalid
  unfold Direct at hdirect
  rw [hlookup] at hdirect
  obtain ⟨hnot, hne, hpassed⟩ := hdirect
  have hpassed := hpassed r (mem_def.mpr hr)
  have hway : way v root path = r.node.dentry :: r.stops.map Stop.dentry := by
    unfold way
    rw [hlookup]
    dsimp only
    rw [hr]
  have hnotRoot : ¬ u.IsRoot r.node.dentry := by
    intro hroot
    obtain ⟨m, hm, heq⟩ := hroot
    exact hnot m hm heq
  rw [hway] at hrun
  have hmem : r.node.dentry ∈ r.node.dentry :: r.stops.map Stop.dentry := (.head _) ..
  have hcovered := covered_of_visits hu.wf hmem
    (covered_mountAt hu hgrown' hpaired hnotRoot hi) hrun
  have hsub : ∀ d ∈ r.stops.map Stop.dentry, d ∈ r.node.dentry :: r.stops.map Stop.dentry :=
    fun d hd => .tail _ hd
  have hfroot : (if root.dentry = r.node.dentry then (⟨w.nextMount, w.nextDentry⟩ : PathNode)
      else root) = root := if_neg hne
  have hshows := hcovered.shows hu.wf hsub hpassed hnotRoot hne
  have hnew : ((w.mountAt r.node (some i)).mount v.nextMount).root = w.nextDentry ∧
      w.nextMount = v.nextMount := by
    have hmount : w.nextMount = v.nextMount := hgrown'.ext.nextMount.trans hgrown.ext.nextMount
    rw [← hmount, mountAt_mount_new]
    exact ⟨rfl, rfl⟩
  have hfound := fun directory =>
    hshows.lookup hu.wf hrootU hrootU hfroot hpath hr (List.Subset.refl _) hisDir directory
  simp only [if_true] at hfound
  refine ⟨r.node, u, hlookup, ?_, ?_, ?_⟩
  · intro directory
    rw [hfound directory, hnew.1, hnew.2]
  · obtain ⟨d, hd⟩ : ∃ d, (u.dentry r.node.dentry).parent = some d := by
      generalize r.node.dentry = c at hpaired hnotRoot
      cases hpaired with
      | root hm => exact absurd ⟨_, hm, rfl⟩ hnotRoot
      | child _ hparent _ _ => exact ⟨_, hparent⟩
    refine ⟨d, hd, ?_⟩
    rw [hshows.lookup_up hu.wf hrootU hrootU hfroot hpath hr (List.Subset.refl _), if_pos rfl,
      hcovered.stepUp ⟨hpaired.lt_mount, hpaired.lt hu.wf⟩ hne hrootU hd hu]
  intro v₃ humount
  obtain ⟨n, v₂', hlookup₂, hend⟩ := ok_lookup humount
  rw [hfound true] at hlookup₂
  cases hlookup₂
  have hpoint : (v₂.mount w.nextMount).mountPoint = some r.node := by rw [hcovered.mount]
  have hdetach : v₃ = v₂.detach w.nextMount r.node.dentry := by
    rcases umount_cases v₂ ⟨w.nextMount, w.nextDentry⟩ with ⟨e, hfail⟩ | ⟨p, -, hp, hdone⟩
    · rw [hfail] at hend
      cases hend
    · rw [hpoint] at hp
      cases hp
      rw [hdone] at hend
      cases hend
      rfl
  subst hdetach
  rw [← hnew.2]
  refine ⟨?_, ?_, ?_⟩
  · intro d m
    constructor
    · intro hm
      obtain ⟨hne, hold⟩ := mem_mounts_detach hpoint hcovered.flat.wf hm
      exact ⟨hold, hne⟩
    intro hm
    rw [detach_dentry]
    dsimp only
    split_ifs
    · exact List.mem_filter.mpr ⟨hm.1, by simpa using hm.2⟩
    · exact hm.1
  · exact fun m hm => detach_mount_of_ne hm
  · intro directory
    have hback := hcovered.shows_detach hu.wf hsub hpassed hnotRoot hne
    rw [hback.lookup hu.wf hrootU hrootU (if_neg hne) hpath hr (List.Subset.refl _) hisDir
      directory, if_pos rfl]

/-- While something is mounted on a directory, a file is looked up there and another directory
is mounted over. -/
def meanwhile : List VfsOp :=
  [.lookup rootNode rootNode ['/', 'm', '/', 'f'] ⟨false, false⟩,
    .bind rootNode ['/', 'm'] ['/', 's']]

theorem mounted_meanwhile : ∃ v₁ v₂ v₃, MountsOn (Dcache.initial twoDirs 0) rootNode ['/', 'm'] v₁ ∧
    Visits step (Elsewhere (way (Dcache.initial twoDirs 0) rootNode ['/', 'm'])) v₁ v₂ ∧
    umountPath rootNode ['/', 'm'] v₂ = .ok (.ok (), v₃) ∧
    (v₂.lookup rootNode rootNode ['/', 'm'] ⟨false, true⟩).1 = .ok ⟨1, (v₁.mount 1).root⟩ ∧
    (v₃.lookup rootNode rootNode ['/', 'm'] ⟨false, true⟩).1 =
      ((Dcache.initial twoDirs 0).lookup rootNode rootNode ['/', 'm'] ⟨false, true⟩).1 := by
  obtain ⟨⟨r, v₁⟩, hmount, rfl, hrun⟩ := exists_ok
    (mountPath rootNode ['/', 'm'] 3 (initial twoDirs 0)) (fun out => out.1 = .ok () ∧
      ((runAllowed step (Elsewhere (way (initial twoDirs 0) rootNode ['/', 'm'])) out.2
        meanwhile).any fun v₂ =>
          decide ((umountPath rootNode ['/', 'm'] v₂).map fst = .ok (.ok ()))) = true) (by decide)
  have hon : MountsOn (initial twoDirs 0) rootNode ['/', 'm'] v₁ :=
    .inl ⟨3, by decide, hmount⟩
  obtain ⟨v₂, hvisits, hend⟩ := exists_visits _ _ _ _ _ hrun
  obtain ⟨⟨r, v₃⟩, humount, rfl⟩ := exists_of_observed hend
  have hroot : (initial twoDirs 0).reachable rootNode = true := by decide
  have hdirect : Direct (initial twoDirs 0) rootNode ['/', 'm'] := by decide
  obtain ⟨t, w, hlookup, hfound, -, hback⟩ := mounted_of_visits .start hroot hdirect hon hvisits
  refine ⟨v₁, v₂, v₃, hon, hvisits, humount, hfound true, ?_⟩
  rw [hlookup]
  exact (hback v₃ humount).2.2 true

/-- The path leads to the first of two mounts on it, and this one is busy. -/
def StillFirst (v : Dcache) : Prop :=
  (v.lookup rootNode rootNode ['/', 'a'] ⟨false, true⟩).1 = .ok ⟨1, (v.mount 1).root⟩ ∧
    (v.mount 2).mountPoint = some ⟨1, (v.mount 1).root⟩ ∧
    (umountPath rootNode ['/', 'a'] v).map Prod.fst = .ok (.error .EBUSY)
deriving Decidable

/-- The second file system is mounted on the root of the first. -/
theorem stillFirst_mountedTwice : ∃ v₁ v₂,
    MountsOn (Dcache.initial sampleNodes 0) rootNode ['/', 'a'] v₁ ∧ v₁.nextMount = 2 ∧
    MountsOn v₁ rootNode ['/', 'a'] v₂ ∧ StillFirst v₂ := by
  obtain ⟨⟨r, v₁⟩, hmount, rfl, hnext, hdir, hsecond⟩ := exists_ok
    (mountPath rootNode ['/', 'a'] 2 (Dcache.initial sampleNodes 0)) (fun first =>
      first.1 = .ok () ∧ first.2.nextMount = 2 ∧ first.2.nodes.isDir 3 = true ∧
      ((mountPath rootNode ['/', 'a'] 3 first.2).toOption.any
        fun out => decide (out.1 = .ok () ∧ StillFirst out.2)) = true) (by decide)
  obtain ⟨⟨r, v₂⟩, hmount₂, rfl, hend⟩ := exists_ok _ _ hsecond
  exact ⟨v₁, v₂, .inl ⟨2, by decide, hmount⟩, hnext, .inl ⟨3, hdir, hmount₂⟩, hend⟩

end VfsOp

end Petra.Vfs
