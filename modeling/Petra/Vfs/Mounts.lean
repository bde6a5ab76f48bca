import Petra.Base.Numbers
import Petra.Vfs.Dcache

/-! # Mounting and unmounting

A mount is recorded on the dentry of its target and remembers the target. Its root is a dentry
of its own, with the target as its parent.
-/

namespace Petra.Vfs.Dcache

open Function Nat

variable {v v' : Dcache} {target node : PathNode} {ino : Option Nat}

/-- The root directory of the first file system and nothing else. -/
def initial (nodes : Nodes) (ino : Nat) : Dcache where
  nodes := nodes
  dentry := fun d => if d = 0 then ⟨.present ino, none, [], []⟩ else ⟨.notCached, none, [], []⟩
  nextDentry := 1
  mount := fun _ => ⟨none, 0⟩
  nextMount := 1
  alive := fun _ => true

/-- A root directory with one directory in it, and the roots of two more file systems. -/
def sampleNodes : Nodes where
  kind := fun _ => .dir
  entries := fun i => if i = 0 then [(['a'], 1)] else []
  nextIno := 4

/-- Mount a file system with the given root inode, or another view of a directory. -/
def mountAt (v : Dcache) (target : PathNode) (ino : Option Nat) : Dcache :=
  let v' := v.alloc ino (some target.dentry)
  { v'.modify target.dentry (fun e => { e with mounts := e.mounts ++ [v.nextMount] }) with
    mount := update v.mount v.nextMount ⟨some target, v.nextDentry⟩
    nextMount := v.nextMount + 1 }

/-- Whether something is mounted on a dentry or below it. A dentry is older than its children,
so the number of a dentry bounds how deep the cache below it is. -/
def hasSubmounts (v : Dcache) : Nat → Nat → Bool
  | 0, d => (v.dentry d).mounts ≠ []
  | fuel + 1, d => (v.dentry d).mounts ≠ [] ||
      (v.dentry d).children.any fun e => v.hasSubmounts fuel e.2

/-- Remove a mount from where it is mounted, together with its cached entries. -/
def detach (v : Dcache) (m d : Nat) : Dcache :=
  let v := v.modify d fun e => { e with mounts := e.mounts.filter fun m' => m' ≠ m }
  let v := { v with mount := update v.mount m { v.mount m with mountPoint := none } }
  v.clearChildren (v.mount m).root

/-- `PathNode::umount`, where the `sync` before the mount is removed succeeds. -/
def umount (v : Dcache) (node : PathNode) : Except Errno Unit × Dcache :=
  if node.dentry ≠ (v.mount node.mount).root then (.error .EINVAL, v)
  else
    match (v.mount node.mount).mountPoint with
    | none => (.error .EINVAL, v)
    | some point =>
      if v.hasSubmounts v.nextDentry node.dentry then (.error .EBUSY, v)
      else (.ok (), v.detach node.mount point.dentry)

/-! ### Heaps stay well formed -/

theorem wf_initial (nodes : Nodes) (rootIno : Nat) : (initial nodes rootIno).Wf where
  child := by
    intro d name c hmem
    simp only [initial] at hmem
    split_ifs at hmem <;> cases hmem
  parent := by
    intro c p hparent
    simp only [initial] at hparent
    split_ifs at hparent
  root := fun m _ => Nat.zero_lt_one
  rootInj := by
    intro m m' hm hm' _
    have hone : m < 1 := hm
    have hone' : m' < 1 := hm'
    omega
  mounted := by
    intro d m hmem
    simp only [initial] at hmem
    split_ifs at hmem <;> cases hmem
  point := nofun
  fresh := by
    intro d _
    simp only [initial]
    split_ifs <;> exact ⟨rfl, rfl⟩
  names := by
    intro d
    simp only [initial]
    split_ifs <;> exact List.nodup_nil
  single := by
    intro d name name' c hmem _
    simp only [initial] at hmem
    split_ifs at hmem <;> cases hmem

section MountAt

variable (htarget : target.dentry < v.nextDentry)

include htarget in
theorem mountAt_dentry_target : (v.mountAt target ino).dentry target.dentry =
    { v.dentry target.dentry with
      mounts := (v.dentry target.dentry).mounts ++ [v.nextMount] } := by
  have hne : target.dentry ≠ v.nextDentry := htarget.ne
  simp only [mountAt, modify, update_self, alloc, update_of_ne hne]

include htarget in
theorem mountAt_dentry_new : (v.mountAt target ino).dentry v.nextDentry =
    ⟨.of ino, some target.dentry, [], []⟩ := by
  have hne : v.nextDentry ≠ target.dentry := htarget.ne.symm
  simp only [mountAt, modify, alloc, update_of_ne hne, update_self]

variable {d m : Nat}

theorem mountAt_dentry_of_ne (hne : d ≠ target.dentry) (hnew : d ≠ v.nextDentry) :
    (v.mountAt target ino).dentry d = v.dentry d := by
  simp only [mountAt, modify, alloc, update_of_ne hne, update_of_ne hnew]

theorem mountAt_mount_of_ne (hne : m ≠ v.nextMount) :
    (v.mountAt target ino).mount m = v.mount m := update_of_ne hne _ _

theorem mountAt_mount_new :
    (v.mountAt target ino).mount v.nextMount = ⟨some target, v.nextDentry⟩ :=
  update_self _ _ _

include htarget in
/-- Only what is mounted changes on the dentries that exist. -/
theorem mountAt_dentry_old (hd : d ≠ v.nextDentry) :
    ∃ mounts, (v.mountAt target ino).dentry d = { v.dentry d with mounts := mounts } := by
  by_cases heq : d = target.dentry
  · subst heq
    exact ⟨_, mountAt_dentry_target htarget⟩
  · exact ⟨_, mountAt_dentry_of_ne heq hd⟩

include htarget in
theorem children_mountAt (hv : v.Wf) (d : Nat) :
    ((v.mountAt target ino).dentry d).children = (v.dentry d).children := by
  by_cases hd : d = v.nextDentry
  · subst hd
    rw [mountAt_dentry_new htarget, (hv.fresh _ le_rfl).1]
  · obtain ⟨mounts, heq⟩ := @mountAt_dentry_old v target ino htarget d hd
    rw [heq]

include htarget in
theorem parent_mountAt (hd : d < v.nextDentry) :
    ((v.mountAt target ino).dentry d).parent = (v.dentry d).parent := by
  obtain ⟨mounts, heq⟩ := @mountAt_dentry_old v target ino htarget d hd.ne
  rw [heq]

theorem isRoot_mountAt (hd : d < v.nextDentry) : (v.mountAt target ino).IsRoot d ↔ v.IsRoot d := by
  constructor
  · intro hroot
    obtain ⟨m, hm, hr⟩ := hroot
    by_cases hnew : m = v.nextMount
    · subst hnew
      rw [mountAt_mount_new] at hr
      exact absurd hr hd.ne'
    · rw [mountAt_mount_of_ne hnew] at hr
      exact ⟨m, lt_of_le_of_ne (le_of_lt_succ hm) hnew, hr⟩
  · intro hroot
    obtain ⟨m, hm, hr⟩ := hroot
    exact ⟨m, lt_succ_of_lt hm, by rw [mountAt_mount_of_ne hm.ne]; exact hr⟩

include htarget in
theorem paired_mountAt {d : Nat} (hd : v.Paired m d) : (v.mountAt target ino).Paired m d := by
  induction hd with
  | root hm =>
    rw [← mountAt_mount_of_ne hm.ne]
    exact .root (lt_succ_of_lt hm)
  | child _ hparent hc hroot ih =>
    refine .child ih ?_ (lt_succ_of_lt hc) (fun hr => hroot ((isRoot_mountAt hc).mp hr))
    exact (parent_mountAt htarget hc).trans hparent

theorem Wf.mountAt (hv : v.Wf) (hpaired : v.Paired target.mount target.dentry) :
    (v.mountAt target ino).Wf := by
  have htarget := hpaired.lt hv
  have hself := @mountAt_dentry_target v target ino htarget
  have hnew := @mountAt_dentry_new v target ino htarget
  have hchildren := @children_mountAt v target ino htarget hv
  refine ⟨?_, ?_, ?_, ?_, ?_, ?_, ?_, ?_, ?_⟩
  · intro d name c hmem
    rw [hchildren] at hmem
    obtain ⟨hc, hparent, hroot⟩ := hv.child d name c hmem
    exact ⟨lt_succ_of_lt hc, (parent_mountAt htarget hc).trans hparent,
      fun hr => hroot ((isRoot_mountAt hc).mp hr)⟩
  · intro c p hparent
    by_cases hc : c = v.nextDentry
    · subst hc
      rw [hnew] at hparent
      cases hparent
      exact htarget
    · obtain ⟨mounts, heq⟩ := @mountAt_dentry_old v target ino htarget c hc
      rw [heq] at hparent
      exact hv.parent c p hparent
  · intro m hm
    by_cases hm' : m = v.nextMount
    · subst hm'
      rw [mountAt_mount_new]
      exact lt_succ_self _
    · rw [mountAt_mount_of_ne hm']
      exact lt_succ_of_lt (hv.root m (lt_of_le_of_ne (le_of_lt_succ hm) hm'))
  · -- The root of the new mount is a new dentry.
    have happart := @Base.apart_succ Nat (fun m => (v.mount m).root)
      (fun m => ((v.mountAt target ino).mount m).root) v.nextMount
      (fun m hm => by rw [mountAt_mount_of_ne hm.ne])
      (fun m hm m' => hv.rootInj m m' hm) fun m hm => by
        rw [mountAt_mount_new]
        exact (hv.root m hm).ne
    exact fun m m' hm hm' => happart m hm m' hm'
  · intro d m hmem
    have hold : m ∈ (v.dentry d).mounts → m < (v.mountAt target ino).nextMount ∧
        d < ((v.mountAt target ino).mount m).root ∧
        ∃ m', ((v.mountAt target ino).mount m).mountPoint = some ⟨m', d⟩ ∧
          (v.mountAt target ino).Paired m' d := by
      intro hmem
      obtain ⟨hlt, hbelow, m', hpoint, hp⟩ := hv.mounted d m hmem
      rw [mountAt_mount_of_ne hlt.ne]
      exact ⟨lt_succ_of_lt hlt, hbelow, m', hpoint, paired_mountAt htarget hp⟩
    by_cases hd : d = v.nextDentry
    · subst hd
      rw [hnew] at hmem
      cases hmem
    by_cases heq : d = target.dentry
    · subst heq
      rw [hself] at hmem
      rcases List.mem_append.mp hmem with hmem | hmem
      · exact hold hmem
      · rw [List.mem_singleton.mp hmem, mountAt_mount_new]
        exact ⟨lt_succ_self _, htarget, target.mount, rfl, paired_mountAt htarget hpaired⟩
    · rw [mountAt_dentry_of_ne heq hd] at hmem
      exact hold hmem
  · intro m p hm hp
    by_cases hm' : m = v.nextMount
    · subst hm'
      rw [mountAt_mount_new] at hp
      cases hp
      exact ⟨lt_succ_of_lt hpaired.lt_mount, lt_succ_of_lt htarget⟩
    · rw [mountAt_mount_of_ne hm'] at hp
      obtain ⟨hmount, hdentry⟩ := hv.point m p (lt_of_le_of_ne (le_of_lt_succ hm) hm') hp
      exact ⟨lt_succ_of_lt hmount, lt_succ_of_lt hdentry⟩
  · intro d hd
    have hlarge : v.nextDentry + 1 ≤ d := hd
    rw [mountAt_dentry_of_ne (by omega) (by omega)]
    exact hv.fresh d (by omega)
  · intro d
    rw [hchildren]
    exact hv.names d
  · intro d name name' c hmem hmem'
    rw [hchildren] at hmem hmem'
    exact hv.single d name name' c hmem hmem'

end MountAt

end Petra.Vfs.Dcache
