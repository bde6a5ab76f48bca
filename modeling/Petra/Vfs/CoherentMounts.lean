import Petra.Vfs.CoherentOps

/-! # Mounting keeps the cache coherent

A new file system may be mounted on a directory that is not the root of a mounted file system,
and a file system may be unmounted as the code allows it.
-/

namespace Petra.Vfs.Dcache

open Function List Nat Dcache

variable {v : Dcache} {n t : PathNode} {ino c d : Nat}

/-! ### Mounting -/

section MountAt

variable (h : v.Coherent) (ht : v.Attached t)

include h ht in
theorem getInode_mountAt {d : Nat} (hd : d ≠ v.nextDentry) :
    (v.mountAt t (some ino)).getInode d = v.getInode d := by
  obtain ⟨mounts, heq⟩ := @mountAt_dentry_old v t (some ino) (ht.valid h.sound.wf).2 d hd
  rw [getInode, heq]
  rfl

include h ht in
theorem getInode_mountAt_new : (v.mountAt t (some ino)).getInode v.nextDentry = some ino := by
  unfold getInode
  rw [mountAt_dentry_new (ht.valid h.sound.wf).2]
  rfl

include h ht in
theorem Attached.mountAt (hn : v.Attached n) : (v.mountAt t (some ino)).Attached n := by
  have hv := h.sound.wf
  have htlt := (ht.valid hv).2
  refine (hn.transfer (Q := fun _ => False) ?_ ?_ (fun _ _ _ _ => False.elim)
    fun _ _ _ _ hb => hb).resolve_right id
  · exact fun m hm _ => .inl ⟨lt_succ_of_lt hm, mountAt_mount_of_ne hm.ne,
      parent_mountAt htlt (hv.root m hm), getInode_mountAt h ht (hv.root m hm).ne⟩
  · intro b name c i hmem hino
    rw [children_mountAt htlt hv, getInode_mountAt h ht (hv.child _ _ _ hmem).1.ne]
    exact .inl ⟨hmem, hino⟩

include h ht in
/-- Only the new root can be reached for the first time. -/
theorem Attached.of_mountAt (hn : (v.mountAt t (some ino)).Attached n) :
    v.Attached n ∨ n.dentry = v.nextDentry := by
  have hv := h.sound.wf
  have htlt := (ht.valid hv).2
  have hlt : ∀ m < (v.mountAt t (some ino)).nextMount, m ≠ v.nextMount → m < v.nextMount :=
    fun m hm hne => lt_of_le_of_ne (le_of_lt_succ hm) hne
  refine hn.transfer (Q := fun n => n.dentry = v.nextDentry) ?_ ?_ ?_ ?_
  · intro m hm _
    by_cases hne : m = v.nextMount
    · subst hne
      right
      rw [mountAt_mount_new]
    · have hroot := hv.root m (hlt m hm hne)
      refine .inl ⟨hlt m hm hne, (mountAt_mount_of_ne hne).symm, ?_, ?_⟩
      · rw [mountAt_mount_of_ne hne, parent_mountAt htlt hroot]
      · rw [mountAt_mount_of_ne hne, getInode_mountAt h ht hroot.ne]
  · intro b name c i hmem hino
    rw [children_mountAt htlt hv] at hmem
    rw [getInode_mountAt h ht (hv.child _ _ _ hmem).1.ne] at hino
    exact .inl ⟨hmem, hino⟩
  · intro m p hm hpoint _
    by_cases hne : m = v.nextMount
    · subst hne
      right
      rw [mountAt_mount_new]
    · rw [mountAt_mount_of_ne hne] at hpoint
      exact .inl (h.point m p (hlt m hm hne) hpoint).1
  · intro b name c hmem hb
    rw [children_mountAt htlt hv, hb, (hv.fresh _ le_rfl).1] at hmem
    cases hmem

include h ht in
/-- **Mounting.** -/
theorem Coherent.mountAt {i : Nat} (hti : v.getInode t.dentry = some i)
    (htdir : v.nodes.isDir i = true)
    (hflat : t.dentry = (v.mount t.mount).root → (v.mount t.mount).mountPoint = none)
    (hino : ino < v.nodes.nextIno) (hdir : v.nodes.isDir ino = true)
    (hentry : ∀ dir name, v.nodes.entry dir name ≠ some ino)
    (hfresh : ∀ m < v.nextMount, v.getInode (v.mount m).root ≠ some ino) :
    (v.mountAt t (some ino)).Coherent := by
  have hv := h.sound.wf
  have hpaired : v.Paired t.mount t.dentry := by
    obtain ⟨place, hplace⟩ := ht
    exact hplace.paired hv
  have htlt := hpaired.lt hv
  have hsplit : ∀ m, m < (v.mountAt t (some ino)).nextMount → m = v.nextMount ∨ m < v.nextMount :=
    fun m hm => (Nat.lt_succ_iff_lt_or_eq.mp hm).symm
  have hroot : ∀ m < v.nextMount, (v.mountAt t (some ino)).getInode
      ((v.mountAt t (some ino)).mount m).root = v.getInode (v.mount m).root := by
    intro m hm
    rw [mountAt_mount_of_ne hm.ne, getInode_mountAt h ht (hv.root m hm).ne]
  have hrootNew : (v.mountAt t (some ino)).getInode
      ((v.mountAt t (some ino)).mount v.nextMount).root = some ino := by
    rw [mountAt_mount_new]
    exact getInode_mountAt_new h ht
  refine ⟨⟨hv.mountAt hpaired, h.sound.nodes, ?_⟩, ?_, ?_, ?_, h.unique, ?_, ?_, ?_, ?_, ?_⟩
  · intro d j hj
    by_cases hd : d = v.nextDentry
    · subst hd
      rw [getInode_mountAt_new h ht] at hj
      cases hj
      exact hino
    · rw [getInode_mountAt h ht hd] at hj
      exact h.sound.cached d j hj
  · intro d
    by_cases hd : d = v.nextDentry
    · subst hd
      exact update_self _ _ _
    · exact (update_of_ne hd _ _).trans (h.alive d)
  · intro m hm
    rcases hsplit m hm with rfl | hlt
    · exact ⟨ino, hrootNew, hdir, hentry⟩
    · rw [hroot m hlt]
      exact h.root m hlt
  · intro m m' hm hm' heq
    rcases hsplit m hm with rfl | hlt
    · rcases hsplit m' hm' with rfl | hlt'
      · rfl
      · rw [hrootNew, hroot m' hlt'] at heq
        exact absurd heq.symm (hfresh m' hlt')
    · rcases hsplit m' hm' with rfl | hlt'
      · rw [hrootNew, hroot m hlt] at heq
        exact absurd heq (hfresh m hlt)
      · rw [hroot m hlt, hroot m' hlt'] at heq
        exact h.apart m m' hlt hlt' heq
  · intro n hn name c hmem
    rw [children_mountAt htlt hv] at hmem
    have hd := hv.lt_of_mem hmem
    have hold := (Attached.of_mountAt h ht hn).resolve_right hd.ne
    obtain ⟨j, hj, hjdir, hchild⟩ := h.table n hold name c hmem
    refine ⟨j, ?_, hjdir, ?_⟩
    · rw [getInode_mountAt h ht hd.ne]
      exact hj
    · rw [getInode_mountAt h ht (hv.child _ _ _ hmem).1.ne]
      exact hchild
  · intro d hne
    rw [children_mountAt htlt hv] at hne
    obtain ⟨e, hmem⟩ := exists_mem_of_ne_nil _ hne
    rw [getInode_mountAt h ht (hv.lt_of_mem hmem).ne]
    exact h.bare d hne
  · intro m p hm hpoint
    rcases hsplit m hm with rfl | hlt
    · rw [mountAt_mount_new] at hpoint ⊢
      cases hpoint
      refine ⟨Attached.mountAt h ht ht, ⟨i, ?_, htdir⟩, ?_⟩
      · rw [getInode_mountAt h ht htlt.ne]
        exact hti
      · exact congrArg DEntry.parent (mountAt_dentry_new htlt)
    · rw [mountAt_mount_of_ne hlt.ne] at hpoint ⊢
      obtain ⟨hattached, hpino, hparent⟩ := h.point m p hlt hpoint
      refine ⟨Attached.mountAt h ht hattached, ?_, ?_⟩
      · rw [getInode_mountAt h ht (hattached.valid hv).2.ne]
        exact hpino
      · rw [parent_mountAt htlt (hv.root m hlt)]
        exact hparent
  · -- The new mount comes last.
    intro d
    have hrange : (range v.nextMount).filter ((v.mountAt t (some ino)).pointsAt d) =
        (v.dentry d).mounts := by
      rw [h.stack d]
      refine filter_congr fun k hk => ?_
      unfold pointsAt
      rw [mountAt_mount_of_ne (mem_range.mp hk).ne]
    change _ = (range (v.nextMount + 1)).filter _
    rw [range_succ, filter_append, hrange]
    have hlast : [v.nextMount].filter ((v.mountAt t (some ino)).pointsAt d) =
        if t.dentry = d then [v.nextMount] else [] := by
      simp only [filter_cons, filter_nil, pointsAt, mountAt_mount_new, Option.map_some,
        Option.some.injEq, decide_eq_true_eq]
    rw [hlast]
    by_cases hd : t.dentry = d
    · subst hd
      rw [if_pos rfl, mountAt_dentry_target htlt]
    · rw [if_neg hd, append_nil]
      by_cases hnew : d = v.nextDentry
      · subst hnew
        rw [mountAt_dentry_new htlt, (hv.fresh _ le_rfl).2]
      · rw [mountAt_dentry_of_ne (fun heq => hd heq.symm) hnew]
  · intro m p hm hpoint hp
    rcases hsplit m hm with rfl | hlt
    · rw [mountAt_mount_new] at hpoint
      cases hpoint
      rw [mountAt_mount_of_ne hpaired.lt_mount.ne] at hp ⊢
      exact hflat hp
    · rw [mountAt_mount_of_ne hlt.ne] at hpoint
      rw [mountAt_mount_of_ne (hv.point m p hlt hpoint).1.ne] at hp ⊢
      exact h.flat m p hlt hpoint hp

end MountAt

/-! ### Unmounting -/

/-- One dentry is in the table of the other. -/
def ParentOf (v : Dcache) (d c : Nat) : Prop := ∃ name, (name, c) ∈ (v.dentry d).children

open Relation (ReflTransGen)

theorem le_of_below (hv : v.Wf) (hbelow : ReflTransGen v.ParentOf c d) : c ≤ d := by
  induction hbelow with
  | refl => exact le_rfl
  | tail _ hlast ih =>
    obtain ⟨name, hmem⟩ := hlast
    exact ih.trans (le_of_lt (hv.parent _ _ (hv.child _ _ _ hmem).2.1))

/-- What is mounted in the tree below a dentry is found. -/
theorem hasSubmounts_of_below (hv : v.Wf) (hbelow : ReflTransGen v.ParentOf c d)
    (hmounts : (v.dentry d).mounts ≠ []) (fuel : Nat) (hfuel : d ≤ fuel + c) :
    v.hasSubmounts fuel c = true := by
  induction hbelow using ReflTransGen.head_induction_on generalizing fuel with
  | refl => cases fuel <;> simp [hasSubmounts, hmounts]
  | @head c c' hstep hrest ih =>
    obtain ⟨name, hmem⟩ := hstep
    have hlt := hv.parent _ _ (hv.child _ _ _ hmem).2.1
    have hle := le_of_below hv hrest
    cases fuel with
    | zero => omega
    | succ fuel =>
      rw [hasSubmounts, Bool.or_eq_true]
      exact .inr (any_eq_true.mpr ⟨_, hmem, ih fuel (by omega)⟩)

/-- A mount that is reached from a dentry is mounted in the tree below it, or below such a
mount. -/
theorem Coherent.below_or (h : v.Coherent) (hn : v.Under c n) : ReflTransGen v.ParentOf c n.dentry ∨
      ∃ d, ReflTransGen v.ParentOf c d ∧ (v.dentry d).mounts ≠ [] := by
  induction hn with
  | self => exact .inl .refl
  | @mounted m p _ hm hpoint ih =>
    right
    rcases ih with hbelow | hfound
    · refine ⟨p.dentry, hbelow, ne_nil_of_mem (a := m) ?_⟩
      exact h.mem_mounts.mpr ⟨hm, p.mount, hpoint⟩
    · exact hfound
  | child _ hmem ih => exact ih.imp_left fun hbelow => hbelow.tail ⟨_, hmem⟩

theorem Coherent.no_submounts (h : v.Coherent) (hsub : v.hasSubmounts v.nextDentry c = false) :
    v.NoMounts c := by
  intro m p hm hpoint hunder
  have hv := h.sound.wf
  have hfound : ∃ d, ReflTransGen v.ParentOf c d ∧ (v.dentry d).mounts ≠ [] := by
    rcases h.below_or hunder with hbelow | hfound
    · refine ⟨p.dentry, hbelow, ne_nil_of_mem (a := m) ?_⟩
      exact h.mem_mounts.mpr ⟨hm, p.mount, hpoint⟩
    · exact hfound
  obtain ⟨d, hbelow, hmounts⟩ := hfound
  have hd : d < v.nextDentry := by
    by_contra hlarge
    exact hmounts (hv.fresh d (Nat.le_of_not_lt hlarge)).2
  rw [hasSubmounts_of_below hv hbelow hmounts v.nextDentry (by omega)] at hsub
  cases hsub

section Detach

variable {m : Nat} {p : PathNode} {d x : Nat}

theorem detach_dentry (v : Dcache) (m d x : Nat) :
    (v.detach m d).dentry x = { v.dentry x with
      children := if x = (v.mount m).root then [] else (v.dentry x).children
      mounts := if x = d then (v.dentry x).mounts.filter fun k => k ≠ m
        else (v.dentry x).mounts } := by
  have hroot : (update v.mount m { v.mount m with mountPoint := none } m).root =
      (v.mount m).root := by rw [update_self]
  simp only [detach, clearChildren, modify, hroot]
  by_cases hx : x = (v.mount m).root
  · subst hx
    rw [update_self, if_pos rfl]
    by_cases hd : (v.mount m).root = d
    · subst hd
      rw [update_self, if_pos rfl]
    · rw [update_of_ne hd, if_neg hd]
  · rw [update_of_ne hx, if_neg hx]
    by_cases hd : x = d
    · subst hd
      rw [update_self, if_pos rfl]
    · rw [update_of_ne hd, if_neg hd]

theorem detach_mount_of_ne {d k : Nat} (hk : k ≠ m) : (v.detach m d).mount k = v.mount k :=
  update_of_ne hk _ _

theorem detach_mount_self (v : Dcache) (m d : Nat) :
    (v.detach m d).mount m = { v.mount m with mountPoint := none } := update_self _ _ _

theorem detach_root (v : Dcache) (m d k : Nat) :
    ((v.detach m d).mount k).root = (v.mount k).root := by
  by_cases hk : k = m
  · subst hk
    rw [detach_mount_self]
  · rw [detach_mount_of_ne hk]

theorem getInode_detach (v : Dcache) (m d x : Nat) : (v.detach m d).getInode x = v.getInode x := by
  unfold getInode
  rw [detach_dentry]
  rfl

theorem mem_children_detach {e : Name × Nat} : e ∈ ((v.detach m d).dentry x).children ↔
      x ≠ (v.mount m).root ∧ e ∈ (v.dentry x).children := by
  rw [detach_dentry]
  dsimp only
  split_ifs with hx
  · simp [hx]
  · simp [hx]

theorem isRoot_detach : (v.detach m d).IsRoot x ↔ v.IsRoot x := by
  refine exists_congr fun k => ?_
  rw [detach_root]
  rfl

theorem paired_detach {d k x : Nat} (hx : v.Paired k x) : (v.detach m d).Paired k x := by
  induction hx with
  | root hk =>
    have hroot := Paired.root (v := v.detach m d) hk
    rwa [detach_root] at hroot
  | child _ hparent hc hnot ih =>
    refine .child ih ?_ hc (fun hr => hnot (isRoot_detach.mp hr))
    rw [detach_dentry]
    exact hparent

variable (hv : v.Wf) (hm : m < v.nextMount) (hpoint : (v.mount m).mountPoint = some p)

include hpoint in
theorem mem_mounts_detach {x k : Nat} (hv : v.Wf)
    (hmem : k ∈ ((v.detach m p.dentry).dentry x).mounts) : k ≠ m ∧ k ∈ (v.dentry x).mounts := by
  rw [detach_dentry] at hmem
  dsimp only at hmem
  split_ifs at hmem with hx
  · obtain ⟨hold, hne⟩ := mem_filter.mp hmem
    exact ⟨by simpa using hne, hold⟩
  refine ⟨?_, hmem⟩
  intro hk
  subst hk
  obtain ⟨-, -, m', hpoint', -⟩ := hv.mounted x k hmem
  rw [hpoint] at hpoint'
  cases hpoint'
  exact hx rfl

include hv hpoint in
theorem Wf.detach : (v.detach m p.dentry).Wf := by
  refine ⟨?_, ?_, ?_, ?_, ?_, ?_, ?_, ?_, ?_⟩
  · intro d name c hmem
    obtain ⟨hc, hparent, hnot⟩ := hv.child d name c (mem_children_detach.mp hmem).2
    refine ⟨hc, ?_, fun hr => hnot (isRoot_detach.mp hr)⟩
    rw [detach_dentry]
    exact hparent
  · intro c d hparent
    rw [detach_dentry] at hparent
    exact hv.parent c d hparent
  · intro k hk
    rw [detach_root]
    exact hv.root k hk
  · intro k k' hk hk' heq
    rw [detach_root, detach_root] at heq
    exact hv.rootInj k k' hk hk' heq
  · intro d k hmem
    obtain ⟨hne, hold⟩ := mem_mounts_detach hpoint hv hmem
    obtain ⟨hk, hbelow, m', hpoint', hpaired⟩ := hv.mounted d k hold
    rw [detach_mount_of_ne hne]
    exact ⟨hk, hbelow, m', hpoint', paired_detach hpaired⟩
  · intro k q hk hq
    by_cases hne : k = m
    · subst hne
      rw [detach_mount_self] at hq
      cases hq
    · rw [detach_mount_of_ne hne] at hq
      exact hv.point k q hk hq
  · intro d hd
    obtain ⟨hc, hmounts⟩ := hv.fresh d hd
    constructor
    · refine eq_nil_iff_forall_not_mem.mpr fun e he => ?_
      have hold := (mem_children_detach.mp he).2
      rw [hc] at hold
      cases hold
    · refine eq_nil_iff_forall_not_mem.mpr fun k hk => ?_
      have hold := (mem_mounts_detach hpoint hv hk).2
      rw [hmounts] at hold
      cases hold
  · intro d
    rw [detach_dentry]
    dsimp only
    split_ifs
    · exact nodup_nil
    · exact hv.names d
  · intro d name name' c hmem hmem'
    exact hv.single d name name' c (mem_children_detach.mp hmem).2 (mem_children_detach.mp hmem').2

end Detach

section Detach

variable {m : Nat} {p : PathNode} (h : v.Coherent) (hpoint : (v.mount m).mountPoint = some p)

theorem Attached.detach_or (hn : v.Attached n) :
    (v.detach m p.dentry).Attached n ∨ v.Under (v.mount m).root n := by
  refine hn.transfer ?_ ?_ (fun k q hk hq hunder => .inr (hunder.mounted hk hq))
    fun b name c hmem hb => hb.child hmem
  · intro k hk _
    by_cases hne : k = m
    · subst hne
      exact .inr .self
    · exact .inl ⟨hk, detach_mount_of_ne hne, by rw [detach_dentry], getInode_detach _ _ _ _⟩
  · intro b name c i hmem hino
    by_cases hd : b.dentry = (v.mount m).root
    · obtain ⟨bm, bd⟩ := b
      subst hd
      exact .inr (Under.self.child hmem)
    · exact .inl ⟨mem_children_detach.mpr ⟨hd, hmem⟩, (getInode_detach _ _ _ _).trans hino⟩

include h hpoint in
theorem Attached.of_detach (hn : (v.detach m p.dentry).Attached n) (hm : m < v.nextMount) :
    v.Attached n := by
  refine (hn.transfer (Q := fun _ => False) ?_ ?_ (fun _ _ _ _ => False.elim)
    fun _ _ _ _ hb => hb).resolve_right id
  · intro k hk hway
    have hne : k ≠ m := by
      -- The root of the mount has its mount point as parent.
      intro heq
      subst heq
      rw [detach_mount_self, detach_dentry, (h.point k p hm hpoint).2.2] at hway
      exact nomatch hway rfl
    exact .inl ⟨hk, (detach_mount_of_ne hne).symm, by rw [detach_mount_of_ne hne, detach_dentry],
      by rw [detach_mount_of_ne hne, getInode_detach]⟩
  · intro b name c i hmem hino
    rw [getInode_detach] at hino
    exact .inl ⟨(mem_children_detach.mp hmem).2, hino⟩

include h hpoint in
/-- **Unmounting.** -/
theorem Coherent.detach (hm : m < v.nextMount)
    (hfree : v.NoMounts (v.mount m).root) : (v.detach m p.dentry).Coherent := by
  have hv := h.sound.wf
  have hroot : ∀ k, (v.detach m p.dentry).getInode ((v.detach m p.dentry).mount k).root =
      v.getInode (v.mount k).root := by
    intro k
    rw [detach_root, getInode_detach]
  have hother : ∀ k q, ((v.detach m p.dentry).mount k).mountPoint = some q →
      k ≠ m ∧ (v.mount k).mountPoint = some q := by
    intro k q hq
    by_cases hne : k = m
    · subst hne
      rw [detach_mount_self] at hq
      cases hq
    · rw [detach_mount_of_ne hne] at hq
      exact ⟨hne, hq⟩
  refine ⟨⟨hv.detach hpoint, h.sound.nodes, ?_⟩, h.alive, ?_, ?_, h.unique, ?_, ?_, ?_, ?_, ?_⟩
  · intro d i hi
    rw [getInode_detach] at hi
    exact h.sound.cached d i hi
  · intro k hk
    rw [hroot]
    exact h.root k hk
  · intro k k' hk hk' heq
    rw [hroot, hroot] at heq
    exact h.apart k k' hk hk' heq
  · intro n hn name c hmem
    obtain ⟨i, hi, hdir, hchild⟩ :=
      h.table n (Attached.of_detach h hpoint hn hm) name c (mem_children_detach.mp hmem).2
    refine ⟨i, ?_, hdir, ?_⟩
    · rw [getInode_detach]
      exact hi
    · rw [getInode_detach]
      exact hchild
  · intro d hne
    obtain ⟨e, he⟩ := exists_mem_of_ne_nil _ hne
    rw [getInode_detach]
    exact h.bare d (ne_nil_of_mem (mem_children_detach.mp he).2)
  · intro k q hk hq
    obtain ⟨hne, hold⟩ := hother k q hq
    obtain ⟨hattached, hino, hparent⟩ := h.point k q hk hold
    refine ⟨(Attached.detach_or hattached).resolve_right (hfree k q hk hold), ?_, ?_⟩
    · rw [getInode_detach]
      exact hino
    · rw [detach_root, detach_dentry]
      exact hparent
  · intro d
    have hkey : ∀ k, (v.detach m p.dentry).pointsAt d k = (v.pointsAt d k && decide (k ≠ m)) := by
      intro k
      unfold pointsAt
      by_cases hne : k = m
      · subst hne
        rw [detach_mount_self]
        simp
      · rw [detach_mount_of_ne hne]
        simp [hne]
    have hnew : (range v.nextMount).filter ((v.detach m p.dentry).pointsAt d) =
        (v.dentry d).mounts.filter fun k => k ≠ m := by
      rw [h.stack d, filter_filter]
      refine filter_congr fun k _ => ?_
      rw [hkey k, Bool.and_comm]
    refine Eq.trans ?_ hnew.symm
    rw [detach_dentry]
    dsimp only
    split_ifs with hd
    · rfl
    -- The mount is recorded for its mount point only.
    refine (filter_eq_self.mpr fun k hk => ?_).symm
    have hne : k ≠ m := by
      intro heq
      subst heq
      obtain ⟨-, m', hpoint'⟩ := h.mem_mounts.mp hk
      rw [hpoint] at hpoint'
      cases hpoint'
      exact hd rfl
    simpa using hne
  · intro k q hk hq hroot'
    obtain ⟨hne, hold⟩ := hother k q hq
    rw [detach_root] at hroot'
    have hnone := h.flat k q hk hold hroot'
    by_cases hqm : q.mount = m
    · rw [hqm, detach_mount_self]
    · rw [detach_mount_of_ne hqm]
      exact hnone

end Detach

theorem Coherent.umount (h : v.Coherent) (hn : n.mount < v.nextMount) :
    (v.umount n).2.Coherent := by
  unfold Dcache.umount
  split
  · exact h
  next hroot =>
    cases hpoint : (v.mount n.mount).mountPoint with
    | none => exact h
    | some p =>
      cases hsub : v.hasSubmounts v.nextDentry n.dentry with
      | true => exact h
      | false =>
        have hroot' : n.dentry = (v.mount n.mount).root := Classical.not_not.mp hroot
        rw [hroot'] at hsub
        exact h.detach hpoint hn (h.no_submounts hsub)

end Petra.Vfs.Dcache
