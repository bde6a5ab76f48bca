import Petra.Vfs.Uncached

/-! # How operations keep the cache coherent

An operation changes one entry of a directory and then patches the cached entry of the name.
That is enough if the directory is cached once and nothing is mounted below the entry.
-/

namespace Petra.Vfs

open Function

/-- The directories after one entry was changed. -/
structure Nodes.Rewired (n n' : Nodes) (dir : Nat) (name : Name) (ino : Option Nat) : Prop where
  wf : n'.Wf
  next : n.nextIno ≤ n'.nextIno
  kind : ∀ i, i < n.nextIno → n'.kind i = n.kind i
  entry : ∀ i name', n'.entry i name' =
    if i = dir ∧ name' = name then ino else n.entry i name'

namespace Nodes

variable {n n' : Nodes} {dir : Nat} {name : Name}

theorem rewired_removeEntry (h : n.Wf) : n.Rewired (n.removeEntry dir name) dir name none :=
  ⟨h.removeEntry, le_rfl, fun _ _ => rfl, n.entry_removeEntry dir name⟩

theorem rewired_setEntry {ino : Nat} (h : n.Wf) (hdir : dir < n.nextIno) (hino : ino < n.nextIno) :
    n.Rewired (n.setEntry dir name ino) dir name (some ino) :=
  ⟨h.setEntry hdir hino, le_rfl, fun _ _ => rfl, n.entry_setEntry dir name ino⟩

theorem rewired_create {kind : Kind} (h : n.Wf) (hdir : dir < n.nextIno) :
    n.Rewired ((n.alloc kind).setEntry dir name n.nextIno) dir name (some n.nextIno) := by
  refine ⟨h.alloc.setEntry (Nat.lt_succ_of_lt hdir) (Nat.lt_succ_self _), Nat.le_succ _, ?_, ?_⟩
  · exact fun i hi => update_of_ne hi.ne _ _
  · intro i name'
    rw [entry_setEntry, entry_alloc h]

theorem Rewired.isDir {ino : Option Nat} (h : n.Rewired n' dir name ino) {i : Nat}
    (hi : i < n.nextIno) : n'.isDir i = n.isDir i := by
  unfold Nodes.isDir
  rw [h.kind i hi]

end Nodes

namespace Dcache

variable {v v' : Dcache} {a n : PathNode} {place : Place} {name : Name} {c₀ dir : Nat}
  {ino : Option Nat} {clear : Bool}

/-! ### One entry of the cache -/

/-- The heap after the cached entry of one name was patched. -/
structure Repatched (v v' : Dcache) (a : PathNode) (name : Name) (c₀ : Nat)
    (ino : Option Nat) : Prop where
  wf : v'.Wf
  mount : v'.mount = v.mount
  nextMount : v'.nextMount = v.nextMount
  mounts : ∀ d, (v'.dentry d).mounts = (v.dentry d).mounts
  parent : ∀ d, d < v.nextDentry → (v'.dentry d).parent = (v.dentry d).parent
  alive : ∀ d, v.alive d = true → v'.alive d = true
  entry : (name, c₀) ∈ (v'.dentry a.dentry).children
  inode : v'.getInode c₀ = ino
  same : ∀ d, d ≠ c₀ → v'.getInode d = v.getInode d
  empty : (v'.dentry c₀).children = []
  old : ∀ d name' c, (name', c) ∈ (v'.dentry d).children →
    (d = a.dentry ∧ name' = name ∧ c = c₀) ∨ (name', c) ∈ (v.dentry d).children
  kept : ∀ d name' c, d ≠ c₀ → (name', c) ∈ (v.dentry d).children →
    (v.getInode c).isSome = true → (name', c) ∈ (v'.dentry d).children
  place : (name, c₀) ∈ (v.dentry a.dentry).children ∨
    v.nextDentry ≤ c₀ ∧ v.lookupChild a.dentry name = none

theorem repatched_newChild (hv : v.Wf) (ha : a.dentry < v.nextDentry)
    (hnone : v.lookupChild a.dentry name = none) :
    v.Repatched (v.newChild a.dentry name ino) a name v.nextDentry ino := by
  have hext := @extends_newChild v a.dentry name ino ha hv
  refine ⟨hv.newChild ha, rfl, rfl, hext.mounts, hext.parent, ?_, mem_newChild_self ha, ?_, ?_, ?_,
    ?_, ?_, .inr ⟨le_rfl, hnone⟩⟩
  · intro d hd
    by_cases hnew : d = v.nextDentry
    · subst hnew
      exact update_self _ _ _
    · exact (update_of_ne hnew _ _).trans hd
  · rw [getInode_newChild ha, if_pos rfl]
  · intro d hd
    rw [getInode_newChild ha, if_neg hd]
  · rw [newChild_dentry_new ha]
  · exact fun d name' c hmem => children_newChild ha hmem
  · intro d name' c _ hmem hc
    refine mem_newChild_of_present ha hv hmem hc ?_
    intro hself hname
    subst hself hname
    rw [lookupChild, DEntry.lookupChild_of_mem (hv.names _) hmem] at hnone
    cases hnone

theorem repatched_modify (hv : v.Wf) {c : Nat}
    (hmem₀ : (name, c) ∈ (v.dentry a.dentry).children) (hwf : v'.Wf) (hv' : v' = v.modify c fun e =>
      { e with state := .of ino, children := if clear then [] else e.children })
    (hclear : clear = false → (v.dentry c).children = []) : v.Repatched v' a name c ino := by
  have hne : a.dentry ≠ c := (hv.parent _ _ (hv.child _ _ _ hmem₀).2.1).ne
  have hempty : (if clear then [] else (v.dentry c).children) = [] := by
    cases clear with
    | true => rfl
    | false => exact hclear rfl
  have hother : ∀ d ≠ c, v'.dentry d = v.dentry d := by
    rw [hv']
    exact fun d hd => update_of_ne hd _ _
  have hself : v'.dentry c = { v.dentry c with state := .of ino, children := [] } := by
    simp only [hv', modify, update_self, hempty]
  have hfields : ∀ d, (v'.dentry d).mounts = (v.dentry d).mounts ∧
      (v'.dentry d).parent = (v.dentry d).parent := by
    intro d
    by_cases hd : d = c
    · subst hd
      rw [hself]
      exact ⟨rfl, rfl⟩
    · rw [hother d hd]
      exact ⟨rfl, rfl⟩
  refine ⟨hwf, by rw [hv']; rfl, by rw [hv']; rfl, fun d => (hfields d).1, fun d _ => (hfields d).2,
    by rw [hv']; exact fun _ hd => hd, ?_, ?_, ?_, ?_, ?_, ?_, .inl hmem₀⟩
  · rw [hother _ hne]
    exact hmem₀
  · unfold getInode
    rw [hself]
    cases ino <;> rfl
  · intro d hd
    unfold getInode
    rw [hother d hd]
  · rw [hself]
  · intro d name' c' hmem
    by_cases hd : d = c
    · subst hd
      rw [hself] at hmem
      cases hmem
    · rw [hother d hd] at hmem
      exact .inr hmem
  · intro d name' c' hd hmem _
    rw [hother d hd]
    exact hmem

theorem repatched_patch (hv : v.Wf) (ha : a.dentry < v.nextDentry) (nodes : Nodes)
    (hclear : clear = false → ∀ c, v.lookupChild a.dentry name = some c →
      (v.dentry c).children = []) :
    v.Repatched (({ v with nodes := nodes } : Dcache).patch a.dentry name ino clear) a name
      ((v.lookupChild a.dentry name).getD v.nextDentry) ino := by
  have hpatch : v.Repatched (v.patch a.dentry name ino clear) a name
      ((v.lookupChild a.dentry name).getD v.nextDentry) ino := by
    have hwf : (v.patch a.dentry name ino clear).Wf := hv.patch ha
    rcases patch_cases v a.dentry name ino clear with ⟨hnone, heq⟩ | ⟨c, hsome, heq⟩
    · rw [heq, hnone]
      exact repatched_newChild hv ha hnone
    · rw [heq] at hwf ⊢
      rw [hsome]
      exact repatched_modify hv (DEntry.mem_of_lookupChild hsome) hwf rfl fun hc => hclear hc c hsome
  rw [patch_setNodes]
  exact { hpatch with wf := hpatch.wf.setNodes nodes }

/-- The nodes below a dentry, through tables and mounts. -/
inductive Under (v : Dcache) (c : Nat) : PathNode → Prop
  | self {m : Nat} : Under v c ⟨m, c⟩
  | mounted {m : Nat} {p : PathNode} (under : Under v c p) (hm : m < v.nextMount)
      (hpoint : (v.mount m).mountPoint = some p) : Under v c ⟨m, (v.mount m).root⟩
  | child {n : PathNode} {name : Name} {d : Nat} (under : Under v c n)
      (hmem : (name, d) ∈ (v.dentry n.dentry).children) : Under v c ⟨n.mount, d⟩

/-- Nothing is mounted at the dentry or below it. -/
abbrev NoMounts (v : Dcache) (c : Nat) : Prop :=
  ∀ m p, m < v.nextMount → (v.mount m).mountPoint = some p → ¬ v.Under c p

namespace Repatched

variable (h : v.Repatched v' a name c₀ ino)

include h

theorem root_ne {m : Nat} (hm : m < v.nextMount) : (v.mount m).root ≠ c₀ := by
  intro heq
  refine (h.wf.child _ _ _ h.entry).2.2 ⟨m, h.nextMount ▸ hm, ?_⟩
  rw [h.mount]
  exact heq

theorem parent_ne : a.dentry ≠ c₀ :=
  (h.wf.parent _ _ (h.wf.child _ _ _ h.entry).2.1).ne

/-- The entry has no children. -/
theorem ne_of_mem {d : Nat} {e : Name × Nat} (hmem : e ∈ (v'.dentry d).children) : d ≠ c₀ := by
  rintro rfl
  rw [h.empty] at hmem
  cases hmem

/-- What is not below the entry can still be reached. -/
theorem attached_or (hv : v.Wf) (hn : v.Attached n) : v'.Attached n ∨ v.Under c₀ n := by
  refine hn.transfer ?_ ?_ (fun m p hm hpoint hp => .inr (hp.mounted hm hpoint))
    fun b name c hmem hb => hb.child hmem
  · exact fun m hm _ => .inl ⟨h.nextMount ▸ hm, by rw [h.mount], h.parent _ (hv.root m hm),
      h.same _ (h.root_ne hm)⟩
  intro b name' c i hmem hino
  by_cases hc : c = c₀
  · subst hc
    exact .inr .self
  by_cases hd : b.dentry = c₀
  · obtain ⟨m, d⟩ := b
    cases hd
    exact .inr (Under.self.child hmem)
  · refine .inl ⟨h.kept _ _ _ hd hmem ?_, (h.same c hc).trans hino⟩
    rw [hino]
    rfl

/-- Only the entry itself may be reached for the first time. -/
theorem attached_of (hv : v.Coherent) (hn : v'.Attached n) : v.Attached n ∨ n.dentry = c₀ := by
  refine hn.transfer (Q := fun n => n.dentry = c₀) ?_ ?_ ?_ ?_
  · intro m hm _
    rw [h.nextMount] at hm
    refine .inl ⟨hm, by rw [h.mount], ?_, ?_⟩
    · rw [h.mount, h.parent _ (hv.sound.wf.root m hm)]
    · rw [h.mount, h.same _ (h.root_ne hm)]
  · intro b name' c i hmem hino
    by_cases hc : c = c₀
    · exact .inr hc
    · rcases h.old _ _ _ hmem with ⟨-, -, hentry⟩ | hold
      · exact absurd hentry hc
      · exact .inl ⟨hold, (h.same c hc).symm.trans hino⟩
  · intro m p hm hpoint _
    rw [h.nextMount] at hm
    rw [h.mount] at hpoint
    exact .inl (hv.point m p hm hpoint).1
  · exact fun b name' c hmem hb => absurd hb (h.ne_of_mem hmem)

end Repatched

/-! ### Coherence -/

/-- **One entry is changed.** The cache stays coherent if a directory that gets a name had no
other, and nothing is mounted at or below the entry. -/
theorem Coherent.repatched (hv : v.Coherent) (h : v.Repatched v' a name c₀ ino)
    (hnodes : v.nodes.Rewired v'.nodes dir name ino) (ha : v.Attached a)
    (hino : v.getInode a.dentry = some dir) (hdir : v.nodes.isDir dir = true)
    (hnew : ∀ i, ino = some i → i < v'.nodes.nextIno ∧
      (v'.nodes.isDir i = true → ∀ d name', v'.nodes.entry d name' = some i → d = dir ∧ name' = name) ∧
      ∀ m < v.nextMount, v.getInode (v.mount m).root ≠ some i)
    (hfree : v.NoMounts c₀) : v'.Coherent := by
  have hwf := hv.sound.wf
  have hroot : ∀ m < v.nextMount, v'.getInode (v'.mount m).root = v.getInode (v.mount m).root := by
    intro m hm
    rw [h.mount, h.same _ (h.root_ne hm)]
  have hisDir : ∀ d i, v.getInode d = some i → v'.nodes.isDir i = v.nodes.isDir i :=
    fun d i hi => hnodes.isDir (hv.sound.cached d i hi)
  have hparent : v'.Matches a.dentry name c₀ := by
    refine ⟨dir, (h.same _ h.parent_ne).trans hino, (hisDir _ _ hino).trans hdir, ?_⟩
    rw [h.inode, hnodes.entry, if_pos ⟨rfl, rfl⟩]
  refine ⟨⟨h.wf, hnodes.wf, ?_⟩, fun d => h.alive d (hv.alive d), ?_, ?_, ?_, ?_, ?_, ?_, ?_, ?_⟩
  · intro d i hi
    by_cases hd : d = c₀
    · rw [hd, h.inode] at hi
      exact (hnew i hi).1
    · rw [h.same d hd] at hi
      exact (hv.sound.cached d i hi).trans_le hnodes.next
  · intro m hm
    rw [h.nextMount] at hm
    obtain ⟨i, hi, hrootDir, hentry⟩ := hv.root m hm
    rw [hroot m hm]
    refine ⟨i, hi, (hisDir _ _ hi).trans hrootDir, fun d name' heq => ?_⟩
    rw [hnodes.entry] at heq
    split_ifs at heq
    · exact (hnew i heq).2.2 m hm hi
    · exact hentry d name' heq
  · intro m m' hm hm' heq
    rw [h.nextMount] at hm hm'
    rw [hroot m hm, hroot m' hm'] at heq
    exact hv.apart m m' hm hm' heq
  · intro d₁ name₁ d₂ name₂ i hi h₁ h₂
    -- If one of the entries is the changed one, so is the other.
    by_cases hfirst : d₁ = dir ∧ name₁ = name
    · have hsome : ino = some i := by
        rw [hnodes.entry, if_pos hfirst] at h₁
        exact h₁
      obtain ⟨hd, hname⟩ := (hnew i hsome).2.1 hi d₂ name₂ h₂
      exact ⟨hfirst.1.trans hd.symm, hfirst.2.trans hname.symm⟩
    · by_cases hsecond : d₂ = dir ∧ name₂ = name
      · have hsome : ino = some i := by
          rw [hnodes.entry, if_pos hsecond] at h₂
          exact h₂
        exact absurd ((hnew i hsome).2.1 hi d₁ name₁ h₁) hfirst
      · rw [hnodes.entry, if_neg hfirst] at h₁
        rw [hnodes.entry, if_neg hsecond] at h₂
        have hlt := (hv.sound.nodes _ _ (Nodes.mem_of_entry h₁)).2
        rw [hnodes.isDir hlt] at hi
        exact hv.unique d₁ name₁ d₂ name₂ i hi h₁ h₂
  · intro n hn name' c hmem
    rcases h.attached_of hv hn with hold | hself
    · rcases h.old _ _ _ hmem with ⟨hd, rfl, rfl⟩ | hmem'
      · rw [hd]
        exact hparent
      have hne := h.ne_of_mem hmem
      obtain ⟨i, hi, hidir, hchild⟩ := hv.table n hold name' c hmem'
      by_cases hchanged : n.dentry = a.dentry ∧ name' = name
      · -- The name has one entry in the table.
        obtain ⟨hd, rfl⟩ := hchanged
        have hc : c = c₀ := by
          rw [hd] at hmem
          have hfound := DEntry.lookupChild_of_mem (h.wf.names _) hmem
          rw [DEntry.lookupChild_of_mem (h.wf.names _) h.entry] at hfound
          exact (Option.some.inj hfound).symm
        rw [hd, hc]
        exact hparent
      · have hc : c ≠ c₀ := by
          intro hc
          subst hc
          rcases h.place with hmem₀ | ⟨hfresh, -⟩
          · have hp := (hwf.child _ _ _ hmem').2.1
            rw [(hwf.child _ _ _ hmem₀).2.1] at hp
            have hd := Option.some.inj hp
            rw [hd] at hmem₀
            exact hchanged ⟨hd.symm, hwf.single _ _ _ _ hmem' hmem₀⟩
          · exact absurd (hwf.child _ _ _ hmem').1 (Nat.not_lt_of_le hfresh)
        refine ⟨i, (h.same _ hne).trans hi, (hisDir _ _ hi).trans hidir, ?_⟩
        rw [h.same c hc, hnodes.entry, if_neg]
        · exact hchild
        · -- The directory is cached once.
          intro hboth
          obtain ⟨rfl, rfl⟩ := hboth
          rw [hv.node_unique hold ha hi hino hdir] at hchanged
          exact hchanged ⟨rfl, rfl⟩
    · exact absurd hself (h.ne_of_mem hmem)
  · intro d hne
    obtain ⟨e, hmem⟩ := List.exists_mem_of_ne_nil _ hne
    rw [h.same d (h.ne_of_mem hmem)]
    rcases h.old d e.1 e.2 hmem with ⟨rfl, -, -⟩ | hold
    · exact ⟨dir, hino, (hisDir _ _ hino).trans hdir⟩
    · obtain ⟨i, hi, hidir⟩ := hv.bare d (List.ne_nil_of_mem hold)
      exact ⟨i, hi, (hisDir _ _ hi).trans hidir⟩
  · intro m p hm hpoint
    rw [h.nextMount] at hm
    rw [h.mount] at hpoint
    obtain ⟨hattached, ⟨i, hi, hidir⟩, hup⟩ := hv.point m p hm hpoint
    have hnot := hfree m p hm hpoint
    have hne : p.dentry ≠ c₀ := by
      intro heq
      cases heq
      exact hnot .self
    refine ⟨(h.attached_or hwf hattached).resolve_right hnot, ⟨i, ?_, ?_⟩, ?_⟩
    · exact (h.same _ hne).trans hi
    · exact (hisDir _ _ hi).trans hidir
    · rw [h.mount, h.parent _ (hwf.root m hm)]
      exact hup
  · intro d
    rw [h.mounts, hv.stack d, h.nextMount]
    unfold pointsAt
    rw [h.mount]
  · rw [h.mount, h.nextMount]
    exact hv.flat

variable (hv : v.Coherent)
  (hleaf : ∀ name c, (name, c) ∈ (v.dentry c₀).children → v.getInode c = none)
  (hmount : ∀ m p, m < v.nextMount → (v.mount m).mountPoint = some p → p.dentry ≠ c₀)

include hv hleaf hmount

/-- Below an entry without children that have inodes there is no mount point but itself. -/
theorem Coherent.leaf (hn : v.Under c₀ n) : n.dentry = c₀ ∨ v.getInode n.dentry = none := by
  induction hn with
  | self => exact .inl rfl
  | mounted _ hm hpoint ih =>
    rcases ih with heq | hnone
    · exact absurd heq (hmount _ _ hm hpoint)
    · obtain ⟨-, ⟨i, hi, -⟩, -⟩ := hv.point _ _ hm hpoint
      rw [hi] at hnone
      cases hnone
  | child _ hmem ih =>
    rcases ih with heq | hnone
    · rw [heq] at hmem
      exact .inr (hleaf _ _ hmem)
    · obtain ⟨i, hi, -⟩ := hv.bare _ (List.ne_nil_of_mem hmem)
      rw [hi] at hnone
      cases hnone

theorem Coherent.leaf_free : v.NoMounts c₀ := by
  intro m p hm hpoint hunder
  rcases hv.leaf hleaf hmount hunder with heq | hnone
  · exact hmount m p hm hpoint heq
  · obtain ⟨-, ⟨i, hi, -⟩, -⟩ := hv.point m p hm hpoint
    rw [hi] at hnone
    cases hnone

end Dcache

end Petra.Vfs
