import Petra.Vfs.Outcomes

/-! # Patching the cache

What a patched entry changes: the inode of one dentry that exists, or one new dentry.
-/

namespace Petra.Vfs

open Function List Nat

/-- Entries lead from inodes that exist to inodes that exist. -/
def Nodes.Wf (n : Nodes) : Prop :=
  ∀ i, ∀ e ∈ n.entries i, i < n.nextIno ∧ e.2 < n.nextIno

/-- No directory has an entry for the inode. -/
def Nodes.Removed (n : Nodes) (ino : Nat) : Prop := ∀ i, ∀ e ∈ n.entries i, e.2 ≠ ino

namespace Nodes

variable {n n' : Nodes} {dir ino : Nat} {name : Name}

variable {e : Name × Nat} {i : Nat}

theorem mem_setEntry (he : e ∈ (n.setEntry dir name ino).entries i) :
    (i = dir ∧ e = (name, ino)) ∨ e ∈ n.entries i := by
  by_cases hi : i = dir
  · subst hi
    simp only [setEntry, update_self, mem_cons] at he
    rcases he with heq | hold
    · exact .inl ⟨rfl, heq⟩
    · exact .inr (mem_filter.mp hold).1
  · simp only [setEntry, update_of_ne hi] at he
    exact .inr he

theorem mem_removeEntry (he : e ∈ (n.removeEntry dir name).entries i) :
    e ∈ n.entries i ∧ (i = dir → e.1 ≠ name) := by
  by_cases hi : i = dir
  · subst hi
    simp only [removeEntry, update_self] at he
    obtain ⟨hold, hne⟩ := mem_filter.mp he
    exact ⟨hold, fun _ => by simpa using hne⟩
  · simp only [removeEntry, update_of_ne hi] at he
    exact ⟨he, fun h => absurd h hi⟩

variable {kind : Kind}

theorem mem_alloc (he : e ∈ (n.alloc kind).entries i) : e ∈ n.entries i := by
  by_cases hi : i = n.nextIno
  · subst hi
    simp only [alloc, update_self] at he
    cases he
  · simpa only [alloc, update_of_ne hi] using he

theorem entry_setEntry (n : Nodes) (dir : Nat) (name : Name) (ino i : Nat) (name' : Name) :
    (n.setEntry dir name ino).entry i name' =
      if i = dir ∧ name' = name then some ino else n.entry i name' := by
  by_cases hi : i = dir
  · subst hi
    by_cases hname : name' = name
    · subst hname
      simp [entry, setEntry]
    rw [if_neg (fun h => hname h.2)]
    have hne : name ≠ name' := fun h => hname h.symm
    simp only [entry, setEntry, update_self, find?_cons, hne, decide_false]
    rw [find?_filter]
    congr 2
    funext e
    by_cases he : e.1 = name'
    · simp [he, hname]
    · simp [he]
  · rw [if_neg (fun h => hi h.1)]
    simp only [entry, setEntry, update_of_ne hi]

theorem entry_removeEntry (n : Nodes) (dir : Nat) (name : Name) (i : Nat) (name' : Name) :
    (n.removeEntry dir name).entry i name' =
      if i = dir ∧ name' = name then none else n.entry i name' := by
  by_cases hboth : i = dir ∧ name' = name
  · rw [if_pos hboth]
    cases hentry : (n.removeEntry dir name).entry i name' with
    | none => rfl
    | some j => exact absurd hboth.2 ((mem_removeEntry (mem_of_entry hentry)).2 hboth.1)
  rw [if_neg hboth]
  by_cases hi : i = dir
  · subst hi
    have hname : name' ≠ name := fun h => hboth ⟨rfl, h⟩
    simp only [entry, removeEntry, update_self, find?_filter]
    congr 2
    funext e
    by_cases he : e.1 = name'
    · simp [he, hname]
    · simp [he]
  · simp only [entry, removeEntry, update_of_ne hi]

theorem entry_alloc (h : n.Wf) (kind : Kind) (i : Nat) (name' : Name) :
    (n.alloc kind).entry i name' = n.entry i name' := by
  by_cases hi : i = n.nextIno
  · subst hi
    have hnone : n.entry n.nextIno name' = none := by
      cases hentry : n.entry n.nextIno name' with
      | none => rfl
      | some j => exact absurd (h _ _ (mem_of_entry hentry)).1 (lt_irrefl _)
    rw [hnone]
    simp only [entry, alloc, update_self]
    rfl
  · simp only [entry, alloc, update_of_ne hi]

/-! ### What the driver keeps -/

theorem Wf.removeEntry (h : n.Wf) : (n.removeEntry dir name).Wf :=
  fun i e he => h i e (mem_removeEntry he).1

theorem Wf.setEntry (h : n.Wf) (hdir : dir < n.nextIno) (hino : ino < n.nextIno) :
    (n.setEntry dir name ino).Wf := by
  intro i e he
  rcases mem_setEntry he with ⟨rfl, rfl⟩ | hold
  · exact ⟨hdir, hino⟩
  · exact h i e hold

theorem Wf.alloc (h : n.Wf) : (n.alloc kind).Wf := by
  intro i e he
  obtain ⟨hi, hino⟩ := h i e (mem_alloc he)
  exact ⟨lt_succ_of_lt hi, lt_succ_of_lt hino⟩

/-- The outcome of a driver that creates an inode. -/
theorem create_spec (h : n.create dir name kind = .ok (ino, n')) :
    n.isDir dir = true ∧ ino = n.nextIno ∧ n' = (n.alloc kind).setEntry dir name n.nextIno := by
  unfold create at h
  split_ifs at h with hdir
  cases h
  exact ⟨hdir, rfl, rfl⟩

variable {u : Unit}

theorem unlink_spec (h : n.unlink dir name = .ok (u, n')) :
    n.isDir dir = true ∧ n' = n.removeEntry dir name ∧
      ∃ ino, n.entry dir name = some ino ∧ n.isDir ino = false := by
  unfold unlink at h
  split_ifs at h with hisDir
  cases hentry : n.entry dir name with
  | none =>
    rw [hentry] at h
    cases h
  | some ino =>
    rw [hentry] at h
    dsimp only at h
    split_ifs at h with hdir
    cases h
    exact ⟨hisDir, rfl, ino, rfl, by simpa using hdir⟩

theorem rmdir_spec (h : n.rmdir dir name = .ok (u, n')) :
    n.isDir dir = true ∧ n' = n.removeEntry dir name ∧
      ∃ ino, n.entry dir name = some ino ∧ n.entries ino = [] := by
  unfold rmdir at h
  split_ifs at h with hisDir
  cases hentry : n.entry dir name with
  | none =>
    rw [hentry] at h
    cases h
  | some ino =>
    rw [hentry] at h
    dsimp only at h
    split_ifs at h with hdir hempty
    cases h
    exact ⟨hisDir, rfl, ino, rfl, by simpa using hempty⟩

theorem link_spec (h : n.link dir name ino = .ok (u, n')) :
    n.isDir dir = true ∧ n' = n.setEntry dir name ino := by
  unfold link at h
  split_ifs at h with hisDir
  cases h
  exact ⟨hisDir, rfl⟩

theorem rename_spec {keepsLinks : Bool} {oldDir newDir : Nat} {oldName newName : Name}
    (h : n.rename keepsLinks oldDir oldName newDir newName = .ok (u, n'))
    (hlinks : keepsLinks = true → n.entry newDir newName ≠ n.entry oldDir oldName) :
    n.isDir oldDir = true ∧ n.isDir newDir = true ∧ ∃ ino, n.entry oldDir oldName = some ino ∧
      n' = (n.removeEntry oldDir oldName).setEntry newDir newName ino ∧
      ∀ dst, n.entry newDir newName = some dst → n.isDir dst = true → n.entries dst = [] := by
  unfold rename at h
  cases hentry : n.entry oldDir oldName with
  | none =>
    rw [hentry] at h
    split_ifs at h
  | some ino =>
    have hmoves : ¬ (keepsLinks = true ∧ n.entry newDir newName = some ino) :=
      fun hkeeps => hlinks hkeeps.1 (hkeeps.2.trans hentry.symm)
    rw [hentry] at h
    dsimp only at h
    rw [if_neg hmoves] at h
    split_ifs at h with hdirs hfull
    cases h
    obtain ⟨hold, hnew⟩ := Bool.and_eq_true_iff.mp hdirs
    refine ⟨hold, hnew, ino, rfl, rfl, ?_⟩
    intro dst hdst hdir
    simpa [hdst, hdir] using hfull

end Nodes

/-- The heap is well formed and its inodes exist. -/
structure Dcache.Sound (v : Dcache) : Prop where
  wf : v.Wf
  nodes : v.nodes.Wf
  cached : ∀ d ino, v.getInode d = some ino → ino < v.nodes.nextIno

namespace Dcache

variable {v v' : Dcache} {d c : Nat} {name : Name} {ino : Option Nat} {clear : Bool}

/-- Well-formedness does not depend on inodes, and entries may be forgotten. -/
theorem Wf.congr (h : v.Wf) (hnext : v'.nextDentry = v.nextDentry) (hmount : v'.mount = v.mount)
    (hnextMount : v'.nextMount = v.nextMount)
    (hparent : ∀ d, (v'.dentry d).parent = (v.dentry d).parent)
    (hmounts : ∀ d, (v'.dentry d).mounts = (v.dentry d).mounts)
    (hchildren : ∀ d, (v'.dentry d).children.Sublist (v.dentry d).children) : v'.Wf := by
  have hroot : ∀ d, v'.IsRoot d ↔ v.IsRoot d := by
    intro d
    simp only [IsRoot, hmount, hnextMount]
  have hpaired : ∀ m d, v.Paired m d → v'.Paired m d := by
    intro m d hd
    induction hd with
    | root hm =>
      rw [← hmount]
      exact .root (hnextMount ▸ hm)
    | child _ hp hc hnot ih =>
      exact .child ih ((hparent _).trans hp) (hnext ▸ hc) (fun hr => hnot ((hroot _).mp hr))
  refine ⟨?_, ?_, ?_, ?_, ?_, ?_, ?_, ?_, ?_⟩
  · intro d name c hmem
    obtain ⟨hc, hp, hnot⟩ := h.child d name c ((hchildren d).subset hmem)
    exact ⟨hnext ▸ hc, (hparent c).trans hp, fun hr => hnot ((hroot c).mp hr)⟩
  · exact fun c p hp => h.parent c p ((hparent c).symm.trans hp)
  · intro m hm
    rw [hmount, hnext]
    exact h.root m (hnextMount ▸ hm)
  · intro m m' hm hm' heq
    rw [hmount] at heq
    exact h.rootInj m m' (hnextMount ▸ hm) (hnextMount ▸ hm') heq
  · intro d m hm
    obtain ⟨hlt, hbelow, m', hpoint, hp⟩ := h.mounted d m (hmounts d ▸ hm)
    rw [hmount, hnextMount]
    exact ⟨hlt, hbelow, m', hpoint, hpaired m' d hp⟩
  · intro m p hm hp
    rw [hmount] at hp
    rw [hnextMount, hnext]
    exact h.point m p (hnextMount ▸ hm) hp
  · intro d hd
    obtain ⟨hc, hm⟩ := h.fresh d (hnext ▸ hd)
    exact ⟨sublist_nil.mp (hc ▸ hchildren d), (hmounts d).trans hm⟩
  · exact fun d => (h.names d).sublist ((hchildren d).map _)
  · intro d name name' c hmem hmem'
    exact h.single d name name' c ((hchildren d).subset hmem) ((hchildren d).subset hmem')

theorem Wf.setNodes (h : v.Wf) (n : Nodes) : ({ v with nodes := n } : Dcache).Wf :=
  h.congr rfl rfl rfl (fun _ => rfl) (fun _ => rfl) (fun _ => .refl _)

/-- What a patch does to the dentries. -/
theorem patch_cases (v : Dcache) (d : Nat) (name : Name) (ino : Option Nat) (clear : Bool) :
    (v.lookupChild d name = none ∧ v.patch d name ino clear = v.newChild d name ino) ∨
      ∃ c, v.lookupChild d name = some c ∧ v.patch d name ino clear = v.modify c fun e =>
        { e with state := .of ino, children := if clear then [] else e.children } := by
  unfold patch
  cases hchild : v.lookupChild d name with
  | none => exact .inl ⟨rfl, rfl⟩
  | some c =>
    right
    refine ⟨c, rfl, ?_⟩
    cases clear with
    | false => rfl
    | true => simp [setInode, clearChildren, modify]

theorem Wf.patch (h : v.Wf) (hd : d < v.nextDentry) : (v.patch d name ino clear).Wf := by
  rcases patch_cases v d name ino clear with ⟨-, heq⟩ | ⟨c, -, heq⟩
  · rw [heq]
    exact h.newChild hd
  rw [heq]
  refine h.congr rfl rfl rfl ?_ ?_ ?_
  all_goals
    intro d'
    by_cases hc : d' = c
    · subst hc
      cases clear <;> simp [modify]
    · simp [modify, update_of_ne hc]

/-- The inodes after a patch. -/
theorem getInode_patch (hd : d < v.nextDentry) (d' : Nat) : (v.patch d name ino clear).getInode d' =
      if d' = (v.lookupChild d name).getD v.nextDentry then ino else v.getInode d' := by
  rcases patch_cases v d name ino clear with ⟨hnone, heq⟩ | ⟨c, hsome, heq⟩
  · rw [heq, getInode_newChild hd, hnone, Option.getD_none]
  rw [heq, hsome, Option.getD_some]
  by_cases hc : d' = c
  · subst hc
    simp only [getInode, modify, update_self, if_true]
    cases ino <;> rfl
  · simp only [getInode, modify, update_of_ne hc, if_neg hc]

theorem children_patch_old (hd : d < v.nextDentry) {d' : Nat} {name' : Name}
    (hmem : (name', c) ∈ ((v.patch d name ino clear).dentry d').children) (hc : c < v.nextDentry) :
    (name', c) ∈ (v.dentry d').children := by
  rcases patch_cases v d name ino clear with ⟨-, heq⟩ | ⟨c₀, -, heq⟩
  · rw [heq] at hmem
    rcases children_newChild hd hmem with ⟨-, -, rfl⟩ | hold
    · exact absurd hc (lt_irrefl _)
    · exact hold
  rw [heq] at hmem
  by_cases hc₀ : d' = c₀
  · subst hc₀
    simp only [modify, update_self] at hmem
    cases clear with
    | false => exact hmem
    | true => cases hmem
  · simpa only [modify, update_of_ne hc₀] using hmem

theorem next_le_patch (v : Dcache) (d : Nat) (name : Name) (ino : Option Nat) (clear : Bool) :
    v.nextDentry ≤ (v.patch d name ino clear).nextDentry := by
  rcases patch_cases v d name ino clear with ⟨-, heq⟩ | ⟨c, -, heq⟩
  · rw [heq]
    exact le_succ _
  · rw [heq]
    exact le_rfl

theorem nodes_patch (v : Dcache) (d : Nat) (name : Name) (ino : Option Nat) (clear : Bool) :
    (v.patch d name ino clear).nodes = v.nodes ∧
      (v.patch d name ino clear).nextMount = v.nextMount := by
  rcases patch_cases v d name ino clear with ⟨-, heq⟩ | ⟨c, -, heq⟩
  · rw [heq]
    exact ⟨rfl, rfl⟩
  · rw [heq]
    exact ⟨rfl, rfl⟩

theorem patch_setNodes (v : Dcache) (n : Nodes) (d : Nat) (name : Name) (ino : Option Nat)
    (clear : Bool) : ({ v with nodes := n } : Dcache).patch d name ino clear =
      { v.patch d name ino clear with nodes := n } := by
  have hchild : ({ v with nodes := n } : Dcache).lookupChild d name = v.lookupChild d name := rfl
  unfold patch
  rw [hchild]
  cases v.lookupChild d name with
  | none => rfl
  | some c => cases clear <;> rfl

/-! ### Inodes exist -/

theorem Sound.grown (h : v.Sound) (hgrown : v.Grown v') : v'.Sound where
  wf := hgrown.wf
  nodes := by rw [hgrown.ext.nodes]; exact h.nodes
  cached d ino hino := by
    rw [hgrown.ext.nodes]
    by_cases hd : d < v.nextDentry
    · rw [hgrown.ext.getInode hd] at hino
      exact h.cached d ino hino
    · rcases hgrown.inode d ino (Nat.le_of_not_lt hd) hino with hold | ⟨dir, name, hentry⟩
      · exact h.cached d ino hold
      · exact (h.nodes _ _ (Nodes.mem_of_entry hentry)).2

theorem Sound.patch (h : v.Sound) (hd : d < v.nextDentry)
    {ino : Option Nat} {clear : Bool} (hino : ∀ i, ino = some i → i < v.nodes.nextIno) :
    (v.patch d name ino clear).Sound where
  wf := h.wf.patch hd
  nodes := by rw [(nodes_patch v d name ino clear).1]; exact h.nodes
  cached d' i hi := by
    rw [(nodes_patch v d name ino clear).1]
    rw [getInode_patch hd] at hi
    split_ifs at hi
    · exact hino i hi
    · exact h.cached d' i hi

/-- A cached entry that was there before was found there. -/
theorem Grown.lookupChild (h : v.Wf) (hgrown : v.Grown v')
    (hchild : v'.lookupChild d name = some c) (hc : c < v.nextDentry) :
    v.lookupChild d name = some c :=
  DEntry.lookupChild_of_mem (h.names d) (hgrown.old (DEntry.mem_of_lookupChild hchild) hc)

end Dcache

end Petra.Vfs
