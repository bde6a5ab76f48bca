import Petra.Vfs.CacheCoherence
import Petra.Vfs.HeldNodes

/-! # The directories stay a tree

A rename moves a directory only if it is not among the ancestors of the dentry it is moved to.
The dentries are the ancestors of the directory as long as operations start from nodes that can
be reached.
-/

namespace Petra.Vfs

open Base List Nodes
open Relation (ReflTransGen TransGen)

/-- A walk along one relation is one along another, if each step to where `Q` holds comes from
where `Q` holds and is a step of the other. -/
theorem reflTransGen_of_back {α : Type} {E E' : α → α → Prop} {Q : α → Prop} {r x : α}
    (h : ReflTransGen E r x) (hx : Q x)
    (hback : ∀ y z, ReflTransGen E r y → E y z → Q z → Q y ∧ E' y z) : ReflTransGen E' r x := by
  induction h with
  | refl => exact .refl
  | tail hpath hstep ih =>
    obtain ⟨hy, hstep'⟩ := hback _ _ hpath hstep hx
    exact (ih hy).tail hstep'

namespace Nodes

variable {n n' : Nodes} {root dir ino : Nat} {name : Name}

/-- One directory is in another. -/
def Contains (n : Nodes) (dir ino : Nat) : Prop :=
  n.isDir ino = true ∧ ∃ name, n.entry dir name = some ino

/-- The directories are a tree: each has at most one name, the root has none, and every one that
is not empty is below the root. -/
structure Tree (n : Nodes) (root : Nat) : Prop where
  forest : n.Forest root
  rooted : ∀ dir name ino, n.entry dir name = some ino → ReflTransGen n.Contains root dir

theorem Forest.contains_unique (h : n.Forest root) {dir' : Nat} (hc : n.Contains dir ino)
    (hc' : n.Contains dir' ino) : dir = dir' := by
  obtain ⟨hdir, name, hentry⟩ := hc
  obtain ⟨-, name', hentry'⟩ := hc'
  exact (h.unique _ _ _ _ _ hdir hentry hentry').1

variable (h : n.Tree root)

include h

/-- No directory is below itself. -/
theorem Tree.acyclic (i : Nat) : ¬ TransGen n.Contains i i := by
  intro hcycle
  obtain ⟨j, ⟨-, name, hentry⟩, -⟩ := TransGen.head'_iff.mp hcycle
  have hpath := h.rooted i name j hentry
  -- Going up from the root of the cycle, every directory is on a cycle, the root too.
  induction hpath generalizing j name with
  | refl =>
    obtain ⟨k, -, -, name', hlast⟩ := TransGen.tail'_iff.mp hcycle
    exact h.forest.top k name' hlast
  | @tail y x hy hstep ih =>
    obtain ⟨k, hk, hlast⟩ := TransGen.tail'_iff.mp hcycle
    have hsame := h.forest.contains_unique hlast hstep
    subst hsame
    have hup := TransGen.head' hstep hk
    obtain ⟨-, name', hentry'⟩ := hstep
    exact ih hup x name' hentry'

theorem Tree.isDir_of_path (hpath : ReflTransGen n.Contains root dir) : n.isDir dir = true := by
  rcases ReflTransGen.cases_tail hpath with heq | ⟨y, -, hstep⟩
  · rw [heq]
    exact h.forest.dir
  · exact hstep.1

/-- Below a directory with names in it there is no more than below an empty one. -/
def Leaf (n : Nodes) (ino : Nat) : Prop := n.isDir ino = true → ∀ name, n.entry ino name = none

theorem Tree.ne_leaf {leaf : Nat} (hleaf : n.Leaf leaf) (hpath : ReflTransGen n.Contains root dir)
    (hentry : n.entry dir name = some ino) : dir ≠ leaf := by
  intro heq
  subst heq
  rw [hleaf (h.isDir_of_path hpath)] at hentry
  cases hentry

/-! ### Changing one entry -/

theorem Tree.rooted_insert (hn : n.Rewired n' dir name (some ino)) (hnone : n.entry dir name = none)
    (hdir : ReflTransGen n.Contains root dir) :
    ∀ d name' i, n'.entry d name' = some i → ReflTransGen n'.Contains root d := by
  have hlift : ∀ d, ReflTransGen n.Contains root d → ReflTransGen n'.Contains root d := by
    intro d hpath
    refine ReflTransGen.mono (fun y z hstep => ?_) _ _ hpath
    obtain ⟨hz, name', hentry⟩ := hstep
    refine ⟨(hn.isDir (h.forest.wf _ _ (mem_of_entry hentry)).2).trans hz, name', ?_⟩
    rw [hn.entry, if_neg]
    · exact hentry
    · intro hboth
      rw [hboth.1, hboth.2, hnone] at hentry
      cases hentry
  intro d name' i hentry
  rw [hn.entry] at hentry
  split_ifs at hentry with hboth
  · rw [hboth.1]
    exact hlift dir hdir
  · exact hlift d (h.rooted d name' i hentry)

theorem Tree.rooted_remove (hn : n.Rewired n' dir name none) (hino : n.entry dir name = some ino)
    (hleaf : n.Leaf ino) :
    ∀ d name' i, n'.entry d name' = some i → ReflTransGen n'.Contains root d := by
  intro d name' i hentry
  rw [hn.entry] at hentry
  split_ifs at hentry
  have hpath := h.rooted d name' i hentry
  refine reflTransGen_of_back (Q := fun x => x ≠ ino) hpath (h.ne_leaf hleaf hpath hentry) ?_
  intro y z hy hstep hz
  obtain ⟨hzdir, name'', hstep'⟩ := hstep
  refine ⟨h.ne_leaf hleaf hy hstep',
    (hn.isDir (h.forest.wf _ _ (mem_of_entry hstep')).2).trans hzdir, name'', ?_⟩
  rw [hn.entry, if_neg]
  · exact hstep'
  · intro hboth
    rw [hboth.1, hboth.2, hino] at hstep'
    exact hz (Option.some.inj hstep').symm

/-- **An entry is moved** to a directory that is not below it. -/
theorem Tree.rooted_move {newDir : Nat} {newName : Name} (hino : n.entry dir name = some ino)
    (hnew : ReflTransGen n.Contains root newDir)
    (hoff : n.isDir ino = true → ¬ ReflTransGen n.Contains ino newDir)
    (hleaf : ∀ leaf, n.entry newDir newName = some leaf → n.Leaf leaf) :
    ∀ d name' i, ((n.removeEntry dir name).setEntry newDir newName ino).entry d name' = some i →
      ReflTransGen ((n.removeEntry dir name).setEntry newDir newName ino).Contains root d := by
  have hentries : ∀ d name', ((n.removeEntry dir name).setEntry newDir newName ino).entry d name' =
      if d = newDir ∧ name' = newName then some ino
      else if d = dir ∧ name' = name then none else n.entry d name' := by
    intro d name'
    rw [entry_setEntry, entry_removeEntry]
  generalize hn' : (n.removeEntry dir name).setEntry newDir newName ino = n' at hentries
  have hisDir : ∀ i, n'.isDir i = n.isDir i := by
    intro i
    rw [← hn']
    rfl
  -- A step to a directory that is neither moved nor replaced is still there.
  have hstay : ∀ y z, n.Contains y z → (y = dir → z ≠ ino) →
      (y = newDir → n.entry newDir newName ≠ some z) → n'.Contains y z := by
    intro y z hstep hmoved hover
    obtain ⟨hz, name', hentry⟩ := hstep
    refine ⟨(hisDir z).trans hz, name', ?_⟩
    rw [hentries, if_neg, if_neg]
    · exact hentry
    · intro hboth
      rw [hboth.1, hboth.2, hino] at hentry
      exact hmoved hboth.1 (Option.some.inj hentry).symm
    · intro hboth
      rw [hboth.1, hboth.2] at hentry
      exact hover hboth.1 hentry
  have hnotLeaf : ∀ d name' i, ReflTransGen n.Contains root d → n.entry d name' = some i →
      n.entry newDir newName ≠ some d := by
    intro d name' i hpath hentry hover
    exact h.ne_leaf (hleaf d hover) hpath hentry rfl
  -- What is not below the moved directory is reached as before.
  have houter : ∀ d, ReflTransGen n.Contains root d →
      (n.isDir ino = true → ¬ ReflTransGen n.Contains ino d) →
      n.entry newDir newName ≠ some d → ReflTransGen n'.Contains root d := by
    intro d hpath hd hover
    refine reflTransGen_of_back (Q := fun x => (n.isDir ino = true →
      ¬ ReflTransGen n.Contains ino x) ∧ n.entry newDir newName ≠ some x) hpath ⟨hd, hover⟩ ?_
    intro y z hy hstep hz
    obtain ⟨hzdir, name', hentry⟩ := id hstep
    refine ⟨⟨fun hdir hbelow => hz.1 hdir (hbelow.tail hstep), hnotLeaf y name' z hy hentry⟩,
      hstay y z hstep ?_ (fun _ => hz.2)⟩
    intro _ heq
    subst heq
    exact hz.1 hzdir .refl
  have hroot : ReflTransGen n'.Contains root newDir := by
    refine houter newDir hnew hoff ?_
    intro hself
    exact hnotLeaf newDir newName newDir hnew hself hself
  intro d name' i hentry
  rw [hentries] at hentry
  split_ifs at hentry with hboth
  · rw [hboth.1]
    exact hroot
  have hpath := h.rooted d name' i hentry
  have hover := hnotLeaf d name' i hpath hentry
  by_cases hbelow : n.isDir ino = true ∧ ReflTransGen n.Contains ino d
  · -- Below the moved directory: to the new directory, into the moved one, and down.
    have hinto : n'.Contains newDir ino := by
      refine ⟨(hisDir ino).trans hbelow.1, newName, ?_⟩
      rw [hentries, if_pos ⟨rfl, rfl⟩]
    refine (hroot.tail hinto).trans ?_
    refine reflTransGen_of_back (Q := fun x => n.entry newDir newName ≠ some x) hbelow.2 hover ?_
    intro y z hy hstep hz
    have hinoPath : ReflTransGen n.Contains root ino :=
      (h.rooted dir name ino hino).tail ⟨hbelow.1, name, hino⟩
    obtain ⟨-, name'', hentry''⟩ := id hstep
    refine ⟨hnotLeaf y name'' z (hinoPath.trans hy) hentry'', hstay y z hstep ?_ (fun _ => hz)⟩
    intro _ heq
    subst heq
    exact h.acyclic z (TransGen.tail' hy hstep)
  · exact houter d hpath (fun hdir hb => hbelow ⟨hdir, hb⟩) hover

end Nodes

namespace Dcache

variable {v v' : Dcache} {n : PathNode} {ino : Nat}

/-- The heap may have changed, its mounts and their roots have not. -/
structure SameMounts (v v' : Dcache) : Prop where
  wf : v'.Wf
  next : v.nextDentry ≤ v'.nextDentry
  nextMount : v'.nextMount = v.nextMount
  mount : v'.mount = v.mount
  roots : ∀ m, m < v.nextMount → v'.getInode (v.mount m).root = v.getInode (v.mount m).root

namespace SameMounts

theorem valid (h : v.SameMounts v') (hn : v.Valid n) : v'.Valid n :=
  ⟨h.nextMount ▸ hn.1, hn.2.trans_le h.next⟩

theorem trans {v'' : Dcache} (h : v.SameMounts v') (h' : v'.SameMounts v'') : v.SameMounts v'' where
  wf := h'.wf
  next := h.next.trans h'.next
  nextMount := h'.nextMount.trans h.nextMount
  mount := h'.mount.trans h.mount
  roots m hm := by
    rw [← h.roots m hm, ← h.mount]
    exact h'.roots m (h.nextMount.symm ▸ hm)

theorem setNodes (h : v.SameMounts v') (nodes : Nodes) : v.SameMounts { v' with nodes := nodes } :=
  ⟨h.wf.setNodes nodes, h.next, h.nextMount, h.mount, h.roots⟩

theorem patch (h : v.SameMounts v') {d : Nat} (hd : d < v'.nextDentry) (name : Name)
    (i : Option Nat) (clear : Bool) : v.SameMounts (v'.patch d name i clear) := by
  refine h.trans ⟨h.wf.patch hd, next_le_patch v' d name i clear,
    (nodes_patch v' d name i clear).2, ?_, ?_⟩
  · rcases patch_cases v' d name i clear with ⟨-, heq⟩ | ⟨c, -, heq⟩
    · rw [heq]
      rfl
    · rw [heq]
      rfl
  intro m hm
  rw [getInode_patch hd, if_neg]
  intro heq
  -- The root of a mount is an old dentry and in no table.
  cases hchild : v'.lookupChild d name with
  | none =>
    rw [hchild] at heq
    exact absurd heq (h.wf.root m hm).ne
  | some c =>
    rw [hchild] at heq
    exact (h.wf.child _ _ _ (DEntry.mem_of_lookupChild hchild)).2.2 ⟨m, hm, heq⟩

end SameMounts

theorem Grown.sameMounts (hv : v.Wf) (h : v.Grown v') : v.SameMounts v' :=
  ⟨h.wf, h.ext.next, h.ext.nextMount, h.ext.mount, fun m hm => h.ext.getInode (hv.root m hm)⟩

/-- One file system whose directories are a tree, and a coherent cache of it. -/
structure OneTree (ino : Nat) (v : Dcache) : Prop where
  coherent : v.Coherent
  single : v.nextMount = 1
  top : (v.mount 0).mountPoint = none
  root : v.getInode (v.mount 0).root = some ino
  rooted : ∀ dir name i, v.nodes.entry dir name = some i → ReflTransGen v.nodes.Contains ino dir

namespace OneTree

variable (h : v.OneTree ino)

include h

theorem zero_lt : 0 < v.nextMount := by
  rw [h.single]
  exact Nat.zero_lt_one

theorem tree : v.nodes.Tree ino := by
  obtain ⟨i, hi, hdir, htop⟩ := h.coherent.root 0 h.zero_lt
  rw [h.root] at hi
  cases hi
  exact ⟨⟨h.coherent.sound.nodes, h.coherent.sound.cached _ _ h.root, hdir, htop,
    h.coherent.unique⟩, h.rooted⟩

/-- The heap after entries were changed and patched. -/
theorem changed (hsame : v.SameMounts v') (hco : v'.Coherent)
    (hrooted : ∀ dir name i, v'.nodes.entry dir name = some i →
      ReflTransGen v'.nodes.Contains ino dir) : v'.OneTree ino where
  coherent := hco
  single := hsame.nextMount.trans h.single
  top := by rw [hsame.mount]; exact h.top
  root := by rw [hsame.mount]; exact (hsame.roots 0 h.zero_lt).trans h.root
  rooted := hrooted

theorem grown (hgrown : v.Grown v') : v'.OneTree ino := by
  refine h.changed (hgrown.sameMounts h.coherent.sound.wf) (h.coherent.grown hgrown) ?_
  rw [hgrown.ext.nodes]
  exact h.rooted

/-- A directory whose node can be reached is below the root. -/
theorem path (hn : v.Attached n) {i : Nat} (hi : v.getInode n.dentry = some i)
    (hdir : v.nodes.isDir i = true) : ReflTransGen v.nodes.Contains ino i := by
  have hzero : ∀ m < v.nextMount, m = 0 := by
    intro m hm
    rw [h.single] at hm
    exact Nat.lt_one_iff.mp hm
  obtain ⟨place, hstands⟩ := hn
  induction hstands generalizing i with
  | top hm _ _ _ | mounted hm _ _ _ _ =>
    rw [hzero _ hm, h.root] at hi
    cases hi
    exact .refl
  | child above hmem _ ih =>
    obtain ⟨j, hj, hjdir, hentry⟩ := h.coherent.table _ ⟨_, above⟩ _ _ hmem
    rw [hi] at hentry
    exact (ih hj hjdir).tail ⟨hdir, _, hentry.symm⟩

/-- Above the node of a directory are the nodes of the directories above. -/
theorem under_of_path {s i : Nat} (hpath : ReflTransGen v.nodes.Contains s i) (hn : v.Attached n)
    (hi : v.getInode n.dentry = some i) (hdir : v.nodes.isDir i = true) :
    ∃ a, v.Attached a ∧ v.getInode a.dentry = some s ∧ v.nodes.isDir s = true ∧
      v.Under a.dentry n := by
  induction hpath generalizing n with
  | refl => exact ⟨n, hn, hi, hdir, .self⟩
  | @tail j i _ hstep ih =>
    obtain ⟨-, name, hentry⟩ := hstep
    rcases hn.cases with ⟨hm, hroot⟩ | ⟨d, name', habove, hmem⟩
    · rw [hroot] at hi
      exact absurd hentry (h.coherent.rootless hm hi j name)
    · obtain ⟨j', hj', hjdir, hentry'⟩ := h.coherent.table _ habove name' _ hmem
      rw [hi] at hentry'
      obtain ⟨rfl, -⟩ := h.coherent.unique j name j' name' i hdir hentry hentry'.symm
      obtain ⟨a, ha, hino, hsdir, hunder⟩ := ih habove hj' hjdir
      exact ⟨a, ha, hino, hsdir, hunder.child hmem⟩

end OneTree

/-! ### The operations -/

section Ops

variable {v₁ v₂ : Dcache} {root start : PathNode} {path : List Char} {access : Access}

variable (h : v.OneTree ino)

include h

theorem OneTree.made (hroot : v.Attached root) (hstart : v.Attached start) {kind : Kind}
    (hmade : v.Made root start path access kind v') : v'.OneTree ino ∧ v.SameMounts v' := by
  have hco := h.coherent.made hroot hstart hmade
  obtain ⟨found, v₁, i, n, hfound, -, hlookup, hcreate, rfl⟩ := hmade
  have h₁ := h.grown hfound.grown
  have hattached := hfound.attached h.coherent hroot hstart
  obtain ⟨hisDir, rfl, rfl⟩ := create_spec hcreate
  have hsame := ((hfound.grown.sameMounts h.coherent.sound.wf).setNodes
    ((v₁.nodes.alloc kind).setEntry found.2.1 found.2.2 v₁.nodes.nextIno)).patch hfound.valid.2
    found.2.2 (some v₁.nodes.nextIno) false
  refine ⟨h.changed hsame hco ?_, hsame⟩
  rw [(nodes_patch _ _ _ _ _).1]
  exact h₁.tree.rooted_insert
    (rewired_create h₁.coherent.sound.nodes (h₁.coherent.sound.cached _ _ hfound.inode))
    (lookup_eq_noent.mp hlookup).2 (h₁.path hattached hfound.inode hisDir)

/-- The name of a file or of an empty directory is removed. -/
theorem OneTree.removed {found : PathNode × Nat × Name} {i : Nat} {clear : Bool}
    (hlocated : v.Located root start path access found v₁ v₂)
    (hentry : v₂.nodes.entry found.2.1 found.2.2 = some i) (hleaf : v₂.nodes.Leaf i)
    (hv' : v' = ({ v₂ with nodes := v₂.nodes.removeEntry found.2.1 found.2.2 } : Dcache).patch
      found.1.dentry found.2.2 none clear) (hco : v'.Coherent) :
    v'.OneTree ino ∧ v.SameMounts v' := by
  have hgrown := hlocated.found.grown.trans hlocated.grown
  have h₂ := h.grown hgrown
  have hsame := ((hgrown.sameMounts h.coherent.sound.wf).setNodes
    (v₂.nodes.removeEntry found.2.1 found.2.2)).patch
    (hlocated.grown.ext.valid hlocated.found.valid).2 found.2.2 none clear
  rw [← hv'] at hsame
  refine ⟨h.changed hsame hco ?_, hsame⟩
  rw [hv', (nodes_patch _ _ _ _ _).1]
  exact h₂.tree.rooted_remove (rewired_removeEntry h₂.coherent.sound.nodes) hentry hleaf

theorem OneTree.unlinked (hroot : v.Attached root) (hstart : v.Attached start)
    (hunlinked : v.Unlinked root start path access v') : v'.OneTree ino ∧ v.SameMounts v' := by
  have hco := h.coherent.unlinked hroot hstart hunlinked
  obtain ⟨found, v₁, v₂, n, hlocated, hwork, hv'⟩ := hunlinked
  obtain ⟨-, rfl, i, hentry, hfile⟩ := unlink_spec hwork
  refine h.removed hlocated hentry ?_ hv' hco
  intro hdir
  exact absurd (hfile.symm.trans hdir) Bool.false_ne_true

theorem OneTree.dirRemoved (hroot : v.Attached root) (hstart : v.Attached start)
    (hremoved : v.DirRemoved root start path access v') : v'.OneTree ino ∧ v.SameMounts v' := by
  have hco := h.coherent.dirRemoved hroot hstart hremoved
  obtain ⟨found, v₁, v₂, n, hlocated, -, hwork, hv'⟩ := hremoved
  obtain ⟨-, rfl, i, hentry, hempty⟩ := rmdir_spec hwork
  refine h.removed hlocated hentry ?_ hv' hco
  intro _ name
  rw [entry, hempty]
  rfl

/-- With one file system there is nothing mounted on a dentry. -/
theorem OneTree.unmounted (c : Nat) : v.Unmounted c := by
  intro m hm p hp
  rw [h.single, Nat.lt_one_iff] at hm
  subst hm
  rw [h.top] at hp
  cases hp

theorem OneTree.renamed {oldStart newStart : PathNode} {old new : List Char}
    (hroot : v.Attached root) (hold : v.Attached oldStart) (hnew : v.Attached newStart)
    {src dst : PathNode × Nat × Name} {node : PathNode × Nat} {v₃ w : Dcache} {n : Nodes}
    (hmoving : v.Moving .single root oldStart old newStart new access src dst node v₁ v₂ v₃ w)
    (hself : v₃.nodes.entry src.2.1 src.2.2 = some node.2)
    (hrename : w.nodes.rename false src.2.1 src.2.2 dst.2.1 dst.2.2 = .ok ((), n))
    (hv' : v' = (({ w with nodes := n } : Dcache).patch src.1.dentry src.2.2 none true).patch
      dst.1.dentry dst.2.2 (some node.2) true) : v'.OneTree ino ∧ v.SameMounts v' := by
  have hwf := h.coherent.sound.wf
  have hgrown₃ : v.Grown v₃ :=
    (hmoving.foundSrc.grown.trans hmoving.foundDst.grown).trans hmoving.grownTarget
  have h₃ := h.grown hgrown₃
  have hw := h₃.grown hmoving.grown
  have hs := hmoving.settled h.coherent hroot hold hnew
  have hco := h.coherent.renamed hroot hold hnew hmoving
    ⟨hself, fun c _ => h₃.unmounted c, fun c _ => h₃.unmounted c⟩ nofun hrename
  have hfirst := (((hgrown₃.trans hmoving.grown).sameMounts hwf).setNodes n).patch
    (hs.srcAt.valid hw.coherent.sound.wf).2 src.2.2 none true
  have hsame := hfirst.patch (Nat.lt_of_lt_of_le (hs.dstAt.valid hw.coherent.sound.wf).2
    (next_le_patch { w with nodes := n } _ _ _ _)) dst.2.2 (some node.2) true
  rw [← hv'] at hco hsame
  refine ⟨h.changed hsame hco ?_, hsame⟩
  obtain ⟨-, hdstDir, i, hentry, hn, hempty⟩ := rename_spec hrename nofun
  rw [← hmoving.grown.ext.nodes, hentry, Option.some.injEq] at hself
  subst hself
  rw [hv', (nodes_patch _ _ _ _ _).1, (nodes_patch _ _ _ _ _).1, hn]
  refine hw.tree.rooted_move hentry (hw.path hs.dstAt hs.dstIno hdstDir) ?_ ?_
  · -- A directory is cached once, so the dentry that was looked up is above the new directory.
    intro hdir hpath
    obtain ⟨a, ha, hino, -, hunder⟩ := hw.under_of_path hpath hs.dstAt hs.dstIno hdstDir
    rw [hw.coherent.node_unique ha hs.nodeAt hino hs.nodeIno hdir] at hunder
    exact hmoving.outside hdir (hw.coherent.mem_ancestors hunder _ le_rfl)
  · intro leaf hleaf hdir name
    rw [entry, hempty leaf hleaf hdir]
    rfl

end Ops

end Dcache

/-! ### Every run -/

namespace Holding

open Dcache

variable {root : PathNode} {sys sys' : Holding} {ino : Nat} {op : NameOp}

/-- The entry that is moved is what `old` leads to. With a slash behind it `old` can be a symbolic
link, which is moved, to a directory elsewhere, which is looked up. -/
def MovesEntry (v : Dcache) (root oldStart : PathNode) (old : List Char) (newStart : PathNode)
    (new : List Char) (access : Access) : Prop :=
  AtFound v root oldStart old access fun v₁ src =>
    AtFound v₁ root newStart new access fun v₂ _ =>
      match targetAt root oldStart old v₂ with
      | .ok (.ok node, v₃) => v₃.nodes.entry src.2.1 src.2.2 = some node.2
      | _ => True

/-- An operation that changes a directory starts from nodes that can be reached. -/
def FromTree (sys : Holding) : PathNode × NameOp → Prop
  | (_, .lookup _ _ _) => True
  | (root, .create start _ _ _) | (root, .mkdir start _ _ _) | (root, .unlink start _ _ _)
  | (root, .rmdir start _ _ _) => sys.vfs.reachable root = true ∧ sys.vfs.reachable start = true
  | (root, .rename oldStart old newStart new access _) =>
    sys.vfs.reachable root = true ∧ sys.vfs.reachable oldStart = true ∧
      sys.vfs.reachable newStart = true ∧
      MovesEntry sys.vfs root oldStart old newStart new access

instance (v : Dcache) (root oldStart : PathNode) (old : List Char) (newStart : PathNode)
    (new : List Char) (access : Access) :
    Decidable (MovesEntry v root oldStart old newStart new access) := by
  have htarget : ∀ (w : Dcache) (src : PathNode × Nat × Name),
      Decidable (match targetAt root oldStart old w with
        | .ok (.ok node, v₃) => v₃.nodes.entry src.2.1 src.2.2 = some node.2
        | _ => True) :=
    fun _ src => VfsOp.decidableTarget _ fun n w => w.nodes.entry src.2.1 src.2.2 = some n.2
  unfold MovesEntry
  infer_instance

instance (sys : Holding) (c : PathNode × NameOp) : Decidable (sys.FromTree c) := by
  obtain ⟨root, op⟩ := c
  unfold FromTree
  induction op using NameOp.casesOn <;> infer_instance

/-- The heap is over one tree, and what was looked up are nodes of it. -/
structure Treelike (ino : Nat) (sys : Holding) : Prop where
  oneTree : sys.vfs.OneTree ino
  obtained : ∀ h ∈ sys.obtained, sys.vfs.Valid h.1

section

variable (h : sys.Treelike ino)

include h

theorem treelike_call {α : Type} {m : Op α} {R : Dcache → Prop}
    (hworks : Works sys.vfs (fun v => v = sys.vfs) m R)
    (hR : ∀ v, R v → v.OneTree ino ∧ sys.vfs.SameMounts v) (hcall : sys.call m = .ok sys') :
    sys'.Treelike ino := by
  have hwf := h.oneTree.coherent.sound.wf
  obtain ⟨hobtained, hend⟩ := call_cases hwf hworks hcall
  have hdone : sys'.vfs.OneTree ino ∧ sys.vfs.SameMounts sys'.vfs := by
    rcases hend with hgrown | hdone
    · exact ⟨h.oneTree.grown hgrown, hgrown.sameMounts hwf⟩
    · exact hR _ hdone
  refine ⟨hdone.1, ?_⟩
  rw [hobtained]
  exact fun e he => hdone.2.valid (h.obtained e he)

theorem treelike_lookup {start : PathNode} {path : List Char} {flags : LookupFlags}
    (hroot : sys.vfs.Valid root) (hstart : sys.vfs.Valid start)
    (hstep : sys.perform root (.lookup start path flags) = .ok sys') : sys'.Treelike ino := by
  obtain ⟨hgrown, hnode⟩ := grown_lookup h.oneTree.coherent.sound.wf hroot hstart path flags
  simp only [perform] at hstep
  generalize sys.vfs.lookup root start path flags = out at hstep hgrown hnode
  obtain ⟨r, v⟩ := out
  have hobtained : ∀ e ∈ sys.obtained, v.Valid e.1 := fun e he =>
    hgrown.ext.valid (h.obtained e he)
  cases r with
  | error e =>
    cases hstep
    exact ⟨h.oneTree.grown hgrown, hobtained⟩
  | ok n =>
    cases hstep
    exact ⟨h.oneTree.grown hgrown, forall_mem_cons.mpr ⟨hnode n rfl, hobtained⟩⟩

theorem treelike_perform (hstarts : ∀ n ∈ root :: op.starts, sys.vfs.Valid n)
    (htree : sys.FromTree (root, op)) (hstep : sys.perform root op = .ok sys') :
    sys'.Treelike ino := by
  have hwf := h.oneTree.coherent.sound.wf
  obtain ⟨hvalid, hstarts⟩ := forall_mem_cons.mp hstarts
  cases op with
  | lookup start path flags =>
    exact treelike_lookup h hvalid (hstarts start (.head _)) hstep
  | create start path access fault =>
    obtain ⟨hroot, hstart⟩ := htree
    exact treelike_call h (works_createAt hwf hvalid (hstarts start (.head _)))
      (fun _ => h.oneTree.made (attached_of_reachable hroot) (attached_of_reachable hstart)) hstep
  | mkdir start path access fault =>
    obtain ⟨hroot, hstart⟩ := htree
    exact treelike_call h (works_mkdirAt hwf hvalid (hstarts start (.head _)))
      (fun _ => h.oneTree.made (attached_of_reachable hroot) (attached_of_reachable hstart)) hstep
  | unlink start path access fault =>
    obtain ⟨hroot, hstart⟩ := htree
    exact treelike_call h (works_unlinkAt hwf hvalid (hstarts start (.head _)))
      (fun _ => h.oneTree.unlinked (attached_of_reachable hroot) (attached_of_reachable hstart)) hstep
  | rmdir start path access fault =>
    obtain ⟨hroot, hstart⟩ := htree
    exact treelike_call h (works_rmdirAt hwf hvalid (hstarts start (.head _)))
      (fun _ => h.oneTree.dirRemoved (attached_of_reachable hroot) (attached_of_reachable hstart))
      hstep
  | rename oldStart old newStart new access fault =>
    obtain ⟨hroot, hold, hnew, hmoves⟩ := htree
    have hboth := VfsOp.forall_mem_two hstarts
    refine treelike_call h (works_renameAt hwf hvalid hboth.1 hboth.2) ?_ hstep
    intro v hdone
    obtain ⟨src, dst, node, v₁, v₂, v₃, w, n, hmoving, hrename, hv⟩ := hdone
    have hself := hmoving.foundDst.of_at (hmoving.foundSrc.of_at hmoves)
    rw [hmoving.target] at hself
    exact h.oneTree.renamed (attached_of_reachable hroot) (attached_of_reachable hold)
      (attached_of_reachable hnew) hmoving hself hrename hv

/-- A directory is moved to a place that is not below it. -/
theorem treelike_step {c : PathNode × NameOp} (htree : sys.FromTree c)
    (hstep : sys.step c = .ok sys') : sys'.Treelike ino := by
  unfold step at hstep
  split_ifs at hstep with hstarts
  · refine treelike_perform h (fun n hn => ?_) htree hstep
    obtain ⟨e, he, rfl⟩ := mem_map.mp (hstarts n hn)
    exact h.obtained e he
  · cases hstep
    exact h

end

theorem treelike_initial {nodes : Nodes} (h : nodes.Tree ino) :
    (initial (Dcache.initial nodes ino) ⟨0, 0⟩).Treelike ino := by
  have hzero : (Dcache.initial nodes ino).Valid ⟨0, 0⟩ := ⟨Nat.zero_lt_one, Nat.zero_lt_one⟩
  exact ⟨⟨coherent_initial h.forest, rfl, rfl, rfl, h.rooted⟩, forall_mem_singleton.mpr hzero⟩

/-- **The directories stay a tree** over every run from an empty cache in which directories are
changed through nodes that can be reached. -/
theorem tree_of_visits {nodes : Nodes} (hnodes : nodes.Tree ino)
    (h : Visits step FromTree (initial (Dcache.initial nodes ino) ⟨0, 0⟩) sys) :
    sys.vfs.nodes.Tree ino ∧ ∀ i, ¬ TransGen sys.vfs.nodes.Contains i i := by
  have htree := (h.invariant (I := Treelike ino) (treelike_initial hnodes)
    fun _ _ _ hs hop hstep => treelike_step hs hop hstep).oneTree.tree
  exact ⟨htree, htree.acyclic⟩

/-- Two directories in the root, one of them with a directory in it. -/
def nested : Nodes where
  kind := fun _ => .dir
  entries := fun i =>
    if i = 0 then [(['a'], 1), (['c'], 2)] else if i = 1 then [(['b'], 3)] else []
  nextIno := 4

theorem tree_nested : nested.Tree 0 := by
  have hmem : ∀ i, ∀ e ∈ nested.entries i,
      (i, e) ∈ [(0, ['a'], 1), (0, ['c'], 2), (1, ['b'], 3)] := by
    intro i e he
    by_cases hi : i = 0
    · subst hi
      rcases mem_cons.mp he with rfl | he
      · decide
      · rw [mem_singleton.mp he]
        decide
    · by_cases hi' : i = 1
      · subst hi'
        rw [mem_singleton.mp he]
        decide
      · simp [nested, hi, hi'] at he
  refine ⟨.of_list hmem (by decide) rfl (by decide) (by decide), ?_⟩
  intro dir name i hentry
  have hdir : dir = 0 ∨ dir = 1 := by
    have := hmem _ _ (mem_of_entry hentry)
    simp only [mem_cons, Prod.mk.injEq, not_mem_nil, or_false] at this
    rcases this with ⟨h, -⟩ | ⟨h, -⟩ | ⟨h, -⟩
    · exact .inl h
    · exact .inl h
    · exact .inr h
  rcases hdir with rfl | rfl
  · exact .refl
  · exact .single ⟨rfl, ['a'], by decide⟩

/-- The inner directory is looked up, and the one around it moved. -/
def moved : List (PathNode × NameOp) :=
  [(⟨0, 0⟩, .lookup ⟨0, 0⟩ ['/', 'a', '/', 'b'] ⟨false, false⟩),
    (⟨0, 0⟩, .rename ⟨0, 0⟩ ['/', 'a'] ⟨0, 0⟩ ['/', 'c', '/', 'a'] .full none)]

/-- Then the directory it is in now is moved into it. -/
def movedBelow : List (PathNode × NameOp) :=
  moved ++ [(⟨0, 0⟩, .rename ⟨0, 0⟩ ['/', 'c'] ⟨0, 2⟩ ['d'] .full none)]

theorem tree_moved : ∃ sys, Visits step FromTree
      (initial (Dcache.initial nested 0) ⟨0, 0⟩) sys ∧
    (sys.vfs.nodes.Tree 0 ∧ ∀ i, ¬ TransGen sys.vfs.nodes.Contains i i) ∧
    sys.vfs.nodes.entry 2 ['a'] = some 1 ∧ sys.vfs.nodes.entry 0 ['a'] = none := by
  obtain ⟨sys, hvisits, hend⟩ := exists_visits step FromTree
    (initial (Dcache.initial nested 0) ⟨0, 0⟩) moved
    (fun s => s.vfs.nodes.entry 2 ['a'] = some 1 ∧ s.vfs.nodes.entry 0 ['a'] = none) (by decide)
  exact ⟨sys, hvisits, tree_of_visits tree_nested hvisits, hend⟩

/-- The node of the inner directory still has its old ancestors, so the rename succeeds and the
three directories are below themselves. -/
theorem cycle_movedBelow : nested.Tree 0 ∧ ∃ sys,
    run step (initial (Dcache.initial nested 0) ⟨0, 0⟩) movedBelow = .ok sys ∧
      sys.obtained.map Prod.fst = [⟨0, 2⟩, ⟨0, 0⟩] ∧ TransGen sys.vfs.nodes.Contains 3 3 := by
  obtain ⟨sys, hend, hheld, hd, ha, hb⟩ := exists_ok
    (run step (initial (Dcache.initial nested 0) ⟨0, 0⟩) movedBelow)
    (fun s => s.obtained.map Prod.fst = [⟨0, 2⟩, ⟨0, 0⟩] ∧
      (s.vfs.nodes.isDir 2 = true ∧ s.vfs.nodes.entry 3 ['d'] = some 2) ∧
      (s.vfs.nodes.isDir 1 = true ∧ s.vfs.nodes.entry 2 ['a'] = some 1) ∧
      s.vfs.nodes.isDir 3 = true ∧ s.vfs.nodes.entry 1 ['b'] = some 3) (by decide)
  refine ⟨tree_nested, sys, hend, hheld, ?_⟩
  exact ((TransGen.single ⟨hd.1, _, hd.2⟩).tail ⟨ha.1, _, ha.2⟩).tail ⟨hb.1, _, hb.2⟩

end Holding

end Petra.Vfs
