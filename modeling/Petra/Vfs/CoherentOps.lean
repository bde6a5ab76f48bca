import Petra.Vfs.Mounts
import Petra.Vfs.Upkeep

/-! # Each operation keeps the cache coherent

The nodes an operation starts from have to be ones that can be reached.
-/

namespace Petra.Vfs.Dcache

open Base List Option Nat Nodes Bool

variable {v v' v₁ v₂ : Dcache} {root start : PathNode} {path : List Char} {access : Access}
  {found : PathNode × Nat × Name}

/-! ### What an operation finds can be reached -/

section

variable (h : v.Coherent) (hroot : v.Attached root) (hstart : v.Attached start)

include h hroot hstart

theorem fills_attached_lookupAt (flags : LookupFlags) :
    Fills v (· = v) (lookupAt root start path flags) (fun n w => w.Attached n) := by
  intro w hw
  obtain ⟨-, rfl⟩ := hw
  have hv := h.sound.wf
  have hgrown := (grown_lookup hv (hroot.valid hv) (hstart.valid hv) path flags).1
  exact ⟨hgrown, fun n hn => attached_lookup h hroot hstart hn⟩

theorem fills_attached_parent : Fills v (· = v) (parentForModifyAt root start path access)
      (fun found w => w.Attached found.1) := by
  have hsplit : Fills v (· = v) (Call.orFail (splitParent path) : Op (List Char × Name))
      (fun _ w => w = v) := by
    cases splitParent path with
    | error e => exact Fills.fail
    | ok split => exact Fills.pure fun w hw => hw
  refine hsplit.bind fun split => ?_
  have hdir : Fills v (· = v) (directoryAt root start split.1)
      (fun n w => w.Attached n) := by
    refine Call.Ensures.ite (fun _ => ?_)
      (fun _ => fills_attached_lookupAt h hroot hstart ⟨false, true⟩)
    refine Fills.pure fun w hw => ?_
    rw [hw]
    exact hstart
  refine hdir.bind fun parent => (fills_inodeAt parent.dentry).bind fun ino => ?_
  exact Fills.check.bind fun _ => Fills.pure fun w hw => hw.1.1

theorem Found.attached (hfound : v.Found root start path access found v₁) :
    v₁.Attached found.1 := by
  have hend := @fills_attached_parent v root start path access h hroot hstart v
    ⟨.refl h.sound.wf, rfl⟩
  rw [hfound.run] at hend
  exact hend.2 found rfl

theorem attached_target {target : PathNode × Nat}
    (hrun : targetAt root start path v = .ok (.ok target, v')) : v'.Attached target.1 := by
  have hfills : Fills v (· = v) (targetAt root start path)
      (fun target w => w.Attached target.1) := by
    refine (fills_attached_lookupAt h hroot hstart _).bind fun node => ?_
    exact (fills_inodeAt node.dentry).bind fun ino => Fills.pure fun w hw => hw.1
  have hend := hfills v ⟨.refl h.sound.wf, rfl⟩
  rw [hrun] at hend
  exact hend.2 target rfl

end

/-! ### New names -/

variable {a : PathNode} {n : Nodes} {name : Name}

variable (h : v.Coherent) {d dir ino c : Nat}

include h

/-- A name that is not there is given to an inode. -/
theorem Coherent.inserted (ha : v.Attached a)
    (hdir : v.getInode a.dentry = some dir) (hisDir : v.nodes.isDir dir = true)
    (hnegative : ∀ c, v.lookupChild a.dentry name = some c → v.getInode c = none)
    (hnodes : v.nodes.Rewired n dir name (some ino)) (hino : ino < n.nextIno)
    (honly : n.isDir ino = true → ∀ d name', n.entry d name' = some ino → d = dir ∧ name' = name)
    (hroot : ∀ m < v.nextMount, v.getInode (v.mount m).root ≠ some ino) :
    (({ v with nodes := n } : Dcache).patch a.dentry name (some ino) false).Coherent := by
  have hv := h.sound.wf
  -- The entry of the name is new or has no inode, so there is nothing below it.
  have hbare : ∀ c, v.lookupChild a.dentry name = some c → (v.dentry c).children = [] := by
    intro c hc
    by_contra hne
    obtain ⟨i, hi, -⟩ := h.bare c hne
    rw [hnegative c hc] at hi
    cases hi
  have hleaf : ∀ name' c, (name', c) ∈
      (v.dentry ((v.lookupChild a.dentry name).getD v.nextDentry)).children →
      v.getInode c = none := by
    intro name' c hmem
    cases hchild : v.lookupChild a.dentry name with
    | none =>
      rw [hchild, getD_none, (hv.fresh _ le_rfl).1] at hmem
      cases hmem
    | some c₀ =>
      rw [hchild, getD_some, hbare c₀ hchild] at hmem
      cases hmem
  have hmount : ∀ m p, m < v.nextMount → (v.mount m).mountPoint = some p →
      p.dentry ≠ (v.lookupChild a.dentry name).getD v.nextDentry := by
    intro m p hm hpoint heq
    cases hchild : v.lookupChild a.dentry name with
    | none =>
      rw [hchild, getD_none] at heq
      exact absurd (hv.point m p hm hpoint).2 (by omega)
    | some c₀ =>
      rw [hchild, getD_some] at heq
      obtain ⟨-, ⟨i, hi, -⟩, -⟩ := h.point m p hm hpoint
      rw [heq, hnegative c₀ hchild] at hi
      cases hi
  have hsame : (({ v with nodes := n } : Dcache).patch a.dentry name (some ino) false).nodes = n :=
    (nodes_patch _ _ _ _ _).1
  refine h.repatched (repatched_patch hv (ha.valid hv).2 n fun _ => hbare) ?_ ha hdir hisDir ?_
    (h.leaf_free hleaf hmount)
  · rw [hsame]
    exact hnodes
  · intro i hi
    cases hi
    rw [hsame]
    exact ⟨hino, honly, hroot⟩

theorem Coherent.made (hroot : v.Attached root) (hstart : v.Attached start) {kind : Kind}
    (hmade : v.Made root start path access kind v') : v'.Coherent := by
  obtain ⟨found, v₁, ino, n, hfound, hnegative, -, hcreate, rfl⟩ := hmade
  have h₁ := h.grown hfound.grown
  obtain ⟨hisDir, rfl, rfl⟩ := create_spec hcreate
  have hdir := h₁.sound.cached _ _ hfound.inode
  have hnodes := @Nodes.rewired_create v₁.nodes found.2.1 found.2.2 kind h₁.sound.nodes hdir
  refine h₁.inserted (hfound.attached h hroot hstart) hfound.inode hisDir hnegative hnodes
    (lt_succ_self _) ?_ ?_
  · -- No entry led to an inode that did not exist.
    intro _ d name' hentry
    rw [hnodes.entry] at hentry
    split_ifs at hentry with hboth
    · exact hboth
    · exact absurd (h₁.sound.nodes _ _ (mem_of_entry hentry)).2 (lt_irrefl _)
  · intro m _ hrootIno
    exact absurd (h₁.sound.cached _ _ hrootIno) (lt_irrefl _)

theorem Coherent.linked (hroot : v.Attached root) (hstart : v.Attached start)
    (hlinked : v.Linked root start path access v') : v'.Coherent := by
  obtain ⟨ino, v₁, found, v₂, n, hgrown, ⟨d, hd⟩, hfile, hfound, hnegative, hlink, rfl⟩ := hlinked
  have h₁ := h.grown hgrown
  have h₂ := h₁.grown hfound.grown
  have hv := h.sound.wf
  obtain ⟨hisDir, rfl⟩ := link_spec hlink
  have hlt : ino < v₂.nodes.nextIno := by
    rw [hfound.grown.ext.nodes]
    exact h₁.sound.cached d ino hd
  have hfile₂ : v₂.nodes.isDir ino = false := by
    rw [hfound.grown.ext.nodes]
    exact hfile
  refine h₂.inserted (hfound.attached h₁ (hroot.grown hv hgrown) (hstart.grown hv hgrown))
    hfound.inode hisDir hnegative
    (rewired_setEntry h₂.sound.nodes (h₂.sound.cached _ _ hfound.inode) hlt) hlt ?_ ?_
  · intro hdir
    exact absurd (hfile₂.symm.trans hdir) false_ne_true
  · intro m hm hrootIno
    obtain ⟨i, hi, hdir, -⟩ := h₂.root m hm
    rw [hrootIno] at hi
    cases hi
    exact absurd (hfile₂.symm.trans hdir) false_ne_true

/-! ### Names that go away -/

/-- A new dentry has nothing below it. -/
theorem Coherent.free_getD (hfree : ∀ c, v.lookupChild d name = some c → v.NoMounts c) :
    v.NoMounts ((v.lookupChild d name).getD v.nextDentry) := by
  have hv := h.sound.wf
  cases hchild : v.lookupChild d name with
  | some c => exact hfree c hchild
  | none =>
    refine h.leaf_free ?_ ?_
    · intro name' c hmem
      rw [getD_none, (hv.fresh _ le_rfl).1] at hmem
      cases hmem
    · intro m p hm hpoint heq
      exact absurd (hv.point m p hm hpoint).2 (by rw [heq]; exact lt_irrefl _)

theorem Coherent.removed {clear : Bool} (ha : v.Attached a)
    (hdir : v.getInode a.dentry = some dir) (hisDir : v.nodes.isDir dir = true)
    (hclear : clear = false → ∀ c, v.lookupChild a.dentry name = some c →
      (v.dentry c).children = [])
    (hfree : ∀ c, v.lookupChild a.dentry name = some c → v.NoMounts c) :
    (({ v with nodes := v.nodes.removeEntry dir name } : Dcache).patch a.dentry name none
      clear).Coherent := by
  have hv := h.sound.wf
  refine h.repatched (repatched_patch hv (ha.valid hv).2 _ hclear) ?_ ha hdir hisDir
    (nofun) (h.free_getD hfree)
  rw [(nodes_patch _ _ _ _ _).1]
  exact rewired_removeEntry h.sound.nodes

/-- The cached entry of a name has the inode of the name. -/
theorem Coherent.child_inode (ha : v.Attached a)
    (hdir : v.getInode a.dentry = some dir) (hchild : v.lookupChild a.dentry name = some c) :
    v.getInode c = v.nodes.entry dir name := by
  obtain ⟨i, hi, -, hentry⟩ := h.table a ha name c (DEntry.mem_of_lookupChild hchild)
  rw [hdir] at hi
  cases hi
  exact hentry

/-- Nothing is cached below a file and nothing is mounted on it. -/
theorem Coherent.file_bare (hino : v.getInode c = some ino)
    (hfile : v.nodes.isDir ino = false) : (v.dentry c).children = [] ∧
      ∀ m p, m < v.nextMount → (v.mount m).mountPoint = some p → p.dentry ≠ c := by
  constructor
  · by_contra hne
    obtain ⟨i, hi, hdir⟩ := h.bare c hne
    rw [hino] at hi
    cases hi
    exact absurd (hfile.symm.trans hdir) false_ne_true
  · intro m p hm hpoint heq
    obtain ⟨-, ⟨i, hi, hdir⟩, -⟩ := h.point m p hm hpoint
    rw [heq, hino] at hi
    cases hi
    exact absurd (hfile.symm.trans hdir) false_ne_true

section

variable (hroot : v.Attached root) (hstart : v.Attached start)

include hroot hstart

/-- What was located is there after more was cached. -/
theorem Located.end (hlocated : v.Located root start path access found v₁ v₂) :
    v₂.Coherent ∧ v₂.Attached found.1 ∧ v₂.getInode found.1.dentry = some found.2.1 := by
  have h₁ := h.grown hlocated.found.grown
  refine ⟨h₁.grown hlocated.grown,
    (hlocated.found.attached h hroot hstart).grown h₁.sound.wf hlocated.grown, ?_⟩
  rw [hlocated.grown.ext.getInode hlocated.found.valid.2]
  exact hlocated.found.inode

theorem Coherent.unlinked (hunlinked : v.Unlinked root start path access v') : v'.Coherent := by
  obtain ⟨found, v₁, v₂, n, hlocated, hwork, rfl⟩ := hunlinked
  obtain ⟨h₂, ha, hdir⟩ := hlocated.end h hroot hstart
  obtain ⟨hisDir, rfl, ino, hentry, hfile⟩ := unlink_spec hwork
  have hbare : ∀ c, v₂.lookupChild found.1.dentry found.2.2 = some c → (v₂.dentry c).children = [] ∧
        ∀ m p, m < v₂.nextMount → (v₂.mount m).mountPoint = some p → p.dentry ≠ c :=
    fun c hc => h₂.file_bare ((h₂.child_inode ha hdir hc).trans hentry) hfile
  refine h₂.removed ha hdir hisDir (fun _ c hc => (hbare c hc).1) fun c hc => ?_
  refine h₂.leaf_free (fun name' c' hmem => ?_) (hbare c hc).2
  rw [(hbare c hc).1] at hmem
  cases hmem

theorem Coherent.dirRemoved (hremoved : v.DirRemoved root start path access v') : v'.Coherent := by
  obtain ⟨found, v₁, v₂, n, hlocated, hbusy, hwork, rfl⟩ := hremoved
  obtain ⟨h₂, ha, hdir⟩ := hlocated.end h hroot hstart
  have hv₁ := (h.grown hlocated.found.grown).sound.wf
  obtain ⟨hisDir, rfl, ino, hentry, hempty⟩ := rmdir_spec hwork
  refine h₂.removed ha hdir hisDir (nofun) fun c hc => ?_
  have hino := (h₂.child_inode ha hdir hc).trans hentry
  refine h₂.leaf_free ?_ ?_
  · -- The directory is empty, so what is cached below it has no inode.
    intro name' c' hmem
    have hchild : v₂.Attached ⟨found.1.mount, c⟩ := by
      obtain ⟨place, hplace⟩ := ha
      exact ⟨_, hplace.child (DEntry.mem_of_lookupChild hc) hino⟩
    obtain ⟨i, hi, -, hentry'⟩ := h₂.table _ hchild name' c' hmem
    rw [hino] at hi
    cases hi
    rw [hentry', entry, hempty]
    rfl
  · -- Nothing was mounted on it when it was found, and nothing is mounted on a new dentry.
    intro m p hm hpoint heq
    have hmem : m ∈ (v₂.dentry c).mounts := by
      obtain ⟨pm, pd⟩ := p
      cases heq
      exact h₂.mem_mounts.mpr ⟨hm, pm, hpoint⟩
    rw [hlocated.grown.ext.mounts] at hmem
    by_cases hc₁ : c < v₁.nextDentry
    · rw [hbusy c (hlocated.grown.lookupChild hv₁ hc hc₁)] at hmem
      cases hmem
    · rw [(hv₁.fresh c (Nat.le_of_not_lt hc₁)).2] at hmem
      cases hmem

end

/-! ### Renaming -/

omit h in
theorem mem_ancestors_self (v : Dcache) (fuel d : Nat) : d ∈ v.ancestors fuel d := by
  cases fuel with
  | zero => exact mem_singleton.mpr rfl
  | succ fuel =>
    unfold ancestors
    cases v.parent d with
    | none => exact mem_singleton.mpr rfl
    | some p => exact (.head _) ..

omit h in
theorem ancestors_le (hv : v.Wf) {fuel d x : Nat} (hx : x ∈ v.ancestors fuel d) : x ≤ d := by
  induction fuel generalizing d with
  | zero => exact le_of_eq (mem_singleton.mp hx)
  | succ fuel ih =>
    unfold ancestors at hx
    split at hx
    · exact le_of_eq (mem_singleton.mp hx)
    next p hparent =>
      rcases mem_cons.mp hx with rfl | hup
      · exact le_rfl
      · have hlt := hv.parent d p (filter_eq_some_iff.mp hparent).1
        exact (ih hup).trans (le_of_lt hlt)

theorem Coherent.parent_eq (d : Nat) : v.parent d = (v.dentry d).parent := by
  rw [parent]
  cases (v.dentry d).parent with
  | none => rfl
  | some p => rw [filter_some, h.alive, if_pos rfl]

variable {c : Nat}

/-- A dentry is among the ancestors of what is below it. -/
theorem Coherent.mem_ancestors {n : PathNode} (hn : v.Under c n) :
    ∀ fuel, n.dentry ≤ fuel → c ∈ v.ancestors fuel n.dentry := by
  have hv := h.sound.wf
  have hup : ∀ d p, (v.dentry d).parent = some p →
      (∀ fuel, p ≤ fuel → c ∈ v.ancestors fuel p) → ∀ fuel, d ≤ fuel → c ∈ v.ancestors fuel d := by
    intro d p hparent hp fuel hfuel
    have hlt := hv.parent d p hparent
    cases fuel with
    | zero => omega
    | succ fuel =>
      rw [ancestors, h.parent_eq, hparent]
      exact .tail _ (hp fuel (by omega))
  induction hn with
  | self => exact fun fuel _ => mem_ancestors_self v fuel c
  | mounted _ hm hpoint ih => exact hup _ _ (h.point _ _ hm hpoint).2.2 ih
  | child _ hmem ih => exact hup _ _ (hv.child _ _ _ hmem).2.1 ih

theorem ancestors_congr (h' : v'.Coherent)
    (hparent : ∀ d < v.nextDentry, (v'.dentry d).parent = (v.dentry d).parent) (fuel : Nat)
    (hd : d < v.nextDentry) : v'.ancestors fuel d = v.ancestors fuel d := by
  induction fuel generalizing d with
  | zero => rfl
  | succ fuel ih =>
    unfold ancestors
    rw [h.parent_eq, h'.parent_eq, hparent d hd]
    cases hp : (v.dentry d).parent with
    | none => rfl
    | some p =>
      dsimp only
      rw [ih ((h.sound.wf.parent d p hp).trans hd)]

/-- Nothing is mounted at a dentry or below it. -/
def Unmounted (v : Dcache) (c : Nat) : Prop :=
  ∀ m < v.nextMount, ∀ p ∈ (v.mount m).mountPoint, c ∉ v.ancestors p.dentry p.dentry

theorem Unmounted.free (hc : v.Unmounted c) : v.NoMounts c :=
  fun m p hm hpoint hunder => hc m hm p hpoint (h.mem_ancestors hunder _ le_rfl)

theorem Unmounted.congr (h' : v'.Coherent) (hc : v.Unmounted c) (hmount : v'.mount = v.mount)
    (hnext : v'.nextMount = v.nextMount)
    (hparent : ∀ d < v.nextDentry, (v'.dentry d).parent = (v.dentry d).parent) :
    v'.Unmounted c := by
  intro m hm p hp
  rw [hnext] at hm
  rw [hmount] at hp
  rw [ancestors_congr h h' hparent _ (h.sound.wf.point m p hm hp).2]
  exact hc m hm p hp

omit h in
/-- Nothing is mounted below a dentry that is new. -/
theorem unmounted_of_le (hv : v.Wf) (hc : v.nextDentry ≤ c) : v.Unmounted c := by
  intro m hm p hp hmem
  have hle := ancestors_le hv hmem
  have hlt := (hv.point m p hm hp).2
  omega

/-- The names of a rename: `old` names the entry that is moved, and nothing is mounted at or below
the two names. -/
def Plain (v : Dcache) (src dst : PathNode × Nat × Name) (node : PathNode × Nat) : Prop :=
  v.nodes.entry src.2.1 src.2.2 = some node.2 ∧
    (∀ c ∈ v.lookupChild src.1.dentry src.2.2, v.Unmounted c) ∧
    ∀ c ∈ v.lookupChild dst.1.dentry dst.2.2, v.Unmounted c

variable {driver : Driver} {node : PathNode × Nat} {src dst : PathNode × Nat × Name}
  {oldStart newStart : PathNode}
  {old new : List Char}
  {v₃ w : Dcache}

/-- The directory that a node is moved to is not below it. -/
theorem Coherent.outside (hsrc : v.Attached src.1)
    (hsrcIno : v.getInode src.1.dentry = some src.2.1) (hnode : v.Attached node.1)
    (hnodeIno : v.getInode node.1.dentry = some node.2)
    (hentry : v.nodes.entry src.2.1 src.2.2 = some node.2)
    (hdstIno : v.getInode dst.1.dentry = some dst.2.1) (hdstDir : v.nodes.isDir dst.2.1 = true)
    (hoff : v.nodes.isDir node.2 = true → node.1.dentry ∉ v.ancestors dst.1.dentry dst.1.dentry)
    (hchild : v.lookupChild src.1.dentry src.2.2 = some c) : ¬ v.Under c dst.1 := by
  intro hunder
  have hino := (h.child_inode hsrc hsrcIno hchild).trans hentry
  cases hdir : v.nodes.isDir node.2 with
  | true =>
    -- A directory is cached once, so the entry is the node that was looked up.
    have hattached : v.Attached ⟨src.1.mount, c⟩ := by
      obtain ⟨place, hplace⟩ := hsrc
      exact ⟨_, hplace.child (DEntry.mem_of_lookupChild hchild) hino⟩
    have hsame := h.node_unique hnode hattached hnodeIno hino hdir
    refine hoff hdir ?_
    rw [hsame]
    exact h.mem_ancestors hunder _ le_rfl
  | false =>
    obtain ⟨hbare, hmount⟩ := h.file_bare hino hdir
    have hleaf : ∀ name' c', (name', c') ∈ (v.dentry c).children → v.getInode c' = none := by
      intro name' c' hmem
      rw [hbare] at hmem
      cases hmem
    rcases h.leaf hleaf hmount hunder with heq | hnone
    · rw [heq, hino, some.injEq] at hdstIno
      rw [← hdstIno, hdir] at hdstDir
      exact absurd hdstDir false_ne_true
    · rw [hdstIno] at hnone
      cases hnone

/-- An entry is moved: it is removed at its old name and then put at the new one. -/
theorem Coherent.moved (hsrc : v.Attached src.1)
    (hsrcIno : v.getInode src.1.dentry = some src.2.1) (hsrcDir : v.nodes.isDir src.2.1 = true)
    (hdst : v.Attached dst.1) (hdstIno : v.getInode dst.1.dentry = some dst.2.1)
    (hdstDir : v.nodes.isDir dst.2.1 = true) (hentry : v.nodes.entry src.2.1 src.2.2 = some ino)
    (hoff : ∀ c, v.lookupChild src.1.dentry src.2.2 = some c → ¬ v.Under c dst.1)
    (hfreeSrc : ∀ c, v.lookupChild src.1.dentry src.2.2 = some c → v.Unmounted c)
    (hfreeDst : ∀ c, v.lookupChild dst.1.dentry dst.2.2 = some c → v.Unmounted c)
    (hn : n = (v.nodes.removeEntry src.2.1 src.2.2).setEntry dst.2.1 dst.2.2 ino) :
    ((({ v with nodes := n } : Dcache).patch src.1.dentry src.2.2 none true).patch
      dst.1.dentry dst.2.2 (some ino) true).Coherent := by
  have hv := h.sound.wf
  have hino := (h.sound.nodes _ _ (mem_of_entry hentry)).2
  have hA : (({ v with nodes := v.nodes.removeEntry src.2.1 src.2.2 } : Dcache).patch src.1.dentry
      src.2.2 none true).Coherent :=
    h.removed hsrc hsrcIno hsrcDir (nofun) fun c hc => (hfreeSrc c hc).free h
  have hP : v.Repatched (({ v with nodes := v.nodes.removeEntry src.2.1 src.2.2 } : Dcache).patch
      src.1.dentry src.2.2 none true) src.1 src.2.2
      ((v.lookupChild src.1.dentry src.2.2).getD v.nextDentry) none :=
    repatched_patch hv (hsrc.valid hv).2 _ nofun
  have hnodes : (({ v with nodes := v.nodes.removeEntry src.2.1 src.2.2 } : Dcache).patch
      src.1.dentry src.2.2 none true).nodes = v.nodes.removeEntry src.2.1 src.2.2 :=
    (nodes_patch _ _ _ _ _).1
  have hsplit : ({ v with nodes := n } : Dcache).patch src.1.dentry src.2.2 none true =
      { ({ v with nodes := v.nodes.removeEntry src.2.1 src.2.2 } : Dcache).patch src.1.dentry
          src.2.2 none true with nodes := n } := by
    rw [patch_setNodes v n, patch_setNodes v (v.nodes.removeEntry src.2.1 src.2.2)]
  rw [hsplit]
  generalize ({ v with nodes := v.nodes.removeEntry src.2.1 src.2.2 } : Dcache).patch src.1.dentry
    src.2.2 none true = w at hA hP hnodes
  have hdstA : w.Attached dst.1 := by
    refine (hP.attached_or hv hdst).resolve_right fun hunder => ?_
    cases hchild : v.lookupChild src.1.dentry src.2.2 with
    | some c =>
      rw [hchild] at hunder
      exact hoff c hchild hunder
    | none =>
      rw [hchild] at hunder
      have hle := ancestors_le hv (h.mem_ancestors hunder _ le_rfl)
      exact absurd (hdst.valid hv).2 (Nat.not_lt_of_le hle)
  have hdstInoA : w.getInode dst.1.dentry = some dst.2.1 := by
    rw [hP.same _ ?_]
    · exact hdstIno
    · intro heq
      obtain ⟨place, hplace⟩ := hdstA
      have hsome := hplace.ino
      rw [heq, hP.inode] at hsome
      cases hsome
  refine hA.repatched (repatched_patch hA.sound.wf (hdstA.valid hA.sound.wf).2 n
    nofun) ?_ hdstA hdstInoA ?_ ?_ (hA.free_getD fun c hc => ?_)
  · rw [(nodes_patch _ _ _ _ _).1, hnodes, hn]
    exact rewired_setEntry h.sound.nodes.removeEntry (h.sound.cached _ _ hdstIno) hino
  · rw [hnodes]
    exact hdstDir
  · intro i hi
    cases hi
    rw [(nodes_patch _ _ _ _ _).1, hn]
    refine ⟨hino, fun hdir d name' hentry' => ?_, fun m hm hrootIno => ?_⟩
    · rw [entry_setEntry] at hentry'
      split_ifs at hentry' with hboth
      · exact hboth
      · -- The old name was the only one of a directory.
        rw [entry_removeEntry] at hentry'
        split_ifs at hentry' with hgone
        exact absurd (h.unique _ _ _ _ _ hdir hentry' hentry) hgone
    · rw [hP.nextMount] at hm
      rw [hP.mount, hP.same _ (hP.root_ne hm)] at hrootIno
      exact h.rootless hm hrootIno _ _ hentry
  · have hold : v.Unmounted c := by
      rcases hP.old _ _ _ (DEntry.mem_of_lookupChild hc) with ⟨-, -, rfl⟩ | hmem
      · rcases hP.place with hmem | ⟨hle, -⟩
        · exact hfreeSrc _ (DEntry.lookupChild_of_mem (hv.names _) hmem)
        · exact unmounted_of_le hv hle
      · exact hfreeDst _ (DEntry.lookupChild_of_mem (hv.names _) hmem)
    exact (hold.congr h hA hP.mount hP.nextMount hP.parent).free hA

/-- What a rename works on, when it comes to its last step. -/
structure Settled (w : Dcache) (src dst : PathNode × Nat × Name) (node : PathNode × Nat) : Prop where
  coherent : w.Coherent
  srcAt : w.Attached src.1
  srcIno : w.getInode src.1.dentry = some src.2.1
  dstAt : w.Attached dst.1
  dstIno : w.getInode dst.1.dentry = some dst.2.1
  nodeAt : w.Attached node.1
  nodeIno : w.getInode node.1.dentry = some node.2

variable (hroot : v.Attached root) (hold : v.Attached oldStart) (hnew : v.Attached newStart)
  (hmoving : v.Moving driver root oldStart old newStart new access src dst node v₁ v₂ v₃ w)

include hroot hold hnew hmoving

theorem Moving.settled : w.Settled src dst node := by
  have hv := h.sound.wf
  have h₁ := h.grown hmoving.foundSrc.grown
  have h₂ := h₁.grown hmoving.foundDst.grown
  have h₃ := h₂.grown hmoving.grownTarget
  have hgrown₂ : v₂.Grown w := hmoving.grownTarget.trans hmoving.grown
  have hgrown₁ : v₁.Grown w := hmoving.foundDst.grown.trans hgrown₂
  have hgrown₀ : v.Grown v₂ := hmoving.foundSrc.grown.trans hmoving.foundDst.grown
  refine ⟨h₃.grown hmoving.grown, ?_, ?_, ?_, ?_, ?_, ?_⟩
  · exact (hmoving.foundSrc.attached h hroot hold).grown h₁.sound.wf hgrown₁
  · rw [hgrown₁.ext.getInode hmoving.foundSrc.valid.2]
    exact hmoving.foundSrc.inode
  · exact (hmoving.foundDst.attached h₁ (hroot.grown hv hmoving.foundSrc.grown)
      (hnew.grown hv hmoving.foundSrc.grown)).grown h₂.sound.wf hgrown₂
  · rw [hgrown₂.ext.getInode hmoving.foundDst.valid.2]
    exact hmoving.foundDst.inode
  · exact (attached_target h₂ (hroot.grown hv hgrown₀) (hold.grown hv hgrown₀)
      hmoving.target).grown h₃.sound.wf hmoving.grown
  · rw [hmoving.grown.ext.getInode hmoving.valid.2]
    exact hmoving.inode

theorem Coherent.renamed (hplain : v₃.Plain src dst node) (hlinks : driver.keepsLinks = true →
      v₃.nodes.entry dst.2.1 dst.2.2 ≠ some node.2)
    (hrename : w.nodes.rename driver.keepsLinks src.2.1 src.2.2 dst.2.1 dst.2.2 = .ok ((), n)) :
    ((({ w with nodes := n } : Dcache).patch src.1.dentry src.2.2 none true).patch
      dst.1.dentry dst.2.2 (some node.2) true).Coherent := by
  have h₃ := ((h.grown hmoving.foundSrc.grown).grown hmoving.foundDst.grown).grown
    hmoving.grownTarget
  have hs := hmoving.settled h hroot hold hnew
  have hw := hs.coherent
  obtain ⟨hsame, hfreeSrc, hfreeDst⟩ := hplain
  rw [← hmoving.grown.ext.nodes] at hsame hlinks
  obtain ⟨hsrcDir, hdstDir, ino, hentry, hn, -⟩ := rename_spec hrename (hsame ▸ hlinks)
  rw [hentry, some.injEq] at hsame
  subst hsame
  -- What was not mounted on before the last lookup is not mounted on after it.
  have hunmounted : ∀ d name c, (∀ c' ∈ v₃.lookupChild d name, v₃.Unmounted c') →
      w.lookupChild d name = some c → w.Unmounted c := by
    intro d name c hfree hc
    by_cases hlt : c < v₃.nextDentry
    · exact (hfree c (hmoving.grown.lookupChild h₃.sound.wf hc hlt)).congr h₃ hw
        hmoving.grown.ext.mount hmoving.grown.ext.nextMount hmoving.grown.ext.parent
    · exact (unmounted_of_le h₃.sound.wf (Nat.le_of_not_lt hlt)).congr h₃ hw
        hmoving.grown.ext.mount hmoving.grown.ext.nextMount hmoving.grown.ext.parent
  exact hw.moved hs.srcAt hs.srcIno hsrcDir hs.dstAt hs.dstIno hdstDir hentry
    (fun c hc => hw.outside hs.srcAt hs.srcIno hs.nodeAt hs.nodeIno hentry hs.dstIno hdstDir
      hmoving.outside hc)
    (fun c => hunmounted _ _ c hfreeSrc) (fun c => hunmounted _ _ c hfreeDst) hn

end Petra.Vfs.Dcache
