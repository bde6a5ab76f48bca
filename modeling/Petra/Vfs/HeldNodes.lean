import Petra.Base.Run
import Petra.Vfs.Mounts
import Petra.Vfs.Patching

/-! # Nodes that are held

A process keeps nodes it has looked up: its working directory, its root, its directory
descriptors. Operations reuse dentries in place, so what a held node denotes depends on every
later operation on its name.
-/

namespace Petra.Vfs

open Base Dcache List Nodes

/-- The heap, and the nodes that were looked up with the inodes they had. -/
structure Holding where
  vfs : Dcache
  obtained : List (PathNode × Option Nat)

inductive NameOp where
  | lookup (start : PathNode) (path : List Char) (flags : LookupFlags)
  | create (start : PathNode) (path : List Char) (access : Access) (fault : Option Errno)
  | mkdir (start : PathNode) (path : List Char) (access : Access) (fault : Option Errno)
  | unlink (start : PathNode) (path : List Char) (access : Access) (fault : Option Errno)
  | rmdir (start : PathNode) (path : List Char) (access : Access) (fault : Option Errno)
  | rename (oldStart : PathNode) (old : List Char) (newStart : PathNode) (new : List Char)
      (access : Access) (fault : Option Errno)

/-- The nodes an operation starts from. -/
def NameOp.starts : NameOp → List PathNode
  | .lookup start _ _ | .create start _ _ _ | .mkdir start _ _ _ | .unlink start _ _ _
  | .rmdir start _ _ _ => [start]
  | .rename oldStart _ newStart _ _ _ => [oldStart, newStart]

/-- The inode has this entry at most. -/
def Nodes.OnlyName (n : Nodes) (dir : Nat) (name : Name) (ino : Nat) : Prop :=
  ∀ i < n.nextIno, ∀ e ∈ n.entries i, e.2 = ino → i = dir ∧ e.1 = name

instance (n : Nodes) (dir : Nat) (name : Name) (ino : Nat) :
    Decidable (n.OnlyName dir name ino) := inferInstanceAs (Decidable (∀ i < _, _))

namespace Holding

/-- The heap after a system call, whatever it returned. -/
def call {α : Type} (sys : Holding) (m : Op α) : Except Panic Holding :=
  (m sys.vfs).map fun out => { sys with vfs := out.2 }

def perform (root : PathNode) (sys : Holding) : NameOp → Except Panic Holding
  | .lookup start path flags =>
    match sys.vfs.lookup root start path flags with
    | (.error _, v) => .ok { sys with vfs := v }
    | (.ok n, v) => .ok ⟨v, (n, v.getInode n.dentry) :: sys.obtained⟩
  | .create start path access fault => sys.call (createAt root start path access fault)
  | .mkdir start path access fault => sys.call (mkdirAt root start path access fault)
  | .unlink start path access fault => sys.call (unlinkAt root start path access fault)
  | .rmdir start path access fault => sys.call (rmdirAt root start path access fault)
  | .rename oldStart old newStart new access fault =>
    sys.call (renameAt .single root oldStart old newStart new access fault)

/-- An operation of a process with a root. The root and the nodes it starts from were looked up. -/
def step (sys : Holding) (c : PathNode × NameOp) : Except Panic Holding :=
  if ∀ n ∈ c.1 :: c.2.starts, n ∈ sys.obtained.map Prod.fst then sys.perform c.1 c.2 else .ok sys

def initial (v : Dcache) (root : PathNode) : Holding := ⟨v, [(root, v.getInode root.dentry)]⟩

/-! ### Which operations leave held nodes alone -/

/-- The cached entry of a name is not held. -/
def Free (sys : Holding) (v : Dcache) (found : PathNode × Nat × Name) : Prop :=
  ∀ c ∈ v.lookupChild found.1.dentry found.2.2, ∀ h ∈ sys.obtained, h.1.dentry ≠ c
deriving Decidable

/-- If the cached entry of a name is held, the name is the only one of the held inode. -/
def LastName (sys : Holding) (v : Dcache) (found : PathNode × Nat × Name) : Prop :=
  ∀ c ∈ v.lookupChild found.1.dentry found.2.2, ∀ h ∈ sys.obtained, h.1.dentry = c →
    h.2 = v.getInode c → ∀ ino ∈ v.getInode c, v.nodes.OnlyName found.2.1 found.2.2 ino
deriving Decidable

def Spares (sys : Holding) : PathNode × NameOp → Prop
  | (_, .lookup _ _ _) => True
  | (root, .create start path access _) | (root, .mkdir start path access _) =>
    AtFound sys.vfs root start path access sys.Free
  | (root, .unlink start path access _) | (root, .rmdir start path access _) =>
    AtFound sys.vfs root start path access sys.LastName
  | (root, .rename oldStart old newStart new access _) =>
    AtFound sys.vfs root oldStart old access fun v src =>
      AtFound v root newStart new access fun v₂ dst => sys.Free v₂ src ∧ sys.Free v₂ dst

instance (sys : Holding) (c : PathNode × NameOp) : Decidable (sys.Spares c) := by
  obtain ⟨root, op⟩ := c
  unfold Spares
  induction op using NameOp.casesOn <;> infer_instance

end Holding

/-! ### The invariant -/

/-- A node still denotes its inode, or the inode was removed. -/
def Dcache.Steady (v : Dcache) (d ino : Nat) : Prop :=
  v.getInode d = some ino ∨ v.getInode d = none ∧ v.nodes.Removed ino

namespace Dcache

variable {v v' : Dcache}

theorem Steady.grown {d ino : Nat} (h : v.Steady d ino) (hgrown : v.Grown v')
    (hd : d < v.nextDentry) : v'.Steady d ino := by
  unfold Steady
  rw [hgrown.ext.getInode hd, hgrown.ext.nodes]
  exact h

end Dcache

namespace Nodes

variable {n : Nodes} {dir ino : Nat} {name : Name}

theorem Removed.setEntry {i : Nat} (h : n.Removed ino) (hne : i ≠ ino) :
    (n.setEntry dir name i).Removed ino := by
  intro j e he
  rcases mem_setEntry he with ⟨-, rfl⟩ | hold
  · exact hne
  · exact h j e hold

theorem Removed.removeEntry (h : n.Removed ino) : (n.removeEntry dir name).Removed ino :=
  fun i e he => h i e (mem_removeEntry he).1

/-- Without its only name an inode is removed. -/
theorem OnlyName.removed (hn : n.Wf) (h : n.OnlyName dir name ino) :
    (n.removeEntry dir name).Removed ino := by
  intro i e he hino
  obtain ⟨hold, hne⟩ := mem_removeEntry he
  obtain ⟨hi, hname⟩ := h i (hn i e hold).1 e hold hino
  exact hne hi hname

theorem Removed.alloc {kind : Kind} (h : n.Removed ino) : (n.alloc kind).Removed ino :=
  fun i e he => h i e (mem_alloc he)

end Nodes

/-- The nodes in `obtained` are steady. -/
structure Dcache.Holds (obtained : List (PathNode × Option Nat)) (v : Dcache) : Prop where
  sound : v.Sound
  valid : ∀ h ∈ obtained, v.Valid h.1
  bound : ∀ h ∈ obtained, ∀ ino, h.2 = some ino → ino < v.nodes.nextIno
  steady : ∀ h ∈ obtained, ∀ ino, h.2 = some ino → v.Steady h.1.dentry ino

namespace Dcache.Holds

variable {root : PathNode} {obtained : List (PathNode × Option Nat)} {v v' : Dcache} {clear : Bool}

theorem grown (h : v.Holds obtained) (hgrown : v.Grown v') : v'.Holds obtained where
  sound := h.sound.grown hgrown
  valid e he := hgrown.ext.valid (h.valid e he)
  bound e he ino hino := by
    rw [hgrown.ext.nodes]
    exact h.bound e he ino hino
  steady e he ino hino := (h.steady e he ino hino).grown hgrown (h.valid e he).2

theorem setNodes (h : v.Holds obtained) {n : Nodes} (hn : n.Wf)
    (hnext : v.nodes.nextIno ≤ n.nextIno)
    (hremoved : ∀ ino < v.nodes.nextIno, v.nodes.Removed ino → n.Removed ino) :
    ({ v with nodes := n } : Dcache).Holds obtained where
  sound := ⟨h.sound.wf.setNodes n, hn, fun d ino hino =>
    (h.sound.cached d ino hino).trans_le hnext⟩
  valid := h.valid
  bound e he ino hino := (h.bound e he ino hino).trans_le hnext
  steady e he ino hino := by
    rcases h.steady e he ino hino with hsome | ⟨hnone, hgone⟩
    · exact .inl hsome
    · exact .inr ⟨hnone, hremoved ino (h.bound e he ino hino) hgone⟩

/-- A patch of an entry that is not held, or whose held inode was removed. -/
theorem patch (h : v.Holds obtained) {d : Nat} (hd : d < v.nextDentry) {name : Name}
    {ino : Option Nat} (hino : ∀ i, ino = some i → i < v.nodes.nextIno)
    (hheld : ∀ c, v.lookupChild d name = some c → ∀ e ∈ obtained, e.1.dentry = c →
      ∀ i, e.2 = some i → ino = none ∧ v.nodes.Removed i) :
    (v.patch d name ino clear).Holds obtained := by
  have hnext := next_le_patch v d name ino clear
  obtain ⟨hnodes, hmount⟩ := nodes_patch v d name ino clear
  have hvalid : ∀ n, v.Valid n → (v.patch d name ino clear).Valid n := fun n hn =>
    ⟨hmount ▸ hn.1, hn.2.trans_le hnext⟩
  refine ⟨h.sound.patch hd hino, fun e he => hvalid _ (h.valid e he), ?_, ?_⟩
  · intro e he i hi
    rw [hnodes]
    exact h.bound e he i hi
  intro e he i hi
  unfold Steady
  rw [getInode_patch hd, hnodes]
  split_ifs with hself
  · cases hchild : v.lookupChild d name with
    | none =>
      rw [hchild] at hself
      exact absurd hself (h.valid e he).2.ne
    | some c =>
      rw [hchild] at hself
      exact .inr (hheld c hchild e he hself i hi)
  · exact h.steady e he i hi

/-! ### One lemma for each kind of operation -/

variable {start : PathNode} {path : List Char} {access : Access} {sys : Holding}

theorem made {kind : Kind} (h : v.Holds sys.obtained)
    (hfree : AtFound v root start path access sys.Free)
    (hmade : v.Made root start path access kind v') : v'.Holds sys.obtained := by
  obtain ⟨found, v₁, ino, n, hfound, -, -, hcreate, rfl⟩ := hmade
  have hfree := hfound.of_at hfree
  have h₁ := h.grown hfound.grown
  obtain ⟨-, rfl, rfl⟩ := create_spec hcreate
  have hdir := h₁.sound.cached _ _ hfound.inode
  have hset := h₁.setNodes (n := (v₁.nodes.alloc kind).setEntry found.2.1 found.2.2 _)
    (h₁.sound.nodes.alloc.setEntry (Nat.lt_succ_of_lt hdir) (Nat.lt_succ_self _))
    (Nat.le_succ _) (fun i hi hgone => hgone.alloc.setEntry hi.ne')
  refine patch hset hfound.valid.2 ?_ ?_
  · intro i hi
    cases hi
    exact Nat.lt_succ_self _
  · exact fun c hc e he heq => absurd heq (hfree c hc e he)

/-- A name is removed; if its entry is held, it was the last name. -/
theorem removed {found : PathNode × Nat × Name} {v₁ v₂ : Dcache} (h : v.Holds sys.obtained)
    (hlast : AtFound v root start path access sys.LastName)
    (hlocated : v.Located root start path access found v₁ v₂) :
    (({ v₂ with nodes := v₂.nodes.removeEntry found.2.1 found.2.2 } : Dcache).patch
      found.1.dentry found.2.2 none clear).Holds sys.obtained := by
  have hlast := hlocated.found.of_at hlast
  have h₁ := h.grown hlocated.found.grown
  have h₂ := h₁.grown hlocated.grown
  refine patch (h₂.setNodes h₂.sound.nodes.removeEntry le_rfl
    fun i _ hgone => hgone.removeEntry) (hlocated.grown.ext.valid hlocated.found.valid).2
    (nofun) ?_
  intro c hc e he heq i hi
  refine ⟨rfl, ?_⟩
  rcases h₂.steady e he i hi with hsome | ⟨-, hgone⟩
  · -- The entry was cached when the directory was found, and the inode has no other name.
    have hlt : c < v₁.nextDentry := heq ▸ (h₁.valid e he).2
    have hc₁ := hlocated.grown.lookupChild h₁.sound.wf hc hlt
    rw [heq, hlocated.grown.ext.getInode hlt] at hsome
    have honly := hlast c hc₁ e he heq (hi.trans hsome.symm) i hsome
    rw [← hlocated.grown.ext.nodes] at honly
    exact honly.removed h₂.sound.nodes
  · exact hgone.removeEntry

theorem renamed {oldStart newStart : PathNode} {old new : List Char} (h : v.Holds sys.obtained)
    (hfree : AtFound v root oldStart old access fun v src =>
      AtFound v root newStart new access fun v₂ dst => sys.Free v₂ src ∧ sys.Free v₂ dst)
    (hrenamed : v.Renamed .single root oldStart old newStart new access v') :
    v'.Holds sys.obtained := by
  obtain ⟨src, dst, node, v₁, v₂, v₃, w, n, hmoving, hrename, rfl⟩ := hrenamed
  have hfree := hmoving.foundDst.of_at (hmoving.foundSrc.of_at hfree)
  have hgrown : v₂.Grown w := hmoving.grownTarget.trans hmoving.grown
  have h₂ := (h.grown hmoving.foundSrc.grown).grown hmoving.foundDst.grown
  have hw := h₂.grown hgrown
  obtain ⟨-, -, ino, hentry, hn, -⟩ := rename_spec hrename nofun
  have hmem := mem_of_entry hentry
  have hsrc : w.Valid src.1 :=
    hgrown.ext.valid (hmoving.foundDst.grown.ext.valid hmoving.foundSrc.valid)
  have hdst : w.Valid dst.1 := hgrown.ext.valid hmoving.foundDst.valid
  have hdir : dst.2.1 < w.nodes.nextIno := by
    refine hw.sound.cached dst.1.dentry _ ?_
    rw [hgrown.ext.getInode hmoving.foundDst.valid.2]
    exact hmoving.foundDst.inode
  -- An entry that is held was there when the directories were found, so neither is.
  have hunheld : ∀ (found : PathNode × Nat × Name) c, sys.Free v₂ found →
      (found.2.2, c) ∈ (w.dentry found.1.dentry).children →
      ∀ e ∈ sys.obtained, e.1.dentry ≠ c := by
    intro found c hf hc e he heq
    have hlt : c < v₂.nextDentry := heq ▸ (h₂.valid e he).2
    have hold := hgrown.old hc hlt
    exact hf c (DEntry.lookupChild_of_mem (h₂.sound.wf.names _) hold) e he heq
  have hset : ({ w with nodes := n } : Dcache).Holds sys.obtained := by
    rw [hn]
    exact hw.setNodes (hw.sound.nodes.removeEntry.setEntry hdir (hw.sound.nodes _ _ hmem).2) le_rfl
      (fun i _ hgone => hgone.removeEntry.setEntry (hgone _ _ hmem))
  have hfirst : (({ w with nodes := n } : Dcache).patch src.1.dentry src.2.2 none true).Holds
      sys.obtained :=
    patch hset hsrc.2 (nofun) fun c hc e he heq => absurd heq
      (hunheld src c hfree.1 (DEntry.mem_of_lookupChild hc) e he)
  have hnext := next_le_patch { w with nodes := n } src.1.dentry src.2.2 none true
  refine patch hfirst (hdst.2.trans_le hnext) ?_ ?_
  · intro i hi
    cases hi
    rw [(nodes_patch _ _ _ _ _).1, hn]
    refine hw.sound.cached node.1.dentry _ ?_
    rw [hmoving.grown.ext.getInode hmoving.valid.2]
    exact hmoving.inode
  · intro c hc e he heq
    have hlt : c < w.nextDentry := heq ▸ (hw.valid e he).2
    have hold : (dst.2.2, c) ∈ (w.dentry dst.1.dentry).children :=
      children_patch_old (v := { w with nodes := n }) hsrc.2 (DEntry.mem_of_lookupChild hc) hlt
    exact absurd heq (hunheld dst c hfree.2 hold e he)

end Dcache.Holds

namespace Holding

variable {root : PathNode} {sys sys' : Holding} {α : Type} {m : Op α} {R : Dcache → Prop}
  {op : NameOp}

/-- A system call fills the cache, or it succeeds. -/
theorem call_cases (hwf : sys.vfs.Wf)
    (hworks : Works sys.vfs (fun v => v = sys.vfs) m R) (h : sys.call m = .ok sys') :
    sys'.obtained = sys.obtained ∧ (sys.vfs.Grown sys'.vfs ∨ R sys'.vfs) := by
  have hend := hworks sys.vfs ⟨.refl hwf, rfl⟩
  obtain ⟨out, hrun, rfl⟩ := exists_of_observed h
  rw [hrun] at hend
  exact ⟨rfl, hend⟩

section

variable (hsys : sys.vfs.Holds sys.obtained)

include hsys

theorem holds_call (hworks : Works sys.vfs (fun v => v = sys.vfs) m R)
    (hR : ∀ v, R v → v.Holds sys.obtained) (h : sys.call m = .ok sys') :
    sys'.vfs.Holds sys'.obtained := by
  obtain ⟨hobtained, hgrown | hdone⟩ := call_cases hsys.sound.wf hworks h
  · rw [hobtained]
    exact hsys.grown hgrown
  · rw [hobtained]
    exact hR _ hdone

theorem holds_lookup {start : PathNode} {path : List Char} {flags : LookupFlags}
    (hroot : sys.vfs.Valid root) (hstart : sys.vfs.Valid start)
    (h : sys.perform root (.lookup start path flags) = .ok sys') :
    sys'.vfs.Holds sys'.obtained := by
  obtain ⟨hgrown, hnode⟩ := grown_lookup hsys.sound.wf hroot hstart path flags
  simp only [perform] at h
  generalize sys.vfs.lookup root start path flags = out at h hgrown hnode
  obtain ⟨r, v⟩ := out
  have hv : v.Holds sys.obtained := hsys.grown hgrown
  cases r with
  | error e =>
    cases h
    exact hv
  | ok n =>
    cases h
    refine ⟨hv.sound, ?_, ?_, ?_⟩
    · exact forall_mem_cons.mpr ⟨hnode n rfl, hv.valid⟩
    · exact forall_mem_cons.mpr ⟨fun ino hino => hv.sound.cached _ ino hino, hv.bound⟩
    · exact forall_mem_cons.mpr ⟨fun ino hino => .inl hino, hv.steady⟩

theorem holds_perform (hstarts : ∀ n ∈ root :: op.starts, sys.vfs.Valid n)
    (hspares : sys.Spares (root, op)) (h : sys.perform root op = .ok sys') :
    sys'.vfs.Holds sys'.obtained := by
  have hwf := hsys.sound.wf
  obtain ⟨hroot, hstarts⟩ := forall_mem_cons.mp hstarts
  cases op with
  | lookup start path flags =>
    exact holds_lookup hsys hroot (hstarts start (.head _)) h
  | create start path access fault =>
    have hstart := hstarts start (.head _)
    exact holds_call hsys (works_createAt hwf hroot hstart) (fun _ => hsys.made hspares) h
  | mkdir start path access fault =>
    have hstart := hstarts start (.head _)
    exact holds_call hsys (works_mkdirAt hwf hroot hstart) (fun _ => hsys.made hspares) h
  | unlink start path access fault =>
    have hstart := hstarts start (.head _)
    refine holds_call hsys (works_unlinkAt hwf hroot hstart) (fun v hdone => ?_) h
    obtain ⟨found, v₁, v₂, n, hlocated, hwork, rfl⟩ := hdone
    obtain ⟨-, rfl, -⟩ := unlink_spec hwork
    exact hsys.removed hspares hlocated
  | rmdir start path access fault =>
    have hstart := hstarts start (.head _)
    refine holds_call hsys (works_rmdirAt hwf hroot hstart) (fun v hdone => ?_) h
    obtain ⟨found, v₁, v₂, n, hlocated, -, hwork, rfl⟩ := hdone
    obtain ⟨-, rfl, -⟩ := rmdir_spec hwork
    exact hsys.removed hspares hlocated
  | rename oldStart old newStart new access fault =>
    have hold := hstarts oldStart (.head _)
    have hnew := hstarts newStart (.tail _ (.head _))
    exact holds_call hsys (works_renameAt hwf hroot hold hnew) (fun _ => hsys.renamed hspares) h

/-- A spared node keeps its inode, and an inode that is removed had no other name. -/
theorem holds_step {c : PathNode × NameOp} (hspares : sys.Spares c) (h : sys.step c = .ok sys') :
    sys'.vfs.Holds sys'.obtained := by
  unfold step at h
  split_ifs at h with hstarts
  · refine holds_perform hsys (fun n hn => ?_) hspares h
    obtain ⟨e, he, rfl⟩ := mem_map.mp (hstarts n hn)
    exact hsys.valid e he
  · cases h
    exact hsys

end

theorem holds_initial {v : Dcache} (hv : v.Sound) (hroot : v.Valid root) :
    v.Holds (initial v root).obtained where
  sound := hv
  valid := forall_mem_singleton.mpr hroot
  bound := forall_mem_singleton.mpr fun ino hino => hv.cached _ ino hino
  steady := forall_mem_singleton.mpr fun _ hino => .inl hino

/-- **Held nodes are steady.** As long as no operation removes a name that is held and not the
last one of its inode, or reuses or moves a name that is held, a node keeps its inode until the
inode is removed. -/
theorem steady_of_visits {v₀ : Dcache} (hv : v₀.Sound) (hroot : v₀.Valid root)
    (h : Visits step Spares (initial v₀ root) sys) :
    ∀ n ino, (n, some ino) ∈ sys.obtained → sys.vfs.getInode n.dentry = some ino ∨
        sys.vfs.getInode n.dentry = none ∧ sys.vfs.nodes.Removed ino := by
  have hholds := h.invariant (I := fun s => s.vfs.Holds s.obtained)
    (holds_initial hv hroot) fun _ _ _ hs hop hstep => holds_step hs hop hstep
  exact fun n ino hmem => hholds.steady _ hmem ino rfl

/-- A directory is looked up and then removed. In between it is the root of a process. -/
def removal : List (PathNode × NameOp) :=
  [(⟨0, 0⟩, .lookup ⟨0, 0⟩ ['/', 'a'] ⟨false, false⟩),
    (⟨0, 1⟩, .lookup ⟨0, 1⟩ ['/', 'b'] ⟨false, false⟩),
    (⟨0, 0⟩, .create ⟨0, 0⟩ ['/', 'b'] .full none),
    (⟨0, 0⟩, .rmdir ⟨0, 0⟩ ['/', 'a'] .full none)]

/-- A directory is looked up and renamed, and its old name is used again. -/
def renamedAway : List (PathNode × NameOp) :=
  [(⟨0, 0⟩, .lookup ⟨0, 0⟩ ['/', 'a'] ⟨false, false⟩),
    (⟨0, 0⟩, .rename ⟨0, 0⟩ ['/', 'a'] ⟨0, 0⟩ ['/', 'b'] .full none),
    (⟨0, 0⟩, .mkdir ⟨0, 0⟩ ['/', 'a'] .full none)]

theorem sound_sample : (Dcache.initial sampleNodes 0).Sound := by
  refine ⟨wf_initial sampleNodes 0, ?_, ?_⟩
  · intro i e he
    by_cases hi : i = 0
    · subst hi
      cases mem_singleton.mp he
      decide
    · simp [Dcache.initial, sampleNodes, hi] at he
  · intro d ino hino
    by_cases hd : d = 0
    · subst hd
      cases hino
      decide
    · simp [Dcache.initial, Dcache.getInode, DEntry.getInode, hd] at hino

theorem steady_removal : ∃ sys, (Visits step Spares
      (initial (Dcache.initial sampleNodes 0) ⟨0, 0⟩) sys ∧ ∀ n ino, (n, some ino) ∈ sys.obtained →
          sys.vfs.getInode n.dentry = some ino ∨
            sys.vfs.getInode n.dentry = none ∧ sys.vfs.nodes.Removed ino) ∧
    sys.obtained = [(⟨0, 1⟩, some 1), (⟨0, 0⟩, some 0)] ∧ sys.vfs.getInode 1 = none ∧
      sys.vfs.getInode 3 = some 4 := by
  obtain ⟨sys, hvisits, hend⟩ := exists_visits step Spares
    (initial (Dcache.initial sampleNodes 0) ⟨0, 0⟩) removal
    (fun s => s.obtained = [(⟨0, 1⟩, some 1), (⟨0, 0⟩, some 0)] ∧ s.vfs.getInode 1 = none ∧
      s.vfs.getInode 3 = some 4) (by decide)
  exact ⟨sys, ⟨hvisits, steady_of_visits sound_sample ⟨by decide, by decide⟩ hvisits⟩, hend⟩

/-- The held directory was only renamed. Its node denoted nothing after that, and then a new
directory. -/
theorem not_steady_renamedAway : ∃ sys,
    run step (initial (Dcache.initial sampleNodes 0) ⟨0, 0⟩) renamedAway = .ok sys ∧
      sys.obtained = [(⟨0, 1⟩, some 1), (⟨0, 0⟩, some 0)] ∧ sys.vfs.getInode 1 = some 4 ∧
      sys.vfs.nodes.entry 0 ['b'] = some 1 := by
  exact exists_ok _ _ (by decide)

end Holding

end Petra.Vfs
