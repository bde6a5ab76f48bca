import Petra.Base.Run
import Petra.Vfs.CoherentMounts

/-! # Cached and uncached lookups

Over every sequence of operations from an empty cache, a lookup ends where a walk without the
cache ends. Operations have to start from nodes that can be reached, a file system is mounted
once, and what is renamed is neither a mount point nor above one.
-/

namespace Petra.Vfs

open Base List

/-- Every directory has at most one name, and the root has none. -/
structure Nodes.Forest (n : Nodes) (root : Nat) : Prop where
  wf : n.Wf
  bound : root < n.nextIno
  dir : n.isDir root = true
  top : ∀ dir name, n.entry dir name ≠ some root
  unique : ∀ dir name dir' name' ino, n.isDir ino = true → n.entry dir name = some ino →
    n.entry dir' name' = some ino → dir = dir' ∧ name = name'

/-- A forest whose entries are listed. -/
theorem Nodes.Forest.of_list {n : Nodes} {root : Nat} {l : List (Nat × Name × Nat)}
    (hmem : ∀ i, ∀ e ∈ n.entries i, (i, e) ∈ l) (hbound : root < n.nextIno)
    (hdir : n.isDir root = true) (hl : ∀ x ∈ l, x.1 < n.nextIno ∧ x.2.2 < n.nextIno ∧ x.2.2 ≠ root)
    (hunique : ∀ x ∈ l, ∀ y ∈ l, x.2.2 = y.2.2 → x = y) : n.Forest root where
  wf i e he := ⟨(hl _ (hmem i e he)).1, (hl _ (hmem i e he)).2.1⟩
  bound := hbound
  dir := hdir
  top dir name hentry := (hl _ (hmem _ _ (mem_of_entry hentry))).2.2 rfl
  unique dir name dir' name' ino _ h h' := by
    have heq := hunique _ (hmem _ _ (mem_of_entry h)) _ (hmem _ _ (mem_of_entry h')) rfl
    simp only [Prod.mk.injEq] at heq
    exact ⟨heq.1, heq.2.1⟩

namespace Dcache

variable {v v' : Dcache} {n : PathNode}

theorem coherent_initial {nodes : Nodes} {ino : Nat} (h : nodes.Forest ino) :
    (initial nodes ino).Coherent := by
  have hzero : ∀ m < (initial nodes ino).nextMount, m = 0 := fun m hm => Nat.lt_one_iff.mp hm
  have hchildren : ∀ d, ((initial nodes ino).dentry d).children = [] := by
    intro d
    simp only [initial]
    split_ifs <;> rfl
  refine ⟨⟨wf_initial nodes ino, h.wf, ?_⟩, fun _ => rfl, ?_, ?_, h.unique, ?_, ?_, ?_, ?_, ?_⟩
  · intro d i hi
    by_cases hd : d = 0
    · subst hd
      cases hi
      exact h.bound
    · simp [initial, getInode, DEntry.getInode, hd] at hi
  · exact fun m _ => ⟨ino, rfl, h.dir, h.top⟩
  · intro m m' hm hm' _
    rw [hzero m hm, hzero m' hm']
  · intro n _ name c hmem
    rw [hchildren] at hmem
    cases hmem
  · exact fun d hne => absurd (hchildren d) hne
  · simp [initial]
  · intro d
    have hmounts : ((initial nodes ino).dentry d).mounts = [] := by
      simp only [initial]
      split_ifs <;> rfl
    rw [hmounts]
    exact (filter_eq_nil_iff.mpr fun m _ => by simp [pointsAt, initial]).symm
  · exact fun m p _ hpoint _ => by cases hpoint

/-! ### Nodes that can be reached -/

/-- Whether a node can be reached, going up from it. What is above a dentry is older. -/
def climbs (v : Dcache) : Nat → PathNode → Bool
  | 0, _ => false
  | fuel + 1, n =>
    n.mount < v.nextMount && (v.getInode n.dentry).isSome &&
      if n.dentry = (v.mount n.mount).root then
        match (v.mount n.mount).mountPoint with
        | none => (v.dentry n.dentry).parent.isNone
        | some p => v.climbs fuel p
      else
        match (v.dentry n.dentry).parent with
        | none => false
        | some d => ((v.dentry d).children.any fun e => e.2 = n.dentry) &&
            v.climbs fuel ⟨n.mount, d⟩

def reachable (v : Dcache) (n : PathNode) : Bool := v.climbs (n.dentry + 1) n

theorem attached_of_climbs {fuel : Nat} (h : v.climbs fuel n = true) : v.Attached n := by
  induction fuel generalizing n with
  | zero => cases h
  | succ fuel ih =>
    obtain ⟨m, d⟩ := n
    unfold climbs at h
    simp only [Bool.and_eq_true, decide_eq_true_eq] at h
    obtain ⟨⟨hm, hsome⟩, hup⟩ := h
    obtain ⟨ino, hino⟩ := Option.isSome_iff_exists.mp hsome
    split_ifs at hup with hroot
    · subst hroot
      split at hup
      next hpoint =>
        exact ⟨_, .top hm hpoint (Option.isNone_iff_eq_none.mp hup) hino⟩
      next p hpoint =>
        obtain ⟨place, hp⟩ := ih hup
        exact ⟨_, .mounted hm hpoint hp hino⟩
    · cases hparent : (v.dentry d).parent with
      | none =>
        rw [hparent] at hup
        cases hup
      | some d' =>
        rw [hparent] at hup
        obtain ⟨hany, hclimbs⟩ := Bool.and_eq_true_iff.mp hup
        obtain ⟨e, he, heq⟩ := any_eq_true.mp hany
        obtain ⟨place, hd'⟩ := ih hclimbs
        have hmem : (e.1, d) ∈ (v.dentry d').children := by
          rw [← of_decide_eq_true heq]
          exact he
        exact ⟨_, .child hd' hmem hino⟩

theorem attached_of_reachable (h : v.reachable n = true) : v.Attached n :=
  attached_of_climbs h

/-! ### Mounting by path -/

def mountPath (root : PathNode) (path : List Char) (ino : Nat) : Op Unit := do
  let target ← lookupAt root root path ⟨false, true⟩
  let v ← Call.get
  Call.set (v.mountAt target (some ino))

def bindPath (root : PathNode) (source path : List Char) : Op Unit := do
  let target ← lookupAt root root path ⟨false, true⟩
  let node ← lookupAt root root source ⟨false, true⟩
  let v ← Call.get
  Call.set (v.mountAt target (v.getInode node.dentry))

def umountPath (root : PathNode) (path : List Char) : Op Unit := do
  let target ← lookupAt root root path ⟨false, true⟩
  fun v => .ok (v.umount target)

end Dcache

/-- The operations on the name space. `root` is the root directory of the caller. -/
inductive VfsOp where
  | lookup (root start : PathNode) (path : List Char) (flags : LookupFlags)
  | create (root start : PathNode) (path : List Char) (access : Access) (fault : Option Errno)
  | mkdir (root start : PathNode) (path : List Char) (access : Access) (fault : Option Errno)
  | mknod (type : NodeType) (superuser : Bool) (root start : PathNode) (path : List Char)
      (access : Access) (fault : Option Errno)
  | symlink (target : List Char) (root start : PathNode) (path : List Char) (access : Access)
      (fault : Option Errno)
  | link (root oldStart : PathNode) (old : List Char) (newStart : PathNode) (new : List Char)
      (follow : Bool) (access : Access) (fault : Option Errno)
  | unlink (root start : PathNode) (path : List Char) (access : Access) (fault : Option Errno)
  | rmdir (root start : PathNode) (path : List Char) (access : Access) (fault : Option Errno)
  | rename (driver : Driver) (root oldStart : PathNode) (old : List Char) (newStart : PathNode)
      (new : List Char) (access : Access) (fault : Option Errno)
  | mount (root : PathNode) (path : List Char) (ino : Nat)
  | bind (root : PathNode) (source path : List Char)
  | umount (root : PathNode) (path : List Char)

namespace VfsOp

open Dcache

/-- The nodes an operation starts from. -/
def starts : VfsOp → List PathNode
  | .lookup root start _ _ | .create root start _ _ _ | .mkdir root start _ _ _
  | .mknod _ _ root start _ _ _ | .symlink _ root start _ _ _ | .unlink root start _ _ _
  | .rmdir root start _ _ _ => [root, start]
  | .link root oldStart _ newStart _ _ _ _ | .rename _ root oldStart _ newStart _ _ _ =>
    [root, oldStart, newStart]
  | .mount root _ _ | .bind root _ _ | .umount root _ => [root]

/-- The heap after a system call, whatever it returned. -/
def after {α : Type} (v : Dcache) (m : Op α) : Except Panic Dcache := (m v).map Prod.snd

def step (v : Dcache) : VfsOp → Except Panic Dcache
  | .lookup root start path flags => after v (lookupAt root start path flags)
  | .create root start path access fault => after v (createAt root start path access fault)
  | .mkdir root start path access fault => after v (mkdirAt root start path access fault)
  | .mknod type superuser root start path access fault =>
    after v (mknodAt type superuser root start path access fault)
  | .symlink target root start path access fault =>
    after v (symlinkAt target root start path access fault)
  | .link root oldStart old newStart new follow access fault =>
    after v (linkAt root oldStart old newStart new follow access fault)
  | .unlink root start path access fault => after v (unlinkAt root start path access fault)
  | .rmdir root start path access fault => after v (rmdirAt root start path access fault)
  | .rename driver root oldStart old newStart new access fault =>
    after v (renameAt driver root oldStart old newStart new access fault)
  | .mount root path ino => after v (mountPath root path ino)
  | .bind root source path => after v (bindPath root source path)
  | .umount root path => after v (umountPath root path)

/-! ### Which operations keep the cache coherent -/

/-- The root directory of a file system that is not mounted and not in a directory. -/
def FreshRoot (v : Dcache) (ino : Nat) : Prop :=
  ino < v.nodes.nextIno ∧ v.nodes.isDir ino = true ∧
    (∀ i < v.nodes.nextIno, ∀ e ∈ v.nodes.entries i, e.2 ≠ ino) ∧
    ∀ m < v.nextMount, v.getInode (v.mount m).root ≠ some ino

/-- Whether `checkTarget` has found that there is nothing to do. -/
def nothingToDo : Except Panic (Except Errno Bool × Dcache) → Bool
  | .ok (.ok done, _) => done
  | _ => false

/-- If `new` is a name of the same inode, the driver moves it, or it has been found that there is
nothing to do. -/
def SettlesLinks (v : Dcache) (driver : Driver) (root newStart : PathNode) (new : List Char)
    (access : Access) (dst : PathNode × Nat × Name) (node : PathNode × Nat) : Prop :=
  driver.keepsLinks = true → v.nodes.entry dst.2.1 dst.2.2 = some node.2 →
    nothingToDo (checkTarget driver root newStart new node dst.2.1 access v) = true

/-- A rename whose `old` names the moved entry itself, with nothing mounted at or below the two
names, and that is not a rename of one link onto another which the driver ignores. -/
def PlainRename (v : Dcache) (driver : Driver) (root oldStart : PathNode) (old : List Char)
    (newStart : PathNode) (new : List Char) (access : Access) : Prop :=
  AtFound v root oldStart old access fun v₁ src =>
    AtFound v₁ root newStart new access fun v₂ dst =>
      match targetAt root oldStart old v₂ with
      | .ok (.ok node, v₃) => v₃.Plain src dst node ∧
          SettlesLinks v₃ driver root newStart new access dst node
      | _ => True

/-- A mount of a new file system on a directory that is not the root of a mounted one. -/
def PlainMount (v : Dcache) (root : PathNode) (path : List Char) (ino : Nat) : Prop :=
  match v.lookup root root path ⟨false, true⟩ with
  | (.ok target, v₁) => FreshRoot v₁ ino ∧
      (target.dentry = (v₁.mount target.mount).root → (v₁.mount target.mount).mountPoint = none)
  | _ => True

def Orderly (v : Dcache) (op : VfsOp) : Prop :=
  (∀ n ∈ op.starts, v.reachable n = true) ∧
    match op with
    | .rename driver root oldStart old newStart new access _ =>
      PlainRename v driver root oldStart old newStart new access
    | .mount root path ino => PlainMount v root path ino
    | .bind _ _ _ => False
    | _ => True

instance (v : Dcache) (ino : Nat) : Decidable (FreshRoot v ino) := by
  unfold FreshRoot
  infer_instance

instance (v : Dcache) (c : Nat) : Decidable (v.Unmounted c) := by
  unfold Unmounted
  infer_instance

instance (v : Dcache) (src dst : PathNode × Nat × Name) (node : PathNode × Nat) :
    Decidable (v.Plain src dst node) := by
  unfold Plain
  infer_instance

instance (v : Dcache) (driver : Driver) (root newStart : PathNode) (new : List Char)
    (access : Access) (dst : PathNode × Nat × Name) (node : PathNode × Nat) :
    Decidable (SettlesLinks v driver root newStart new access dst node) := by
  unfold SettlesLinks
  infer_instance

/-- A test on the node that a path leads to. -/
instance decidableTarget (out : Except Panic (Except Errno (PathNode × Nat) × Dcache))
    (P : PathNode × Nat → Dcache → Prop) [∀ n w, Decidable (P n w)] : Decidable (match out with
      | .ok (.ok n, w) => P n w
      | _ => True) :=
  match out with
  | .ok (.ok n, w) => inferInstanceAs (Decidable (P n w))
  | .ok (.error _, _) | .error _ => .isTrue trivial

instance (v : Dcache) (driver : Driver) (root oldStart : PathNode) (old : List Char)
    (newStart : PathNode) (new : List Char) (access : Access) :
    Decidable (PlainRename v driver root oldStart old newStart new access) := by
  unfold PlainRename
  infer_instance

instance (v : Dcache) (root : PathNode) (path : List Char) (ino : Nat) :
    Decidable (PlainMount v root path ino) := by
  unfold PlainMount
  split
  · infer_instance
  · infer_instance

instance (v : Dcache) (op : VfsOp) : Decidable (Orderly v op) := by
  unfold Orderly
  induction op using VfsOp.casesOn <;> infer_instance

/-! ### Every operation -/

variable {v v' : Dcache} {α : Type} {root : PathNode} {path : List Char}

theorem coherent_after {m : Op α} {R : Dcache → Prop} (hv : v.Coherent)
    (hworks : Works v (· = v) m R) (hR : ∀ w, R w → w.Coherent)
    (h : after v m = .ok v') : v'.Coherent := by
  have hend := hworks v ⟨.refl hv.sound.wf, rfl⟩
  obtain ⟨out, hrun, rfl⟩ := exists_of_observed h
  rw [hrun] at hend
  rcases hend with hgrown | hdone
  · exact hv.grown hgrown
  · exact hR _ hdone

/-- A call that looks up a directory and then does something with it. -/
theorem after_lookup {flags : LookupFlags}
    {f : PathNode → Op α} (h : after v (lookupAt root root path flags >>= f) = .ok v') :
    (∃ e, v.lookup root root path flags = (.error e, v')) ∨
      ∃ n v₁, v.lookup root root path flags = (.ok n, v₁) ∧ after v₁ (f n) = .ok v' := by
  change (Call.bind (lookupAt root root path flags) f v).map Prod.snd = _ at h
  rw [Call.bind, lookupAt] at h
  generalize v.lookup root root path flags = w at h
  obtain ⟨r, v₁⟩ := w
  cases r with
  | error e =>
    cases h
    exact .inl ⟨e, rfl⟩
  | ok n => exact .inr ⟨n, v₁, rfl, h⟩

section

variable {root : PathNode} (hv : v.Coherent) (hroot : v.Attached root)

include hv hroot

theorem coherent_mount {ino : Nat} (hplain : PlainMount v root path ino)
    (h : after v (mountPath root path ino) = .ok v') : v'.Coherent := by
  have hwf := hv.sound.wf
  obtain ⟨hgrown, -⟩ := grown_lookup hwf (hroot.valid hwf) (hroot.valid hwf) path ⟨false, true⟩
  rcases after_lookup h with ⟨e, hlookup⟩ | ⟨target, v₁, hlookup, hend⟩
  · rw [hlookup] at hgrown
    exact hv.grown hgrown
  cases hend
  have hattached := @attached_lookup v root root hv hroot hroot path ⟨false, true⟩ target
    (by rw [hlookup])
  obtain ⟨-, -, i, hi, hidir⟩ := lookup_directory hlookup
  rw [hlookup] at hgrown hattached
  unfold PlainMount at hplain
  rw [hlookup] at hplain
  obtain ⟨⟨hino, hisDir, hentries, hroots⟩, hflat⟩ := hplain
  have h₁ := hv.grown hgrown
  refine h₁.mountAt hattached hi hidir hflat hino hisDir ?_ hroots
  intro dir name hentry
  have hmem := Nodes.mem_of_entry hentry
  exact hentries dir (h₁.sound.nodes _ _ hmem).1 _ hmem rfl

theorem coherent_umount (h : after v (umountPath root path) = .ok v') : v'.Coherent := by
  have hwf := hv.sound.wf
  obtain ⟨hgrown, hvalid⟩ := grown_lookup hwf (hroot.valid hwf) (hroot.valid hwf) path ⟨false, true⟩
  rcases after_lookup h with ⟨e, hlookup⟩ | ⟨target, v₁, hlookup, hend⟩
  · rw [hlookup] at hgrown
    exact hv.grown hgrown
  · cases hend
    rw [hlookup] at hgrown hvalid
    exact (hv.grown hgrown).umount (hvalid target rfl).1

theorem coherent_rename {driver : Driver} {oldStart newStart : PathNode} {old new : List Char}
    {access : Access} (hold : v.Attached oldStart) (hnew : v.Attached newStart)
    (hplain : PlainRename v driver root oldStart old newStart new access)
    (hrenamed : v.Renamed driver root oldStart old newStart new access v') : v'.Coherent := by
  obtain ⟨src, dst, node, v₁, v₂, v₃, w, n, hmoving, hrename, rfl⟩ := hrenamed
  have hnames := hmoving.foundDst.of_at (hmoving.foundSrc.of_at hplain)
  rw [hmoving.target] at hnames
  refine hv.renamed hroot hold hnew hmoving hnames.1 (fun hkeeps hentry => ?_) hrename
  have hdone := hnames.2 hkeeps hentry
  rw [hmoving.proceeds] at hdone
  cases hdone

end

theorem forall_mem_two {P : PathNode → Prop} {a b : PathNode} (h : ∀ n ∈ [a, b], P n) :
    P a ∧ P b := by
  obtain ⟨ha, hrest⟩ := forall_mem_cons.mp h
  exact ⟨ha, forall_mem_singleton.mp hrest⟩

/-- Each operation tells the cache what it changes in the directories and mounts. -/
theorem coherent_step {op : VfsOp} (hv : v.Coherent) (horderly : Orderly v op)
    (h : step v op = .ok v') : v'.Coherent := by
  obtain ⟨hreach, hop⟩ := horderly
  have hwf := hv.sound.wf
  have hstart : ∀ n ∈ op.starts, v.Attached n ∧ v.Valid n := by
    intro n hn
    have hattached := attached_of_reachable (hreach n hn)
    exact ⟨hattached, hattached.valid hwf⟩
  cases op with
  | lookup root start path flags =>
    obtain ⟨hr, hs⟩ := forall_mem_two hstart
    cases h
    exact hv.grown (grown_lookup hwf hr.2 hs.2 path flags).1
  | create root start path access fault =>
    obtain ⟨hr, hs⟩ := forall_mem_two hstart
    exact coherent_after hv (works_createAt hwf hr.2 hs.2) (fun _ => hv.made hr.1 hs.1) h
  | mkdir root start path access fault =>
    obtain ⟨hr, hs⟩ := forall_mem_two hstart
    exact coherent_after hv (works_mkdirAt hwf hr.2 hs.2) (fun _ => hv.made hr.1 hs.1) h
  | mknod type superuser root start path access fault =>
    obtain ⟨hr, hs⟩ := forall_mem_two hstart
    exact coherent_after hv (works_mknodAt hwf hr.2 hs.2) (fun _ => hv.made hr.1 hs.1) h
  | symlink target root start path access fault =>
    obtain ⟨hr, hs⟩ := forall_mem_two hstart
    exact coherent_after hv (works_symlinkAt hwf hr.2 hs.2) (fun _ => hv.made hr.1 hs.1) h
  | link root oldStart old newStart new follow access fault =>
    obtain ⟨hr, hrest⟩ := forall_mem_cons.mp hstart
    obtain ⟨ho, hn⟩ := forall_mem_two hrest
    exact coherent_after hv (works_linkAt hr.2 ho.2 hn.2) (fun _ => hv.linked hr.1 hn.1) h
  | unlink root start path access fault =>
    obtain ⟨hr, hs⟩ := forall_mem_two hstart
    exact coherent_after hv (works_unlinkAt hwf hr.2 hs.2) (fun _ => hv.unlinked hr.1 hs.1) h
  | rmdir root start path access fault =>
    obtain ⟨hr, hs⟩ := forall_mem_two hstart
    exact coherent_after hv (works_rmdirAt hwf hr.2 hs.2) (fun _ => hv.dirRemoved hr.1 hs.1) h
  | rename driver root oldStart old newStart new access fault =>
    obtain ⟨hr, hrest⟩ := forall_mem_cons.mp hstart
    obtain ⟨ho, hn⟩ := forall_mem_two hrest
    exact coherent_after hv (works_renameAt hwf hr.2 ho.2 hn.2)
      (fun _ => coherent_rename hv hr.1 ho.1 hn.1 hop) h
  | mount root path ino =>
    exact coherent_mount hv (hstart root (.head _)).1 hop h
  | bind root source path => exact hop.elim
  | umount root path => exact coherent_umount hv (hstart root (.head _)).1 h

/-- A lookup from nodes that can be reached. -/
def LooksUp (v : Dcache) (op : VfsOp) : Prop :=
  ∃ root start path flags, op = .lookup root start path flags ∧ v.reachable root = true ∧
    v.reachable start = true

theorem grown_of_visits {w w' : Dcache} (hw : w.Wf) (h : Visits step LooksUp w w') :
    w.Grown w' := by
  refine h.invariant (I := w.Grown) (.refl hw) ?_
  rintro s _ s' hs ⟨root, start, path, flags, rfl, hroot, hstart⟩ hstep
  cases hstep
  exact hs.trans (grown_lookup hs.wf ((attached_of_reachable hroot).valid hs.wf)
    ((attached_of_reachable hstart).valid hs.wf) path flags).1

/-- Two directories in the root directory, and the root of another file system. -/
def twoDirs : Nodes where
  kind := fun _ => .dir
  entries := fun i => if i = 0 then [(['s'], 1), (['m'], 2)] else []
  nextIno := 4

theorem forest_twoDirs : twoDirs.Forest 0 := by
  refine .of_list (l := [(0, ['s'], 1), (0, ['m'], 2)]) ?_ (by decide) rfl (by decide) (by decide)
  intro i e he
  by_cases hi : i = 0
  · subst hi
    simpa [twoDirs] using he
  · simp [twoDirs, hi] at he

/-- The root node and its place. -/
def rootNode : PathNode := ⟨0, 0⟩
def rootPlace : Place := ⟨⟨0, none, 0⟩, []⟩

/-- The root node is the root of the first mount, which is on no other. -/
abbrev RootFirst (v : Dcache) : Prop :=
  0 < v.nextMount ∧ (v.mount 0).mountPoint = none ∧ (v.mount 0).root = 0 ∧
    (v.dentry 0).parent = none ∧ v.getInode 0 = some 0

theorem stands_rootNode (h : RootFirst v) : v.Stands rootNode rootPlace := by
  obtain ⟨hm, hpoint, hroot, hparent, hino⟩ := h
  have htop := Stands.top hm hpoint (by rw [hroot]; exact hparent) (by rw [hroot]; exact hino)
  rwa [hroot] at htop

/-- A file system is mounted, a name is looked up in vain and then created, and a directory is
renamed. -/
def mountedFile : List VfsOp :=
  [.mount rootNode ['/', 'm'] 3, .lookup rootNode rootNode ['/', 'm', '/', 'f'] ⟨false, false⟩,
    .create rootNode rootNode ['/', 'm', '/', 'f'] .full none,
    .rename .single rootNode rootNode ['/', 's'] rootNode ['/', 't'] .full none]

/-- A directory is bound to another name, a name is looked up in vain there, and the name is
created in the directory. -/
def boundFile : List VfsOp :=
  [.bind rootNode ['/', 's'] ['/', 'm'],
    .lookup rootNode rootNode ['/', 'm', '/', 'f'] ⟨false, false⟩,
    .create rootNode rootNode ['/', 's', '/', 'f'] .full none]

end VfsOp

end Petra.Vfs
