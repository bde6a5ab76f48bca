import Petra.Kernel

/-! # Directory entries and mounts

The cache of directory entries is a heap of dentries. A dentry knows its parent, the children
that were looked up so far, and what is mounted on it. Dentries, mounts and inodes are numbered
in the order in which they are made.
-/

namespace Petra.Vfs

open Function List Nat

abbrev Name := List Char

/-! ### What the drivers keep -/

inductive Kind
  | dir
  | symlink (target : List Char)
  | other
  deriving DecidableEq

/-- The inodes of all file systems. -/
structure Nodes where
  kind : Nat → Kind
  /-- The entries of a directory. -/
  entries : Nat → List (Name × Nat)
  nextIno : Nat

namespace Nodes

def isDir (n : Nodes) (i : Nat) : Bool := n.kind i = .dir

/-- The inode a name stands for in a directory. -/
def entry (n : Nodes) (i : Nat) (name : Name) : Option Nat :=
  ((n.entries i).find? fun e => e.1 = name).map Prod.snd

/-- `NodeOps::lookup`, without the errors of the device. -/
def lookup (n : Nodes) (i : Nat) (name : Name) : Except Errno Nat :=
  if n.isDir i then
    match n.entry i name with
    | some j => .ok j
    | none => .error .ENOENT
  else .error .ENOTDIR

end Nodes

/-! ### Dentries -/

inductive EntryState
  | present (ino : Nat)
  | notPresent
  | notCached
  deriving DecidableEq

def EntryState.of : Option Nat → EntryState
  | some ino => .present ino
  | none => .notPresent

structure DEntry where
  state : EntryState
  parent : Option Nat
  children : List (Name × Nat)
  /-- What is mounted here, the last one on top. -/
  mounts : List Nat

namespace DEntry

def getInode (d : DEntry) : Option Nat :=
  match d.state with
  | .present ino => some ino
  | _ => none

def lookupChild (d : DEntry) (name : Name) : Option Nat :=
  (d.children.find? fun e => e.1 = name).map Prod.snd

theorem mem_of_lookupChild {d : DEntry} {name : Name} {c : Nat} (h : d.lookupChild name = some c) :
    (name, c) ∈ d.children := by
  obtain ⟨e, he, rfl⟩ := Option.map_eq_some_iff.mp h
  have hname : e.1 = name := by simpa using find?_some he
  subst hname
  exact mem_of_find?_eq_some he

/-- In a table without duplicates, every entry is the one that is found. -/
theorem lookupChild_of_mem {d : DEntry} {name : Name} {c : Nat}
    (hnames : (d.children.map Prod.fst).Nodup) (h : (name, c) ∈ d.children) :
    d.lookupChild name = some c := by
  unfold lookupChild
  generalize d.children = l at hnames h
  induction l with
  | nil => cases h
  | cons e l ih =>
    rw [map_cons, nodup_cons] at hnames
    rcases mem_cons.mp h with heq | hmem
    · subst heq
      simp
    · have hne : e.1 ≠ name := by
        intro heq
        exact hnames.1 (heq ▸ mem_map.mpr ⟨_, hmem, rfl⟩)
      rw [find?_cons_of_neg (by simpa using hne)]
      exact ih hnames.2 hmem

end DEntry

/-- A dentry together with the mount it belongs to. -/
structure PathNode where
  mount : Nat
  dentry : Nat
  deriving DecidableEq

structure Mount where
  mountPoint : Option PathNode
  root : Nat

structure Dcache where
  nodes : Nodes
  dentry : Nat → DEntry
  nextDentry : Nat
  mount : Nat → Mount
  nextMount : Nat
  /-- Whether a dentry is still referenced, so that `Weak::upgrade` finds it. No operation lowers
  it: a dentry dropped by `clear_children` or from a full table counts as held. -/
  alive : Nat → Bool

namespace Dcache

variable {v v' : Dcache} {m d : Nat}

def getInode (v : Dcache) (d : Nat) : Option Nat := (v.dentry d).getInode

def lookupChild (v : Dcache) (d : Nat) (name : Name) : Option Nat := (v.dentry d).lookupChild name

/-- The parent of a dentry, if it is still there. -/
def parent (v : Dcache) (d : Nat) : Option Nat := (v.dentry d).parent.filter v.alive

def modify (v : Dcache) (d : Nat) (f : DEntry → DEntry) : Dcache :=
  { v with dentry := update v.dentry d (f (v.dentry d)) }

/-- `add_child`: a full table is cleared of negative entries first. -/
def addChild (v : Dcache) (d : Nat) (name : Name) (c : Nat) : Dcache :=
  let old := (v.dentry d).children
  let kept := if 8192 ≤ old.length then
      old.filter fun e => (v.dentry e.2).state ≠ .notPresent
    else old
  v.modify d fun e => { e with children := (name, c) :: kept.filter fun e => e.1 ≠ name }

/-- A new dentry with the given inode below `d`, not yet in its table. -/
def alloc (v : Dcache) (ino parent : Option Nat) : Dcache :=
  { v with
    dentry := update v.dentry v.nextDentry ⟨.of ino, parent, [], []⟩
    nextDentry := v.nextDentry + 1
    alive := update v.alive v.nextDentry true }

/-- A new dentry with the given inode among the children of `d`. -/
def newChild (v : Dcache) (d : Nat) (name : Name) (ino : Option Nat) : Dcache :=
  (v.alloc ino (some d)).addChild d name v.nextDentry

def setInode (v : Dcache) (d : Nat) (ino : Option Nat) : Dcache :=
  v.modify d fun e => { e with state := .of ino }

def clearChildren (v : Dcache) (d : Nat) : Dcache := v.modify d fun e => { e with children := [] }

/-! ### Well-formed heaps -/

def IsRoot (v : Dcache) (d : Nat) : Prop := ∃ m, m < v.nextMount ∧ (v.mount m).root = d

/-- The dentry belongs to the tree below the root of the mount. -/
inductive Paired (v : Dcache) (m : Nat) : Nat → Prop
  | root (hm : m < v.nextMount) : Paired v m (v.mount m).root
  | child {d c : Nat} (above : Paired v m d) (hparent : (v.dentry c).parent = some d)
      (hc : c < v.nextDentry) (hroot : ¬ v.IsRoot c) : Paired v m c

/-- Parents and mount points are older than what is below them. -/
structure Wf (v : Dcache) : Prop where
  child : ∀ d name c, (name, c) ∈ (v.dentry d).children →
    c < v.nextDentry ∧ (v.dentry c).parent = some d ∧ ¬ v.IsRoot c
  parent : ∀ c p, (v.dentry c).parent = some p → p < c
  root : ∀ m, m < v.nextMount → (v.mount m).root < v.nextDentry
  rootInj : ∀ m m', m < v.nextMount → m' < v.nextMount →
    (v.mount m).root = (v.mount m').root → m = m'
  mounted : ∀ d m, m ∈ (v.dentry d).mounts → m < v.nextMount ∧ d < (v.mount m).root ∧
    ∃ m', (v.mount m).mountPoint = some ⟨m', d⟩ ∧ v.Paired m' d
  point : ∀ m p, m < v.nextMount → (v.mount m).mountPoint = some p →
    p.mount < v.nextMount ∧ p.dentry < v.nextDentry
  fresh : ∀ d, v.nextDentry ≤ d → (v.dentry d).children = [] ∧ (v.dentry d).mounts = []
  names : ∀ d, ((v.dentry d).children.map Prod.fst).Nodup
  single : ∀ d name name' c, (name, c) ∈ (v.dentry d).children →
    (name', c) ∈ (v.dentry d).children → name = name'

theorem Paired.lt (hd : v.Paired m d) (h : v.Wf) : d < v.nextDentry := by
  cases hd with
  | root hm => exact h.root _ hm
  | child _ _ hc _ => exact hc

theorem Paired.lt_mount (hd : v.Paired m d) : m < v.nextMount := by
  induction hd with
  | root hm => exact hm
  | child _ _ _ _ ih => exact ih

/-- A dentry belongs to one mount. -/
theorem Paired.unique {m m' d : Nat} (hd : v.Paired m d) (hd' : v.Paired m' d) (h : v.Wf) :
    m = m' := by
  induction hd with
  | root hm =>
    generalize hr : (v.mount m).root = r at hd'
    cases hd' with
    | root hm' => exact h.rootInj m m' hm hm' hr
    | child _ _ _ hroot => exact absurd ⟨m, hm, hr⟩ hroot
  | child above hparent hc hroot ih =>
    cases hd' with
    | root hm' => exact absurd ⟨m', hm', rfl⟩ hroot
    | child above' hparent' _ _ =>
      rw [hparent] at hparent'
      cases hparent'
      exact ih above'

/-- The root of a mount is above the dentries that belong to it. -/
theorem Paired.root_le (hd : v.Paired m d) (h : v.Wf) : (v.mount m).root ≤ d := by
  induction hd with
  | root => exact le_rfl
  | child _ hparent _ _ ih => exact ih.trans (le_of_lt (h.parent _ _ hparent))

/-! ### Filling the cache -/

/-- New dentries and other tables of children, and nothing else. -/
structure Extends (v v' : Dcache) : Prop where
  nodes : v'.nodes = v.nodes
  mount : v'.mount = v.mount
  nextMount : v'.nextMount = v.nextMount
  next : v.nextDentry ≤ v'.nextDentry
  state : ∀ d, d < v.nextDentry → (v'.dentry d).state = (v.dentry d).state
  parent : ∀ d, d < v.nextDentry → (v'.dentry d).parent = (v.dentry d).parent
  mounts : ∀ d, (v'.dentry d).mounts = (v.dentry d).mounts
  alive : ∀ d, d < v.nextDentry → v'.alive d = v.alive d

theorem Extends.refl (v : Dcache) : v.Extends v :=
  ⟨rfl, rfl, rfl, le_rfl, fun _ _ => rfl, fun _ _ => rfl, fun _ => rfl, fun _ _ => rfl⟩

theorem Extends.trans {v'' : Dcache} (h : v.Extends v') (h' : v'.Extends v'') : v.Extends v'' where
  nodes := h'.nodes.trans h.nodes
  mount := h'.mount.trans h.mount
  nextMount := h'.nextMount.trans h.nextMount
  next := h.next.trans h'.next
  state d hd := (h'.state d (hd.trans_le h.next)).trans (h.state d hd)
  parent d hd := (h'.parent d (hd.trans_le h.next)).trans (h.parent d hd)
  mounts d := (h'.mounts d).trans (h.mounts d)
  alive d hd := (h'.alive d (hd.trans_le h.next)).trans (h.alive d hd)

theorem Extends.isRoot (h : v.Extends v') : v'.IsRoot d ↔ v.IsRoot d := by
  simp only [IsRoot, h.mount, h.nextMount]

theorem Extends.paired (h : v.Extends v') (hd : v.Paired m d) : v'.Paired m d := by
  induction hd with
  | root hm =>
    rw [← h.mount]
    exact .root (h.nextMount ▸ hm)
  | child _ hparent hc hroot ih =>
    exact .child ih ((h.parent _ hc).trans hparent) (hc.trans_le h.next)
      (fun hr => hroot (h.isRoot.mp hr))

theorem Extends.getInode (h : v.Extends v') (hd : d < v.nextDentry) :
    v'.getInode d = v.getInode d := by
  simp only [Dcache.getInode, DEntry.getInode, h.state d hd]

section NewChild

variable {d : Nat} {name : Name} {ino : Option Nat}

theorem newChild_dentry_of_ne {d' : Nat} (hne : d' ≠ d) (hnew : d' ≠ v.nextDentry) :
    (v.newChild d name ino).dentry d' = v.dentry d' := by
  simp only [newChild, addChild, modify, alloc, update_of_ne hne, update_of_ne hnew]

variable (hd : d < v.nextDentry) {d' c : Nat} {name' : Name}

include hd

/-- The entries that stay when a table gets a new one. -/
theorem mem_children_newChild {e : Name × Nat}
    (he : e ∈ ((v.newChild d name ino).dentry d).children) :
    e = (name, v.nextDentry) ∨ e ∈ (v.dentry d).children := by
  have hne : d ≠ v.nextDentry := hd.ne
  simp only [newChild, addChild, modify, update_self, alloc, update_of_ne hne, mem_cons] at he
  rcases he with heq | hold
  · exact .inl heq
  · right
    have hkept := (mem_filter.mp hold).1
    split_ifs at hkept
    · exact (mem_filter.mp hkept).1
    · exact hkept

theorem mem_newChild_self : (name, v.nextDentry) ∈ ((v.newChild d name ino).dentry d).children := by
  have hne : d ≠ v.nextDentry := hd.ne
  simp only [newChild, addChild, modify, update_self, alloc, mem_cons, true_or]

theorem newChild_dentry_new :
    (v.newChild d name ino).dentry v.nextDentry = ⟨.of ino, some d, [], []⟩ := by
  have hne : v.nextDentry ≠ d := hd.ne.symm
  simp only [newChild, addChild, modify, alloc, update_of_ne hne, update_self]

theorem newChild_dentry_self :
    ∃ children, (v.newChild d name ino).dentry d = { v.dentry d with children := children } := by
  have hne : d ≠ v.nextDentry := hd.ne
  simp only [newChild, addChild, modify, alloc, update_self, update_of_ne hne]
  exact ⟨_, rfl⟩

/-- Only the new entry is new. -/
theorem children_newChild (hmem : (name', c) ∈ ((v.newChild d name ino).dentry d').children) :
    (d' = d ∧ name' = name ∧ c = v.nextDentry) ∨ (name', c) ∈ (v.dentry d').children := by
  by_cases hself : d' = d
  · subst hself
    rcases mem_children_newChild hd hmem with heq | hold
    · cases heq
      exact .inl ⟨rfl, rfl, rfl⟩
    · exact .inr hold
  · by_cases hnew : d' = v.nextDentry
    · subst hnew
      rw [newChild_dentry_new hd] at hmem
      cases hmem
    · rw [newChild_dentry_of_ne hself hnew] at hmem
      exact .inr hmem

theorem getInode_newChild (d' : Nat) :
    (v.newChild d name ino).getInode d' = if d' = v.nextDentry then ino else v.getInode d' := by
  unfold getInode
  by_cases hnew : d' = v.nextDentry
  · subst hnew
    rw [newChild_dentry_new hd, if_pos rfl]
    cases ino <;> rfl
  rw [if_neg hnew]
  by_cases hself : d' = d
  · subst hself
    obtain ⟨children, heq⟩ := @newChild_dentry_self v d' name ino hd
    rw [heq]
    rfl
  · rw [newChild_dentry_of_ne hself hnew]

/-- An entry with an inode is not pruned. -/
theorem mem_newChild_of_present (h : v.Wf)
    (hmem : (name', c) ∈ (v.dentry d').children) (hc : (v.getInode c).isSome = true)
    (hname : d' = d → name' ≠ name) :
    (name', c) ∈ ((v.newChild d name ino).dentry d').children := by
  have hlt : c ≠ v.nextDentry := (h.child _ _ _ hmem).1.ne
  have hstate : (v.dentry c).state ≠ .notPresent := by
    intro hstate
    simp [getInode, DEntry.getInode, hstate] at hc
  by_cases hself : d' = d
  · subst hself
    have hne : d' ≠ v.nextDentry := hd.ne
    simp only [newChild, addChild, modify, update_self, alloc, update_of_ne hne]
    refine .tail _ (mem_filter.mpr ⟨?_, by simpa using hname rfl⟩)
    split_ifs
    · refine mem_filter.mpr ⟨hmem, ?_⟩
      simpa [update_of_ne hlt] using hstate
    · exact hmem
  · have hnew : d' ≠ v.nextDentry := by
      intro heq
      rw [heq, (h.fresh _ le_rfl).1] at hmem
      cases hmem
    rwa [newChild_dentry_of_ne hself hnew]

theorem names_newChild (hnames : ((v.dentry d).children.map Prod.fst).Nodup) :
    (((v.newChild d name ino).dentry d).children.map Prod.fst).Nodup := by
  have hne : d ≠ v.nextDentry := hd.ne
  have hkept : ∀ l : List (Name × Nat), (l.map Prod.fst).Nodup →
      (((name, v.nextDentry) :: l.filter fun e => e.1 ≠ name).map Prod.fst).Nodup := by
    intro l hl
    rw [map_cons, nodup_cons]
    refine ⟨?_, hl.sublist ((filter_sublist).map _)⟩
    intro hmem
    obtain ⟨e, he, heq⟩ := mem_map.mp hmem
    simpa [heq] using (mem_filter.mp he).2
  simp only [newChild, addChild, modify, update_self, alloc, update_of_ne hne]
  apply hkept
  split_ifs
  · exact hnames.sublist ((filter_sublist).map _)
  · exact hnames

theorem extends_newChild (h : v.Wf) : v.Extends (v.newChild d name ino) := by
  have hsame : ∀ d' < v.nextDentry,
      ∃ children, (v.newChild d name ino).dentry d' = { v.dentry d' with children := children } := by
    intro d' hd'
    by_cases heq : d' = d
    · subst heq
      exact newChild_dentry_self hd
    · exact ⟨_, newChild_dentry_of_ne heq hd'.ne⟩
  refine ⟨rfl, rfl, rfl, le_succ _, ?_, ?_, ?_, ?_⟩
  · intro d' hd'
    obtain ⟨children, heq⟩ := hsame d' hd'
    rw [heq]
  · intro d' hd'
    obtain ⟨children, heq⟩ := hsame d' hd'
    rw [heq]
  · intro d'
    by_cases hold : d' < v.nextDentry
    · obtain ⟨children, heq⟩ := hsame d' hold
      rw [heq]
    · by_cases hnew : d' = v.nextDentry
      · subst hnew
        rw [newChild_dentry_new hd, (h.fresh _ le_rfl).2]
      · rw [newChild_dentry_of_ne (by omega) hnew]
  · intro d' hd'
    exact update_of_ne hd'.ne _ _

theorem Wf.newChild (h : v.Wf) : (v.newChild d name ino).Wf := by
  have hext := @extends_newChild v d name ino hd h
  have hnotRoot : ¬ (v.newChild d name ino).IsRoot v.nextDentry := by
    intro hroot
    obtain ⟨m, hm, heq⟩ := hext.isRoot.mp hroot
    exact absurd (h.root m hm) (by omega)
  have hold : ∀ c p, c < v.nextDentry → (v.dentry c).parent = some p → ¬ v.IsRoot c →
      c < (v.newChild d name ino).nextDentry ∧ ((v.newChild d name ino).dentry c).parent = some p ∧
        ¬ (v.newChild d name ino).IsRoot c := by
    intro c p hc hparent hroot
    exact ⟨hc.trans_le hext.next, (hext.parent c hc).trans hparent,
      fun hr => hroot (hext.isRoot.mp hr)⟩
  refine ⟨?_, ?_, ?_, ?_, ?_, ?_, ?_, ?_, ?_⟩
  · intro d' name' c hmem
    rcases children_newChild hd hmem with ⟨rfl, -, rfl⟩ | hmem'
    · exact ⟨lt_succ_self _, by rw [newChild_dentry_new hd], hnotRoot⟩
    · obtain ⟨hc, hparent, hroot⟩ := h.child _ _ _ hmem'
      exact hold c _ hc hparent hroot
  · intro c p hparent
    by_cases hnew : c = v.nextDentry
    · subst hnew
      rw [newChild_dentry_new hd] at hparent
      cases hparent
      exact hd
    by_cases hself : c = d
    · rw [hself] at hparent ⊢
      rw [hext.parent d hd] at hparent
      exact h.parent d p hparent
    · rw [newChild_dentry_of_ne hself hnew] at hparent
      exact h.parent c p hparent
  · intro m hm
    exact (h.root m hm).trans_le hext.next
  · exact h.rootInj
  · intro d' m hm
    rw [hext.mounts] at hm
    obtain ⟨hlt, hbelow, m', hpoint, hpaired⟩ := h.mounted d' m hm
    exact ⟨hlt, hbelow, m', hpoint, hext.paired hpaired⟩
  · intro m p hm hp
    obtain ⟨hmount, hdentry⟩ := h.point m p hm hp
    exact ⟨hmount, hdentry.trans_le hext.next⟩
  · intro d' hd'
    have hlarge : v.nextDentry + 1 ≤ d' := hd'
    rw [newChild_dentry_of_ne (by omega) (by omega)]
    exact h.fresh d' (by omega)
  · intro d'
    by_cases hself : d' = d
    · subst hself
      exact names_newChild hd (h.names d')
    by_cases hnew : d' = v.nextDentry
    · subst hnew
      rw [newChild_dentry_new hd]
      exact nodup_nil
    · rw [newChild_dentry_of_ne hself hnew]
      exact h.names d'
  · intro d' name₁ name₂ c h₁ h₂
    rcases children_newChild hd h₁ with ⟨-, rfl, rfl⟩ | hold₁
    · rcases children_newChild hd h₂ with ⟨-, rfl, -⟩ | hold₂
      · rfl
      · exact absurd (h.child _ _ _ hold₂).1 (lt_irrefl _)
    · rcases children_newChild hd h₂ with ⟨-, rfl, rfl⟩ | hold₂
      · exact absurd (h.child _ _ _ hold₁).1 (lt_irrefl _)
      · exact h.single d' name₁ name₂ c hold₁ hold₂

end NewChild

end Dcache

end Petra.Vfs
