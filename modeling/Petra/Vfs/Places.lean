import Petra.Vfs.Patching

/-! # Places in the name space

A place is the way to a location from the top: the mounts that were crossed and the names that
were taken, with the inode of each. A node of the cache stands for a place if the tables of
children lead there. The cache is coherent if the tables say what the directories say wherever
they can be reached.
-/

namespace Petra.Vfs

/-- The root of a mount, or a name in the directory before it. -/
structure Frame where
  mount : Nat
  name : Option Name
  ino : Nat
  deriving DecidableEq

structure Place where
  top : Frame
  below : List Frame
  deriving DecidableEq

def Place.push (place : Place) (f : Frame) : Place := ⟨f, place.top :: place.below⟩

theorem Place.push_inj {place place' : Place} {f f' : Frame} :
    place.push f = place'.push f' ↔ place = place' ∧ f = f' := by
  constructor
  · intro h
    obtain ⟨top, below⟩ := place
    obtain ⟨rfl, rfl, rfl⟩ := h
    exact ⟨rfl, rfl⟩
  · intro h
    rw [h.1, h.2]

namespace Dcache

variable {v v' : Dcache} {n n' : PathNode} {place place' : Place} {m : Nat}

/-- The tables of children and mounts lead to the node on this way. -/
inductive Stands (v : Dcache) : PathNode → Place → Prop
  | top {m ino : Nat} (hm : m < v.nextMount) (hpoint : (v.mount m).mountPoint = none)
      (hparent : (v.dentry (v.mount m).root).parent = none)
      (hino : v.getInode (v.mount m).root = some ino) :
      Stands v ⟨m, (v.mount m).root⟩ ⟨⟨m, none, ino⟩, []⟩
  | mounted {m ino : Nat} {p : PathNode} {place : Place} (hm : m < v.nextMount)
      (hpoint : (v.mount m).mountPoint = some p) (under : Stands v p place)
      (hino : v.getInode (v.mount m).root = some ino) :
      Stands v ⟨m, (v.mount m).root⟩ (place.push ⟨m, none, ino⟩)
  | child {n : PathNode} {place : Place} {name : Name} {c ino : Nat} (above : Stands v n place)
      (hmem : (name, c) ∈ (v.dentry n.dentry).children) (hino : v.getInode c = some ino) :
      Stands v ⟨n.mount, c⟩ (place.push ⟨n.mount, some name, ino⟩)

/-- The node can be reached. -/
def Attached (v : Dcache) (n : PathNode) : Prop := ∃ place, v.Stands n place

/-- The mount is recorded for this dentry. -/
def pointsAt (v : Dcache) (d m : Nat) : Bool :=
  ((v.mount m).mountPoint.map PathNode.dentry) = some d

/-- What the directories and the cache have to do with each other. -/
structure Coherent (v : Dcache) : Prop where
  sound : v.Sound
  alive : ∀ d, v.alive d = true
  root : ∀ m, m < v.nextMount → ∃ ino, v.getInode (v.mount m).root = some ino ∧
    v.nodes.isDir ino = true ∧ ∀ dir name, v.nodes.entry dir name ≠ some ino
  apart : ∀ m m', m < v.nextMount → m' < v.nextMount →
    v.getInode (v.mount m).root = v.getInode (v.mount m').root → m = m'
  unique : ∀ dir name dir' name' ino, v.nodes.isDir ino = true →
    v.nodes.entry dir name = some ino → v.nodes.entry dir' name' = some ino →
      dir = dir' ∧ name = name'
  table : ∀ n, v.Attached n → ∀ name c, (name, c) ∈ (v.dentry n.dentry).children →
    v.Matches n.dentry name c
  bare : ∀ d, (v.dentry d).children ≠ [] →
    ∃ i, v.getInode d = some i ∧ v.nodes.isDir i = true
  point : ∀ m p, m < v.nextMount → (v.mount m).mountPoint = some p →
    v.Attached p ∧ (∃ i, v.getInode p.dentry = some i ∧ v.nodes.isDir i = true) ∧
      (v.dentry (v.mount m).root).parent = some p.dentry
  stack : ∀ d, (v.dentry d).mounts = (List.range v.nextMount).filter (v.pointsAt d)
  flat : ∀ m p, m < v.nextMount → (v.mount m).mountPoint = some p →
    p.dentry = (v.mount p.mount).root → (v.mount p.mount).mountPoint = none

/-! ### Nodes and places -/

section

variable (h : v.Stands n place)

include h

theorem Stands.ino : v.getInode n.dentry = some place.top.ino := by
  cases h with
  | top _ _ _ hino | mounted _ _ _ hino | child _ _ hino => exact hino

theorem Stands.mount : place.top.mount = n.mount := by
  cases h <;> rfl

theorem Stands.paired (hv : v.Wf) : v.Paired n.mount n.dentry := by
  induction h with
  | top hm => exact .root hm
  | mounted hm => exact .root hm
  | child _ hmem _ ih =>
    obtain ⟨hc, hparent, hroot⟩ := hv.child _ _ _ hmem
    exact .child ih hparent hc hroot

omit h in
theorem Attached.valid (h : v.Attached n) (hv : v.Wf) : v.Valid n := by
  obtain ⟨place, hstands⟩ := h
  have hpaired := hstands.paired hv
  exact ⟨hpaired.lt_mount, hpaired.lt hv⟩

/-- The place of a child is not that of a root. -/
theorem Stands.name (hv : v.Wf) : place.top.name = none ↔ n.dentry = (v.mount n.mount).root := by
  cases h with
  | top hm hpoint hparent hino
  | mounted hm hpoint hunder hino => exact ⟨fun _ => rfl, fun _ => rfl⟩
  | child above hmem hino =>
    constructor
    · intro hname
      cases hname
    · intro hroot
      have hnot := (hv.child _ _ _ hmem).2.2
      exact absurd ⟨_, (above.paired hv).lt_mount, hroot.symm⟩ hnot

/-- A node stands for one place. -/
theorem Stands.place_unique (hv : v.Wf) (h' : v.Stands n place') : place = place' := by
  induction h generalizing place' with
  | @top m ino hm hpoint hparent hino =>
    have hname := (h'.name hv).mpr rfl
    generalize hn : (⟨m, (v.mount m).root⟩ : PathNode) = n at h'
    cases h' with
    | top hm' hpoint' hparent' hino' =>
      cases hn
      rw [hino] at hino'
      cases hino'
      rfl
    | mounted hm' hpoint' _ _ =>
      cases hn
      rw [hpoint] at hpoint'
      cases hpoint'
    | child _ _ _ => cases hname
  | @mounted m ino p place hm hpoint hunder hino ih =>
    have hname := (h'.name hv).mpr rfl
    generalize hn : (⟨m, (v.mount m).root⟩ : PathNode) = n at h'
    cases h' with
    | top hm' hpoint' hparent' hino' =>
      cases hn
      rw [hpoint] at hpoint'
      cases hpoint'
    | mounted hm' hpoint' hunder' hino' =>
      cases hn
      rw [hpoint] at hpoint'
      cases hpoint'
      rw [hino] at hino'
      cases hino'
      rw [ih hunder']
    | child _ _ _ => cases hname
  | @child a place name c ino above hmem hino ih =>
    have hname := (Stands.child above hmem hino).name hv
    have hroot : c ≠ (v.mount a.mount).root := fun heq => by cases hname.mpr heq
    generalize hn : (⟨a.mount, c⟩ : PathNode) = n at h'
    cases h' with
    | top _ _ _ _ | mounted _ _ _ _ =>
      cases hn
      exact absurd rfl hroot
    | @child a' place' name' c' ino' above' hmem' hino' =>
      obtain ⟨am, ad⟩ := a
      cases hn
      -- A dentry has one parent, and one name in its table.
      have hparent := (hv.child _ _ _ hmem).2.1
      rw [(hv.child _ _ _ hmem').2.1] at hparent
      cases hparent
      rw [ih above', hv.single _ _ _ _ hmem hmem']
      rw [hino] at hino'
      cases hino'
      rfl

/-- A place has one node that stands for it. -/
theorem Stands.node_unique (hv : v.Wf) (h' : v.Stands n' place) : n = n' := by
  induction h generalizing n' with
  | @top m ino hm hpoint hparent hino =>
    generalize hp : (⟨⟨m, none, ino⟩, []⟩ : Place) = place at h'
    cases h' with
    | top _ _ _ _ =>
      cases hp
      rfl
    | mounted _ _ _ _ => cases hp
    | child _ _ _ => cases hp
  | @mounted m ino p place hm hpoint hunder hino ih =>
    generalize hp : place.push ⟨m, none, ino⟩ = place₁ at h'
    cases h' with
    | top _ _ _ _ => cases hp
    | mounted _ _ _ _ =>
      obtain ⟨-, hframe⟩ := Place.push_inj.mp hp
      cases hframe
      rfl
    | child _ _ _ =>
      obtain ⟨-, hframe⟩ := Place.push_inj.mp hp
      cases hframe
  | @child a place name c ino above hmem hino ih =>
    generalize hp : place.push ⟨a.mount, some name, ino⟩ = place₁ at h'
    cases h' with
    | top _ _ _ _ => cases hp
    | mounted _ _ _ _ =>
      obtain ⟨-, hframe⟩ := Place.push_inj.mp hp
      cases hframe
    | @child a' place' name' c' ino' above' hmem' hino' =>
      obtain ⟨hplace, hframe⟩ := Place.push_inj.mp hp
      subst hplace
      have hnode := ih above'
      subst hnode
      obtain ⟨rfl, -⟩ := hframe
      have hchild := DEntry.lookupChild_of_mem (hv.names _) hmem
      rw [DEntry.lookupChild_of_mem (hv.names _) hmem'] at hchild
      cases hchild
      rfl

end

/-- A node is the root of a mount or it is in the table of a node. -/
theorem Attached.cases (h : v.Attached n) :
    (n.mount < v.nextMount ∧ n.dentry = (v.mount n.mount).root) ∨
      ∃ d name, v.Attached ⟨n.mount, d⟩ ∧ (name, n.dentry) ∈ (v.dentry d).children := by
  obtain ⟨place, hstands⟩ := h
  cases hstands with
  | top hm | mounted hm => exact .inl ⟨hm, rfl⟩
  | @child a _ name c _ above hmem _ => exact .inr ⟨a.dentry, name, ⟨_, above⟩, hmem⟩

section

variable {ino : Nat} (h : v.Coherent) (hm : m < v.nextMount)
  (hino : v.getInode (v.mount m).root = some ino)

include h hm hino

theorem Coherent.rootless (dir : Nat) (name : Name) :
    v.nodes.entry dir name ≠ some ino := by
  obtain ⟨ino', hsome, -, hnot⟩ := h.root m hm
  rw [hino] at hsome
  cases hsome
  exact hnot dir name

/-- The root of a mount is cached once. -/
theorem Coherent.root_unique (hn : v.Attached n)
    (hino' : v.getInode n.dentry = some ino) : n = ⟨m, (v.mount m).root⟩ := by
  rcases hn.cases with ⟨hm', hd⟩ | ⟨d, name, habove, hmem⟩
  · have heq : n.mount = m := h.apart n.mount m hm' hm (by rw [← hd, hino', hino])
    rw [heq] at hd
    rw [← hd, ← heq]
  · obtain ⟨i, -, -, hentry⟩ := h.table _ habove name _ hmem
    rw [hino'] at hentry
    exact absurd hentry.symm (h.rootless hm hino i name)

end

/-- A directory is cached once. -/
theorem Coherent.node_unique (h : v.Coherent) {ino : Nat} (hn : v.Attached n) (hn' : v.Attached n')
    (hino : v.getInode n.dentry = some ino) (hino' : v.getInode n'.dentry = some ino)
    (hdir : v.nodes.isDir ino = true) : n = n' := by
  obtain ⟨place, hstands⟩ := hn
  induction hstands generalizing n' ino with
  | top hm _ _ _ | mounted hm _ _ _ _ => exact (h.root_unique hm hino hn' hino').symm
  | @child a place name c _ above hmem hc ih =>
    rcases hn'.cases with ⟨hm', hd⟩ | ⟨d, name', habove, hmem'⟩
    · rw [hd] at hino'
      have hroot := h.root_unique hm' hino' ⟨_, above.child hmem hc⟩ hino
      rw [hroot, ← hd]
    -- The parents have the same directory, so they are the same node.
    obtain ⟨i, hi, hidir, hentry⟩ := h.table a ⟨_, above⟩ name c hmem
    obtain ⟨i', hi', -, hentry'⟩ := h.table _ habove name' _ hmem'
    rw [hino] at hentry
    rw [hino'] at hentry'
    obtain ⟨rfl, rfl⟩ := h.unique i name i' name' ino hdir hentry.symm hentry'.symm
    have hsame := ih habove hi hi' hidir
    subst hsame
    have hchild := DEntry.lookupChild_of_mem (h.sound.wf.names _) hmem
    rw [DEntry.lookupChild_of_mem (h.sound.wf.names _) hmem'] at hchild
    cases hchild
    rfl

/-! ### Filling the cache -/

theorem Stands.grown (h : v.Stands n place) (hv : v.Wf) (hgrown : v.Grown v') :
    v'.Stands n place := by
  have hroot : ∀ m ino, m < v.nextMount → v.getInode (v.mount m).root = some ino →
      v'.getInode (v'.mount m).root = some ino := by
    intro m ino hm hino
    rw [hgrown.ext.mount, hgrown.ext.getInode (hv.root m hm)]
    exact hino
  induction h with
  | @top m ino hm hpoint hparent hino =>
    have htop := Stands.top (v := v') (hgrown.ext.nextMount ▸ hm)
      (by rw [hgrown.ext.mount]; exact hpoint)
      (by rw [hgrown.ext.mount, hgrown.ext.parent _ (hv.root m hm)]; exact hparent)
      (hroot m ino hm hino)
    rwa [hgrown.ext.mount] at htop
  | @mounted m ino p place hm hpoint hunder hino ih =>
    have hmounted := Stands.mounted (v := v') (hgrown.ext.nextMount ▸ hm)
      (by rw [hgrown.ext.mount]; exact hpoint) ih (hroot m ino hm hino)
    rwa [hgrown.ext.mount] at hmounted
  | @child a place name c ino above hmem hino ih =>
    have hc := (hv.child _ _ _ hmem).1
    refine .child ih (hgrown.kept _ _ _ hmem hc ?_) ?_
    · rw [hino]
      rfl
    · rw [hgrown.ext.getInode hc]
      exact hino

theorem Attached.grown (h : v.Attached n) (hv : v.Wf) (hgrown : v.Grown v') : v'.Attached n := by
  obtain ⟨place, hstands⟩ := h
  exact ⟨place, hstands.grown hv hgrown⟩

/-- Mount `m` and the inode of its root are the same. -/
structure SameMount (v v' : Dcache) (m : Nat) : Prop where
  lt : m < v'.nextMount
  mount : v'.mount m = v.mount m
  parent : (v'.dentry (v.mount m).root).parent = (v.dentry (v.mount m).root).parent
  inode : v'.getInode (v.mount m).root = v.getInode (v.mount m).root

/-- The way to a node is there in `v'` as well, unless it goes through a node with `Q`. -/
theorem Attached.transfer {Q : PathNode → Prop} (hn : v.Attached n) (hmount : ∀ m < v.nextMount,
      ((v.mount m).mountPoint = none → (v.dentry (v.mount m).root).parent = none) →
      SameMount v v' m ∨ Q ⟨m, (v.mount m).root⟩)
    (hchild : ∀ (b : PathNode) name c i, (name, c) ∈ (v.dentry b.dentry).children →
      v.getInode c = some i →
      ((name, c) ∈ (v'.dentry b.dentry).children ∧ v'.getInode c = some i) ∨ Q ⟨b.mount, c⟩)
    (hunder : ∀ m p, m < v.nextMount → (v.mount m).mountPoint = some p → Q p →
      v'.Attached p ∨ Q ⟨m, (v.mount m).root⟩)
    (hbelow : ∀ (b : PathNode) name c, (name, c) ∈ (v.dentry b.dentry).children → Q b →
      Q ⟨b.mount, c⟩) : v'.Attached n ∨ Q n := by
  obtain ⟨place, hstands⟩ := hn
  induction hstands with
  | @top m i hm hpoint hparent hino =>
    rcases hmount m hm fun _ => hparent with hsame | hQ
    · have htop := Stands.top (v := v') hsame.lt (by rw [hsame.mount]; exact hpoint)
        (by rw [hsame.mount, hsame.parent]; exact hparent)
        (by rw [hsame.mount, hsame.inode]; exact hino)
      rw [hsame.mount] at htop
      exact .inl ⟨_, htop⟩
    · exact .inr hQ
  | @mounted m i p place hm hpoint _ hino ih =>
    have hroot : v'.Attached p → v'.Attached ⟨m, (v.mount m).root⟩ ∨ Q ⟨m, (v.mount m).root⟩ := by
      rintro ⟨place', hp⟩
      rcases hmount m hm fun hnone => nomatch hpoint.symm.trans hnone with hsame | hQ
      · have hmounted := Stands.mounted (v := v') hsame.lt (by rw [hsame.mount]; exact hpoint) hp
          (by rw [hsame.mount, hsame.inode]; exact hino)
        rw [hsame.mount] at hmounted
        exact .inl ⟨_, hmounted⟩
      · exact .inr hQ
    rcases ih with hp | hQ
    · exact hroot hp
    · exact (hunder m p hm hpoint hQ).elim hroot .inr
  | @child b place name c i _ hmem hino ih =>
    rcases ih with ⟨place', hb⟩ | hQ
    · rcases hchild b name c i hmem hino with ⟨hmem', hino'⟩ | hQ
      · exact .inl ⟨_, .child hb hmem' hino'⟩
      · exact .inr hQ
    · exact .inr (hbelow b name c hmem hQ)

theorem Grown.sameMount (h : v.Grown v') (hv : v.Wf) (hm : m < v'.nextMount) :
    SameMount v' v m := by
  rw [h.ext.nextMount] at hm
  have hroot := hv.root m hm
  refine ⟨hm, by rw [h.ext.mount], ?_, ?_⟩
  · rw [h.ext.mount, h.ext.parent _ hroot]
  · rw [h.ext.mount, h.ext.getInode hroot]

/-- Older nodes that can be reached could be reached before. -/
theorem Attached.of_grown (h : v'.Attached n) (hv : v.Wf) (hgrown : v.Grown v')
    (hn : n.dentry < v.nextDentry) : v.Attached n := by
  refine (h.transfer (Q := fun n => v.nextDentry ≤ n.dentry) ?_ ?_ ?_ ?_).resolve_right (by omega)
  · exact fun m hm _ => .inl (hgrown.sameMount hv hm)
  · intro b name c i hmem hino
    rcases Nat.lt_or_ge c v.nextDentry with hc | hc
    · exact .inl ⟨hgrown.old hmem hc, (hgrown.ext.getInode hc).symm.trans hino⟩
    · exact .inr hc
  · intro m p hm hpoint hp
    rw [hgrown.ext.nextMount] at hm
    rw [hgrown.ext.mount] at hpoint
    exact absurd (hv.point m p hm hpoint).2 (Nat.not_lt_of_le hp)
  · intro b name c hmem hb
    by_contra hc
    exact absurd (hv.lt_of_mem (hgrown.old hmem (Nat.lt_of_not_le hc))) (Nat.not_lt_of_le hb)

theorem Coherent.grown (h : v.Coherent) (hgrown : v.Grown v') : v'.Coherent := by
  have hv := h.sound.wf
  have hroot : ∀ m < v.nextMount, v'.getInode (v'.mount m).root = v.getInode (v.mount m).root := by
    intro m hm
    rw [hgrown.ext.mount, hgrown.ext.getInode (hv.root m hm)]
  refine ⟨h.sound.grown hgrown, fun d => hgrown.alive d (h.alive d), ?_, ?_, ?_, ?_, ?_, ?_, ?_, ?_⟩
  · intro m hm
    rw [hgrown.ext.nextMount] at hm
    rw [hroot m hm, hgrown.ext.nodes]
    exact h.root m hm
  · intro m m' hm hm' heq
    rw [hgrown.ext.nextMount] at hm hm'
    rw [hroot m hm, hroot m' hm'] at heq
    exact h.apart m m' hm hm' heq
  · rw [hgrown.ext.nodes]
    exact h.unique
  · intro n hn name c hmem
    rcases hgrown.new _ _ _ hmem with hold | ⟨-, hmatches⟩
    · have hd := hv.lt_of_mem hold
      exact (h.table n (hn.of_grown hv hgrown hd) name c hold).mono hgrown.ext hd
        (hv.child _ _ _ hold).1
    · exact hmatches
  · intro d hne
    obtain ⟨e, hmem⟩ := List.exists_mem_of_ne_nil _ hne
    rcases hgrown.new d e.1 e.2 hmem with hold | ⟨-, i, hi, hdir, -⟩
    · have hd := hv.lt_of_mem hold
      rw [hgrown.ext.getInode hd, hgrown.ext.nodes]
      exact h.bare d (List.ne_nil_of_mem hold)
    · exact ⟨i, hi, hdir⟩
  · intro m p hm hpoint
    rw [hgrown.ext.nextMount] at hm
    rw [hgrown.ext.mount] at hpoint
    obtain ⟨hattached, hino, hparent⟩ := h.point m p hm hpoint
    refine ⟨hattached.grown hv hgrown, ?_, ?_⟩
    · rw [hgrown.ext.getInode (hattached.valid hv).2, hgrown.ext.nodes]
      exact hino
    · rw [hgrown.ext.mount, hgrown.ext.parent _ (hv.root m hm)]
      exact hparent
  · intro d
    rw [hgrown.ext.mounts, h.stack d, hgrown.ext.nextMount]
    unfold pointsAt
    rw [hgrown.ext.mount]
  · rw [hgrown.ext.mount, hgrown.ext.nextMount]
    exact h.flat

theorem Coherent.mem_mounts (h : v.Coherent) {d : Nat} : m ∈ (v.dentry d).mounts ↔
      m < v.nextMount ∧ ∃ m', (v.mount m).mountPoint = some ⟨m', d⟩ := by
  rw [h.stack d, List.mem_filter, List.mem_range, pointsAt, decide_eq_true_eq,
    Option.map_eq_some_iff]
  refine and_congr_right fun _ => ⟨?_, ?_⟩
  · intro hpoint
    obtain ⟨⟨m', d'⟩, hp, rfl⟩ := hpoint
    exact ⟨m', hp⟩
  · intro hpoint
    obtain ⟨m', hp⟩ := hpoint
    exact ⟨_, hp, rfl⟩

end Dcache

end Petra.Vfs
