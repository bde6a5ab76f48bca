import Petra.Vfs.Places

/-! # Walking without the cache

The same walk, done by asking every directory and by looking at the table of mounts. In a
coherent cache a lookup ends where this walk ends.
-/

namespace Petra.Vfs

open List Option Dcache

/-! ### The walk -/

namespace Place

/-- Leave a mounted file system. -/
def leave (place : Place) : Place :=
  match place.top.name, place.below with
  | none, f :: below => ⟨f, below⟩
  | _, _ => place

def parent (place : Place) : Place :=
  match place.below with
  | f :: below => ⟨f, below⟩
  | [] => place

/-- `..` from a place. -/
def up (place root : Place) : Place :=
  if place = root then place
  else if place.leave = root then place.leave
  else place.leave.parent

end Place

/-- What there is without the cache. -/
structure Uncached where
  nodes : Nodes
  /-- What is mounted on a directory of a mount, the last one. -/
  mountedOn : Nat → Nat → Option Nat
  rootIno : Nat → Nat

namespace Uncached

variable (u : Uncached)

def enter (place : Place) (name : Name) (ino : Nat) : Place :=
  let here := place.push ⟨place.top.mount, some name, ino⟩
  match u.mountedOn place.top.mount ino with
  | some m => here.push ⟨m, none, u.rootIno m⟩
  | none => here

def linkTarget (ino : Nat) : Option (List Char) :=
  match u.nodes.kind ino with
  | .symlink target => some target
  | _ => none

abbrev Result := Except Errno (Place × Nat)

def walk (follow : Place → List Char → Nat → Result) (root : Place) (stay : Bool) :
    List Name → Place → Nat → Result
  | [], place, depth => .ok (place, depth)
  | comp :: rest, place, depth =>
    if comp = dot then walk follow root stay rest place depth
    else if comp = dotDot then walk follow root stay rest (place.up root) depth
    else
      match u.nodes.lookup place.top.ino comp with
      | .error e => .error e
      | .ok ino =>
        match (u.linkTarget ino).filter fun _ => !(stay && rest.isEmpty) with
        | none => walk follow root stay rest (u.enter place comp ino) depth
        | some target =>
          if maxSymlinkDepth < depth + 1 then .error .ELOOP
          else if target = [] then .error .ENOENT
          else
            match follow place target (depth + 1) with
            | .error e => .error e
            | .ok (place, depth) => walk follow root stay rest place depth

def checkSlash (path : List Char) : Result → Result
  | .error e => .error e
  | .ok (place, depth) =>
    if endsWithSlash path then
      if u.nodes.isDir place.top.ino then .ok (place, depth) else .error .ENOTDIR
    else .ok (place, depth)

def lookupInner (root : Place) : Nat → Place → List Char → Bool → Nat → Result
  | 0, _, _, _, _ => .error .ELOOP
  | fuel + 1, start, path, noFollow, depth =>
    let current := if startsWithSlash path then root else start
    let stay := noFollow && !endsWithSlash path
    u.checkSlash path (u.walk (fun place target depth =>
      lookupInner root fuel place target false depth) root stay (components path) current depth)

def lookup (root start : Place) (path : List Char) (flags : LookupFlags) : Except Errno Place :=
  if path = [] then .error .ENOENT
  else
    match u.lookupInner root (maxSymlinkDepth + 1) start path flags.noFollow 0 with
    | .error e => .error e
    | .ok (place, _) =>
      if flags.directory then
        if u.nodes.isDir place.top.ino then .ok place else .error .ENOTDIR
      else .ok place

end Uncached

namespace Dcache

variable {v v' : Dcache} {root n : PathNode} {top place : Place} {w : Walked} {r : Uncached.Result}

def mountedOn (v : Dcache) (m ino : Nat) : Option Nat :=
  ((List.range v.nextMount).filter fun k =>
    (v.mount k).mountPoint.any fun p => p.mount = m && v.getInode p.dentry = some ino).getLast?

/-- The directories and the table of mounts, without the cache. -/
def uncached (v : Dcache) : Uncached where
  nodes := v.nodes
  mountedOn := v.mountedOn
  rootIno := fun m => if m < v.nextMount then (v.getInode (v.mount m).root).getD 0 else 0

/-! ### One component -/

theorem Stands.eq_iff (h : v.Stands n place) (hv : v.Wf) (hroot : v.Stands root top) :
    n = root ↔ place = top := by
  constructor
  · intro heq
    subst heq
    exact h.place_unique hv hroot
  · intro heq
    subst heq
    exact h.node_unique hv hroot

/-- Up from a child, or from the root of all. -/
theorem Stands.parent (h : v.Coherent) (hn : v.Stands n place)
    (hflat : n.dentry = (v.mount n.mount).root → (v.mount n.mount).mountPoint = none) :
    v.Stands (match v.parent n.dentry with
      | some d => { n with dentry := d }
      | none => n) place.parent := by
  cases hn with
  | top hm hpoint hparent hino =>
    rw [parent, hparent]
    exact .top hm hpoint hparent hino
  | mounted hm hpoint hunder hino =>
    rw [hflat rfl] at hpoint
    cases hpoint
  | @child a place name c ino above hmem hino =>
    have hparent : v.parent c = some a.dentry := by
      rw [parent, (h.sound.wf.child _ _ _ hmem).2.1, filter_some, h.alive]
      rfl
    rw [hparent]
    exact above

/-- Out of a mounted file system. -/
theorem Stands.leave (h : v.Coherent) (hn : v.Stands n place) :
    v.Stands (if n.dentry = (v.mount n.mount).root then
      (v.mount n.mount).mountPoint.getD n else n) place.leave := by
  cases hn with
  | top hm hpoint hparent hino =>
    rw [if_pos rfl, hpoint]
    exact .top hm hpoint hparent hino
  | mounted hm hpoint hunder hino =>
    rw [if_pos rfl, hpoint]
    exact hunder
  | @child a place name c ino above hmem hino =>
    have hchild := Stands.child above hmem hino
    have hne : c ≠ (v.mount a.mount).root := fun heq => by
      cases (hchild.name h.sound.wf).mpr heq
    rw [if_neg hne]
    exact hchild

theorem Stands.stepUp (hroot : v.Stands root top) (h : v.Coherent) (hn : v.Stands n place) :
    v.Stands (v.stepUp root n) (place.up top) := by
  have hv := h.sound.wf
  have hleave := hn.leave h
  unfold Dcache.stepUp Place.up
  by_cases heq : n = root
  · rw [if_pos heq, if_pos ((hn.eq_iff hv hroot).mp heq)]
    exact hn
  rw [if_neg heq, if_neg (fun hp => heq ((hn.eq_iff hv hroot).mpr hp))]
  have hflat : ∀ n₁, (if n.dentry = (v.mount n.mount).root then
      (v.mount n.mount).mountPoint.getD n else n) = n₁ →
      n₁.dentry = (v.mount n₁.mount).root → (v.mount n₁.mount).mountPoint = none := by
    intro n₁ hn₁ hd
    split_ifs at hn₁ with hisRoot
    · cases hpoint : (v.mount n.mount).mountPoint with
      | none =>
        rw [hpoint] at hn₁
        cases hn₁
        exact hpoint
      | some p =>
        rw [hpoint] at hn₁
        cases hn₁
        exact h.flat n.mount p (hn.paired hv).lt_mount hpoint hd
    · cases hn₁
      exact absurd hd hisRoot
  generalize (if n.dentry = (v.mount n.mount).root then
    (v.mount n.mount).mountPoint.getD n else n) = n₁ at hleave hflat
  by_cases heq₁ : n₁ = root
  · rw [if_pos heq₁, if_pos ((hleave.eq_iff hv hroot).mp heq₁)]
    exact hleave
  · rw [if_neg heq₁, if_neg (fun hp => heq₁ ((hleave.eq_iff hv hroot).mpr hp))]
    exact hleave.parent h (hflat n₁ rfl)

/-- What is mounted on a node is what the table of mounts has for its directory. -/
theorem Coherent.mountedOn (h : v.Coherent) (hn : v.Stands n place) :
    v.mountedOn n.mount place.top.ino = (v.dentry n.dentry).mounts.getLast? := by
  have hv := h.sound.wf
  rw [Dcache.mountedOn, h.stack]
  congr 1
  refine filter_congr fun k hk => ?_
  have hlt := mem_range.mp hk
  unfold pointsAt
  cases hpoint : (v.mount k).mountPoint with
  | none => rfl
  | some p =>
    obtain ⟨hattached, ⟨i, hi, hdir⟩, -⟩ := h.point k p hlt hpoint
    have hiff : (p.mount = n.mount ∧ v.getInode p.dentry = some place.top.ino) ↔
        p.dentry = n.dentry := by
      constructor
      · intro hboth
        rw [hi] at hboth
        obtain ⟨-, hino⟩ := hboth
        cases hino
        rw [h.node_unique hattached ⟨_, hn⟩ hi hn.ino hdir]
      · intro heq
        obtain ⟨placeP, hp⟩ := hattached
        rw [heq]
        exact ⟨(heq ▸ hp.paired hv).unique (hn.paired hv) hv, hn.ino⟩
    rw [any_some, map_some, Bool.eq_iff_iff]
    simpa using hiff

theorem uncached_grown (h : v.Coherent) (hgrown : v.Grown v') : v'.uncached = v.uncached := by
  have hv := h.sound.wf
  have hmounted : v'.mountedOn = v.mountedOn := by
    funext m ino
    unfold mountedOn
    rw [hgrown.ext.nextMount, hgrown.ext.mount]
    congr 1
    refine filter_congr fun k hk => ?_
    cases hpoint : (v.mount k).mountPoint with
    | none => rfl
    | some p =>
      rw [any_some, any_some,
        hgrown.ext.getInode (hv.point k p (mem_range.mp hk) hpoint).2]
  have hroot : v'.uncached.rootIno = v.uncached.rootIno := by
    funext m
    simp only [uncached, hgrown.ext.nextMount, hgrown.ext.mount]
    split_ifs with hm
    · rw [hgrown.ext.getInode (hv.root m hm)]
    · rfl
  have hall : ∀ a b : Uncached, a.nodes = b.nodes → a.mountedOn = b.mountedOn →
      a.rootIno = b.rootIno → a = b := by
    intro a b h₁ h₂ h₃
    cases a
    cases b
    cases h₁
    cases h₂
    cases h₃
    rfl
  exact hall _ _ hgrown.ext.nodes hmounted hroot

theorem mem_resolve (h : v.Coherent) (hn : v.Stands n place) (name : Name) :
    match v.nodes.lookup place.top.ino name with
    | .error e => (v.resolve n.dentry name).1 = .error e
    | .ok ino => ∃ c, (v.resolve n.dentry name).1 = .ok c ∧
        (name, c) ∈ ((v.resolve n.dentry name).2.dentry n.dentry).children ∧
        (v.resolve n.dentry name).2.getInode c = some ino := by
  have hd := (Attached.valid ⟨place, hn⟩ h.sound.wf).2
  unfold resolve
  cases hchild : v.lookupChild n.dentry name with
  | some c =>
    have hmem := DEntry.mem_of_lookupChild hchild
    obtain ⟨i, hi, hdir, hentry⟩ := h.table n ⟨place, hn⟩ name c hmem
    rw [hn.ino] at hi
    cases hi
    cases hino : v.getInode c with
    | none =>
      rw [hino] at hentry
      rw [Nodes.lookup_eq_noent.mpr ⟨hdir, hentry.symm⟩]
      dsimp only
      rw [hino]
      rfl
    | some j =>
      rw [hino] at hentry
      rw [Nodes.lookup_eq_ok.mpr ⟨hdir, hentry.symm⟩]
      dsimp only
      rw [hino]
      exact ⟨c, rfl, hmem, hino⟩
  | none =>
    rw [hn.ino]
    dsimp only
    cases v.nodes.lookup place.top.ino name with
    | ok j =>
      refine ⟨v.nextDentry, rfl, mem_newChild_self hd, ?_⟩
      exact (getInode_newChild hd _).trans (if_pos rfl)
    | error e => cases e <;> rfl

theorem Stands.enter (h : v.Coherent) (hn : v.Stands n place) {name : Name} {c ino : Nat}
    (hmem : (name, c) ∈ (v.dentry n.dentry).children) (hino : v.getInode c = some ino) :
    v.Stands (v.enter n c) (v.uncached.enter place name ino) := by
  have hv := h.sound.wf
  have hchild : v.Stands ⟨n.mount, c⟩ (place.push ⟨n.mount, some name, ino⟩) := .child hn hmem hino
  have hlast := h.mountedOn hchild
  unfold Dcache.enter Uncached.enter
  rw [hn.mount]
  change v.mountedOn n.mount ino = _ at hlast
  change v.Stands _ (match v.mountedOn n.mount ino with
    | some m => _
    | none => _)
  rw [hlast]
  cases hmounts : (v.dentry c).mounts.getLast? with
  | none => exact hchild
  | some m =>
    obtain ⟨hm, m', hpoint⟩ := h.mem_mounts.mp (mem_of_getLast? hmounts)
    -- The mount is recorded for the mount the child belongs to.
    obtain ⟨-, -, m'', hpoint', hpaired⟩ := hv.mounted c m (mem_of_getLast? hmounts)
    have hsame := hpaired.unique (hchild.paired hv) hv
    rw [hsame] at hpoint'
    obtain ⟨rootIno, hroot, -, -⟩ := h.root m hm
    have hroots : v.uncached.rootIno m = rootIno := by
      simp only [uncached, if_pos hm, hroot, getD_some]
    dsimp only
    rw [hroots]
    exact .mounted hm hpoint' hchild hroot

/-! ### Whole walks -/

/-- A walk in the cache and one without it end at the same place, or with the same error. -/
def Agrees (v : Dcache) (w : Walked) (r : Uncached.Result) : Prop :=
  v.Grown w.2 ∧
    match w.1, r with
    | .ok (n, k), .ok (place, k') => w.2.Stands n place ∧ k = k'
    | .error e, .error e' => e = e'
    | _, _ => False

theorem Agrees.trans (hgrown : v.Grown v')
    (h : v'.Agrees w r) : v.Agrees w r := ⟨hgrown.trans h.1, h.2⟩

theorem agrees_walk (u : Uncached) {follow : Follow}
    {follow' : Place → List Char → Nat → Uncached.Result} {stay : Bool}
    (hfollow : ∀ (v : Dcache) n place target k, v.Coherent → v.uncached = u → v.Stands root top →
      v.Stands n place → v.Agrees (follow v n target k) (follow' place target k))
    (comps : List Name) (h : v.Coherent) (hu : v.uncached = u) (hroot : v.Stands root top)
    (hn : v.Stands n place) (k : Nat) :
    v.Agrees (walk follow root stay comps v n k) (u.walk follow' top stay comps place k) := by
  induction comps generalizing v n place k with
  | nil => exact ⟨.refl h.sound.wf, hn, rfl⟩
  | cons comp rest ih =>
    by_cases hdot : comp = dot
    · rw [walk, if_pos hdot, Uncached.walk, if_pos hdot]
      exact ih h hu hroot hn k
    by_cases hdotDot : comp = dotDot
    · rw [walk, if_neg hdot, if_pos hdotDot, Uncached.walk, if_neg hdot, if_pos hdotDot]
      exact ih h hu hroot (hroot.stepUp h hn) k
    rw [walk, if_neg hdot, if_neg hdotDot, Uncached.walk, if_neg hdot, if_neg hdotDot]
    have hgrown := grown_resolve h.sound.wf (Attached.valid ⟨_, hn⟩ h.sound.wf).2 comp
    have hresolve := mem_resolve h hn comp
    have hnodes : u.nodes = v.nodes := by rw [← hu]; rfl
    rw [hnodes]
    generalize v.resolve n.dentry comp = w at hgrown hresolve
    obtain ⟨r, v'⟩ := w
    have h' := h.grown hgrown
    have hu' := (uncached_grown h hgrown).trans hu
    have hroot' := hroot.grown h.sound.wf hgrown
    have hn' := hn.grown h.sound.wf hgrown
    cases hlookup : v.nodes.lookup place.top.ino comp with
    | error e =>
      rw [hlookup] at hresolve
      cases hresolve
      exact ⟨hgrown, rfl⟩
    | ok ino =>
      rw [hlookup] at hresolve
      obtain ⟨c, hr, hmem, hino⟩ := hresolve
      cases hr
      have htarget : v'.linkTarget c = u.linkTarget ino := by
        rw [linkTarget, hino, hgrown.ext.nodes, ← hnodes]
        rfl
      dsimp only
      rw [htarget]
      cases (u.linkTarget ino).filter fun _ => !(stay && rest.isEmpty) with
      | none =>
        refine Agrees.trans hgrown (ih h' hu' hroot' ?_ k)
        rw [← hu']
        exact hn'.enter h' hmem hino
      | some target =>
        dsimp only
        split_ifs
        · exact ⟨hgrown, rfl⟩
        · exact ⟨hgrown, rfl⟩
        have hlink := hfollow v' n place target (k + 1) h' hu' hroot' hn'
        generalize follow v' n target (k + 1) = w at hlink
        generalize follow' place target (k + 1) = r at hlink
        obtain ⟨hgrown', hend⟩ := hlink
        obtain ⟨r', v''⟩ := w
        cases r' with
        | error e =>
          cases r with
          | error e' => exact ⟨hgrown.trans hgrown', hend⟩
          | ok out => exact hend.elim
        | ok out =>
          cases r with
          | error e' => exact hend.elim
          | ok out' =>
            obtain ⟨hstands, hcount⟩ := hend
            dsimp only at hcount ⊢
            rw [hcount]
            refine Agrees.trans (hgrown.trans hgrown') (ih (h'.grown hgrown') ?_
              (hroot'.grown h'.sound.wf hgrown') hstands _)
            exact (uncached_grown h' hgrown').trans hu'

theorem Agrees.checkSlash {u : Uncached} (h : v.Agrees w r)
    (hu : u.nodes = v.nodes) (path : List Char) :
    v.Agrees (checkSlash path w) (u.checkSlash path r) := by
  obtain ⟨out, v'⟩ := w
  obtain ⟨hgrown, hend⟩ := h
  cases out with
  | error e =>
    cases r with
    | error e' => exact ⟨hgrown, hend⟩
    | ok out => exact hend.elim
  | ok out =>
    cases r with
    | error e' => exact hend.elim
    | ok out' =>
      obtain ⟨hstands, hcount⟩ := hend
      unfold checkSlash Uncached.checkSlash
      dsimp only at hstands ⊢
      rw [hstands.ino, hu, ← hgrown.ext.nodes]
      dsimp only
      split_ifs
      · exact ⟨hgrown, hstands, hcount⟩
      · exact ⟨hgrown, rfl⟩
      · exact ⟨hgrown, hstands, hcount⟩

theorem agrees_lookupInner (u : Uncached) (fuel : Nat) (path : List Char) (noFollow : Bool)
    (depth : Nat) (h : v.Coherent) (hu : v.uncached = u) (hroot : v.Stands root top)
    (hn : v.Stands n place) : v.Agrees (lookupInner root fuel v n path noFollow depth)
      (u.lookupInner top fuel place path noFollow depth) := by
  induction fuel generalizing v n place path noFollow depth with
  | zero => exact ⟨.refl h.sound.wf, rfl⟩
  | succ fuel ih =>
    refine Agrees.checkSlash ?_ (by rw [← hu]; rfl) path
    refine agrees_walk u (fun _ _ _ target => ih target false) _ h hu hroot ?_ depth
    split_ifs
    · exact hroot
    · exact hn

/-- **A lookup in a coherent cache** ends at the place where the walk without the cache ends, with
the same inode, or with the same error. -/
theorem lookup_uncached (h : v.Coherent) (hroot : v.Stands root top) (hn : v.Stands n place)
    (path : List Char) (flags : LookupFlags) :
    v.Grown (v.lookup root n path flags).2 ∧
      match (v.lookup root n path flags).1, v.uncached.lookup top place path flags with
      | .ok n', .ok place' => (v.lookup root n path flags).2.Stands n' place'
      | .error e, .error e' => e = e'
      | _, _ => False := by
  by_cases hempty : path = []
  · rw [lookup, if_pos hempty, Uncached.lookup, if_pos hempty]
    exact ⟨.refl h.sound.wf, rfl⟩
  rw [lookup, if_neg hempty, Uncached.lookup, if_neg hempty]
  have hagrees := agrees_lookupInner v.uncached (maxSymlinkDepth + 1) path flags.noFollow 0 h
    rfl hroot hn
  generalize lookupInner root (maxSymlinkDepth + 1) v n path flags.noFollow 0 = w at hagrees
  generalize v.uncached.lookupInner top (maxSymlinkDepth + 1) place path flags.noFollow 0 = r
    at hagrees
  obtain ⟨out, v'⟩ := w
  obtain ⟨hgrown, hend⟩ := hagrees
  cases out with
  | error e =>
    cases r with
    | error e' => exact ⟨hgrown, hend⟩
    | ok out => exact hend.elim
  | ok out =>
    cases r with
    | error e' => exact hend.elim
    | ok out' =>
      obtain ⟨hstands, -⟩ := hend
      have hnodes : v.uncached.nodes = v'.nodes := hgrown.ext.nodes.symm
      dsimp only at hstands ⊢
      rw [hstands.ino, hnodes]
      dsimp only
      split_ifs
      · exact ⟨hgrown, hstands⟩
      · exact ⟨hgrown, rfl⟩
      · exact ⟨hgrown, hstands⟩

/-- What is reached from a node that can be reached can be reached. -/
theorem attached_lookup (h : v.Coherent) (hroot : v.Attached root) (hn : v.Attached n)
    {path : List Char} {flags : LookupFlags} {n' : PathNode}
    (hlookup : (v.lookup root n path flags).1 = .ok n') :
    (v.lookup root n path flags).2.Attached n' := by
  obtain ⟨top, hroot⟩ := hroot
  obtain ⟨place, hn⟩ := hn
  obtain ⟨-, hend⟩ := lookup_uncached h hroot hn path flags
  rw [hlookup] at hend
  cases hout : v.uncached.lookup top place path flags with
  | error e =>
    rw [hout] at hend
    exact hend.elim
  | ok place' =>
    rw [hout] at hend
    exact ⟨place', hend⟩

end Dcache

end Petra.Vfs
