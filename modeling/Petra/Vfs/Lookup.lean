import Petra.Vfs.Dcache

/-! # Path lookup

A path is walked one component at a time. A child that is not cached is asked for and cached,
also when there is none. A symbolic link is walked from the directory it is in, and at most
forty links are followed in all.
-/

namespace Petra.Vfs

/-! ### Paths -/

/-- The pieces of a path between slashes. -/
def splitSlash : List Char → List Name
  | [] => [[]]
  | c :: cs =>
    if c = '/' then [] :: splitSlash cs
    else
      match splitSlash cs with
      | [] => [[c]]
      | word :: words => (c :: word) :: words

def components (path : List Char) : List Name := (splitSlash path).filter fun s => s ≠ []

def startsWithSlash (path : List Char) : Bool := path.head? = some '/'

def endsWithSlash (path : List Char) : Bool := path.getLast? = some '/'

def dot : Name := ['.']
def dotDot : Name := ['.', '.']

structure LookupFlags where
  noFollow : Bool
  directory : Bool
  deriving DecidableEq

def maxSymlinkDepth : Nat := 40

namespace Dcache

variable {v v' : Dcache} {root : PathNode} {n : PathNode}

/-! ### One component -/

/-- `..` stays at the root, leaves a mounted file system through its mount point, and goes up. -/
def stepUp (v : Dcache) (root current : PathNode) : PathNode :=
  if current = root then current
  else
    let current := if current.dentry = (v.mount current.mount).root then
        (v.mount current.mount).mountPoint.getD current
      else current
    if current = root then current
    else
      match v.parent current.dentry with
      | some parent => { current with dentry := parent }
      | none => current

/-- The child of a directory: cached, or asked for and then cached. -/
def resolve (v : Dcache) (d : Nat) (name : Name) : Except Errno Nat × Dcache :=
  match v.lookupChild d name with
  | some entry => if (v.getInode entry).isNone then (.error .ENOENT, v) else (.ok entry, v)
  | none =>
    match v.getInode d with
    | none => (.error .ENOENT, v)
    | some ino =>
      match v.nodes.lookup ino name with
      | .ok child => (.ok v.nextDentry, v.newChild d name (some child))
      | .error .ENOENT => (.error .ENOENT, v.newChild d name none)
      | .error e => (.error e, v)

/-- Go to a dentry, or to what is mounted on it. -/
def enter (v : Dcache) (current : PathNode) (d : Nat) : PathNode :=
  match (v.dentry d).mounts.getLast? with
  | some m => ⟨m, (v.mount m).root⟩
  | none => { current with dentry := d }

/-- The target of the link a dentry stands for, which can be read. -/
def linkTarget (v : Dcache) (d : Nat) : Option (List Char) :=
  match v.getInode d with
  | none => none
  | some ino =>
    match v.nodes.kind ino with
    | .symlink target => some target
    | _ => none

/-! ### Whole paths -/

/-- A node and the number of links followed so far, or an error; and the cache afterwards. -/
abbrev Walked := Except Errno (PathNode × Nat) × Dcache

/-- How a link is followed: the cache, the directory, the target and the count. -/
abbrev Follow := Dcache → PathNode → List Char → Nat → Walked

/-- The loop over the components. `stay` is set if a link at the end is not followed. -/
def walk (follow : Follow) (root : PathNode) (stay : Bool) :
    List Name → Dcache → PathNode → Nat → Walked
  | [], v, current, depth => (.ok (current, depth), v)
  | comp :: rest, v, current, depth =>
    if comp = dot then walk follow root stay rest v current depth
    else if comp = dotDot then walk follow root stay rest v (v.stepUp root current) depth
    else
      match v.resolve current.dentry comp with
      | (.error e, v) => (.error e, v)
      | (.ok d, v) =>
        match (v.linkTarget d).filter fun _ => !(stay && rest.isEmpty) with
        | none => walk follow root stay rest v (v.enter current d) depth
        | some target =>
          if maxSymlinkDepth < depth + 1 then (.error .ELOOP, v)
          else if target = [] then (.error .ENOENT, v)
          else
            match follow v current target (depth + 1) with
            | (.error e, v) => (.error e, v)
            | (.ok (current, depth), v) => walk follow root stay rest v current depth

/-- The check after the loop. -/
def checkSlash (path : List Char) : Walked → Walked
  | (.error e, v) => (.error e, v)
  | (.ok (current, depth), v) =>
    if endsWithSlash path then
      match v.getInode current.dentry with
      | none => (.error .ENOENT, v)
      | some ino =>
        if v.nodes.isDir ino then (.ok (current, depth), v) else (.error .ENOTDIR, v)
    else (.ok (current, depth), v)

/-- `lookup_inner`. Each link that is followed uses up one unit of `fuel`. -/
def lookupInner (root : PathNode) :
    Nat → Dcache → PathNode → List Char → Bool → Nat → Walked
  | 0, v, _, _, _, _ => (.error .ELOOP, v)
  | fuel + 1, v, start, path, noFollow, depth =>
    let current := if startsWithSlash path then root else start
    let stay := noFollow && !endsWithSlash path
    checkSlash path (walk (fun v current target depth =>
      lookupInner root fuel v current target false depth) root stay (components path) v current
        depth)

def lookup (v : Dcache) (root start : PathNode) (path : List Char) (flags : LookupFlags) :
    Except Errno PathNode × Dcache :=
  if path = [] then (.error .ENOENT, v)
  else
    match lookupInner root (maxSymlinkDepth + 1) v start path flags.noFollow 0 with
    | (.error e, v) => (.error e, v)
    | (.ok (node, _), v) =>
      if flags.directory then
        match v.getInode node.dentry with
        | none => (.error .ENOENT, v)
        | some ino => if v.nodes.isDir ino then (.ok node, v) else (.error .ENOTDIR, v)
      else (.ok node, v)

theorem checkSlash_cases (path : List Char) (w : Walked) :
    checkSlash path w = w ∨ ∃ e, checkSlash path w = (.error e, w.2) := by
  obtain ⟨r, v'⟩ := w
  cases r with
  | error e => exact .inl rfl
  | ok out =>
    unfold checkSlash
    dsimp only
    split_ifs
    · cases v'.getInode out.1.dentry with
      | none => exact .inr ⟨_, rfl⟩
      | some ino =>
        dsimp only
        split_ifs
        · exact .inl rfl
        · exact .inr ⟨_, rfl⟩
    · exact .inl rfl

/-! ### What a walk keeps -/

section Rule

variable {I : Dcache → Prop} {N : Dcache → PathNode → Prop}

/-- A walk from `v` that ended in `w` kept `I`, and its nodes have `N`. -/
def Kept (I : Dcache → Prop) (N : Dcache → PathNode → Prop) (v : Dcache) (w : Walked) : Prop :=
  I w.2 ∧ (∀ n, N v n → N w.2 n) ∧ ∀ n k, w.1 = .ok (n, k) → N w.2 n

theorem Kept.checkSlash {w : Walked} (h : Kept I N v w) (path : List Char) :
    Kept I N v (checkSlash path w) := by
  rcases checkSlash_cases path w with heq | ⟨e, heq⟩ <;> rw [heq]
  · exact h
  · exact ⟨h.1, h.2.1, nofun⟩

variable (hup : ∀ v n, I v → N v n → N v (v.stepUp root n))
  (hdown : ∀ v n name, I v → N v n → I (v.resolve n.dentry name).2 ∧
    (∀ n', N v n' → N (v.resolve n.dentry name).2 n') ∧
    ∀ d, (v.resolve n.dentry name).1 = .ok d →
      N (v.resolve n.dentry name).2 ((v.resolve n.dentry name).2.enter n d))

include hup hdown

/-- If every way to take one component keeps `I` and `N`, so does a walk. -/
theorem kept_walk {follow : Follow} {stay : Bool}
    (hfollow : ∀ v n target k, I v → N v n → Kept I N v (follow v n target k))
    (comps : List Name) {n : PathNode} {k : Nat} (hv : I v) (hn : N v n) :
    Kept I N v (walk follow root stay comps v n k) := by
  -- What comes after a step that kept everything.
  have hafter : ∀ {v v' : Dcache} {w : Walked}, (∀ m, N v m → N v' m) → Kept I N v' w →
      Kept I N v w :=
    fun hmono h => ⟨h.1, fun m hm => h.2.1 m (hmono m hm), h.2.2⟩
  have hstep : ∀ {v n comp r v'}, I v → N v n → v.resolve n.dentry comp = (r, v') → I v' ∧
      (∀ m, N v m → N v' m) ∧ ∀ d, r = .ok d → N v' (v'.enter n d) := by
    intro v n comp r v' hv hn hresolve
    have hkept := hdown v n comp hv hn
    rwa [hresolve] at hkept
  fun_induction walk follow root stay comps v n k with
  | case1 =>
    refine ⟨hv, fun _ h => h, ?_⟩
    rintro _ _ ⟨⟩
    exact hn
  | case2 _ _ _ _ ih => exact ih hv hn
  | case3 _ v n _ _ ih => exact ih hv (hup v n hv hn)
  | case4 _ _ _ _ _ _ _ _ _ hresolve
  | case6 _ _ _ _ _ _ _ _ _ hresolve
  | case7 _ _ _ _ _ _ _ _ _ hresolve =>
    obtain ⟨hI, hmono, -⟩ := hstep hv hn hresolve
    exact ⟨hI, hmono, nofun⟩
  | case5 _ _ _ _ _ _ _ d _ hresolve _ ih =>
    obtain ⟨hI, hmono, hnode⟩ := hstep hv hn hresolve
    exact hafter hmono (ih hI (hnode d rfl))
  | case8 _ _ _ n k _ _ _ v' hresolve target _ _ _ _ _ hto =>
    obtain ⟨hI, hmono, -⟩ := hstep hv hn hresolve
    exact hafter hmono (hto ▸ hfollow v' n target (k + 1) hI (hmono n hn))
  | case9 _ _ _ n k _ _ _ v' hresolve target _ _ _ _ _ _ hto ih =>
    obtain ⟨hI, hmono, -⟩ := hstep hv hn hresolve
    have hkept := hfollow v' n target (k + 1) hI (hmono n hn)
    rw [hto] at hkept
    exact hafter hmono (hafter hkept.2.1 (ih hkept.1 (hkept.2.2 _ _ rfl)))

variable (hroot : ∀ v, I v → N v root) {start : PathNode} {path : List Char}

include hroot

theorem kept_lookupInner (fuel : Nat) {noFollow : Bool}
    {depth : Nat} (hv : I v) (hstart : N v start) :
    Kept I N v (lookupInner root fuel v start path noFollow depth) := by
  induction fuel generalizing v start path noFollow depth with
  | zero => exact ⟨hv, fun _ h => h, nofun⟩
  | succ fuel ih =>
    refine Kept.checkSlash (kept_walk hup hdown (fun _ _ _ _ => ih) _ hv ?_) path
    split_ifs
    · exact hroot v hv
    · exact hstart

/-- A lookup keeps what each of its steps keeps. -/
theorem kept_lookup {flags : LookupFlags} (hv : I v)
    (hstart : N v start) : I (v.lookup root start path flags).2 ∧
      (∀ n, N v n → N (v.lookup root start path flags).2 n) ∧
      ∀ n, (v.lookup root start path flags).1 = .ok n → N (v.lookup root start path flags).2 n := by
  have hkept : Kept I N v (lookupInner root (maxSymlinkDepth + 1) v start path flags.noFollow 0) :=
    kept_lookupInner hup hdown hroot _ hv hstart
  by_cases hempty : path = []
  · rw [lookup, if_pos hempty]
    exact ⟨hv, fun _ h => h, nofun⟩
  rw [lookup, if_neg hempty]
  generalize lookupInner root (maxSymlinkDepth + 1) v start path flags.noFollow 0 = w at hkept
  obtain ⟨r, v'⟩ := w
  obtain ⟨hI, hmono, hend⟩ := hkept
  have herror : ∀ e : Errno, I v' ∧ (∀ n, N v n → N v' n) ∧
      ∀ n, (Except.error e : Except Errno PathNode) = .ok n → N v' n :=
    fun e => ⟨hI, hmono, nofun⟩
  cases r with
  | error e => exact herror e
  | ok out =>
    have hok : I v' ∧ (∀ n, N v n → N v' n) ∧
        ∀ n, (Except.ok out.1 : Except Errno PathNode) = .ok n → N v' n := by
      refine ⟨hI, hmono, fun n hn => ?_⟩
      cases hn
      exact hend out.1 out.2 rfl
    dsimp only
    split
    · cases v'.getInode out.1.dentry with
      | none => exact herror _
      | some ino =>
        dsimp only
        split
        · exact hok
        · exact herror _
    · exact hok

end Rule

/-! ### What a lookup adds -/

/-- What resolving a name does to the heap. -/
theorem resolve_spec (h : v.Wf) {d : Nat} (hd : d < v.nextDentry) (name : Name) :
    v.Extends (v.resolve d name).2 ∧ (v.resolve d name).2.Wf ∧
      ∀ c, (v.resolve d name).1 = .ok c → c < (v.resolve d name).2.nextDentry ∧
        ((v.resolve d name).2.dentry c).parent = some d ∧ ¬ (v.resolve d name).2.IsRoot c := by
  unfold resolve
  cases hchild : v.lookupChild d name with
  | some c =>
    dsimp only
    split
    · exact ⟨.refl v, h, nofun⟩
    · refine ⟨.refl v, h, fun c' hc => ?_⟩
      cases hc
      exact h.child d name c (DEntry.mem_of_lookupChild hchild)
  | none =>
    cases v.getInode d with
    | none => exact ⟨.refl v, h, nofun⟩
    | some ino =>
      dsimp only
      split
      · refine ⟨extends_newChild hd h, h.newChild hd, fun c hc => ?_⟩
        cases hc
        refine ⟨Nat.lt_succ_self _, by rw [newChild_dentry_new hd], ?_⟩
        intro hroot
        obtain ⟨m, hm, hr⟩ := (extends_newChild hd h).isRoot.mp hroot
        exact absurd (h.root m hm) (by omega)
      · exact ⟨extends_newChild hd h, h.newChild hd, nofun⟩
      · exact ⟨.refl v, h, nofun⟩

/-- A node of the heap. -/
def Valid (v : Dcache) (n : PathNode) : Prop := n.mount < v.nextMount ∧ n.dentry < v.nextDentry
deriving Decidable

theorem Extends.valid (hext : v.Extends v') (hn : v.Valid n) : v'.Valid n :=
  ⟨hext.nextMount ▸ hn.1, hn.2.trans_le hext.next⟩

/-- The node from which `..` goes up. -/
theorem Valid.leave (h : v.Wf) (hn : v.Valid n) : v.Valid (if n.dentry = (v.mount n.mount).root then
      (v.mount n.mount).mountPoint.getD n else n) := by
  split
  · cases hmount : (v.mount n.mount).mountPoint with
    | none => exact hn
    | some p => exact h.point n.mount p hn.1 hmount
  · exact hn

theorem Valid.stepUp (h : v.Wf) (root : PathNode) (hn : v.Valid n) : v.Valid (v.stepUp root n) := by
  have hup : ∀ n : PathNode, v.Valid n → v.Valid (match v.parent n.dentry with
      | some p => { n with dentry := p }
      | none => n) := by
    intro n hn
    cases hparent : v.parent n.dentry with
    | none => exact hn
    | some p =>
      have hlt := h.parent _ p (Option.filter_eq_some_iff.mp hparent).1
      exact ⟨hn.1, hlt.trans hn.2⟩
  have hleave := hn.leave h
  unfold Dcache.stepUp
  by_cases heq : n = root
  · rw [if_pos heq]
    exact hn
  rw [if_neg heq]
  dsimp only
  generalize (if n.dentry = (v.mount n.mount).root then
    (v.mount n.mount).mountPoint.getD n else n) = n' at hleave
  split
  · exact hleave
  · exact hup n' hleave

theorem Valid.enter (h : v.Wf) {c : Nat} (hn : v.Valid n) (hc : c < v.nextDentry) :
    v.Valid (v.enter n c) := by
  unfold Dcache.enter
  cases hlast : (v.dentry c).mounts.getLast? with
  | none => exact ⟨hn.1, hc⟩
  | some m =>
    have hm := (h.mounted c m (List.mem_of_getLast? hlast)).1
    exact ⟨hm, h.root m hm⟩

/-- What is looked up as a directory is one. -/
theorem lookup_directory {start : PathNode} {path : List Char} {noFollow : Bool}
    (h : v.lookup root start path ⟨noFollow, true⟩ = (.ok n, v')) : path ≠ [] ∧
      (∃ k, lookupInner root (maxSymlinkDepth + 1) v start path noFollow 0 = (.ok (n, k), v')) ∧
      ∃ ino, v'.getInode n.dentry = some ino ∧ v'.nodes.isDir ino = true := by
  unfold lookup at h
  by_cases hempty : path = []
  · rw [if_pos hempty] at h
    cases h
  rw [if_neg hempty] at h
  generalize lookupInner root (maxSymlinkDepth + 1) v start path noFollow 0 = w at h
  obtain ⟨r, w⟩ := w
  cases r with
  | error e => cases h
  | ok out =>
    simp only [if_true] at h
    split at h
    · cases h
    next ino hino =>
      split_ifs at h with hdir
      · cases h
        exact ⟨hempty, ⟨out.2, rfl⟩, ino, hino, hdir⟩
      · cases h

end Dcache

end Petra.Vfs
