import Petra.Vfs.Confinement
import Petra.Vfs.Filling

/-! # Routes

The way of a path through a cache that has all of it. A lookup takes the same way in every heap
that has the same to offer at the dentries on it.
-/

namespace Petra.Vfs

open List Option

/-! ### A path with `..` behind it -/

theorem splitSlash_ne_nil (path : List Char) : splitSlash path ≠ [] := by
  cases path with
  | nil => exact cons_ne_nil _ _
  | cons c cs =>
    unfold splitSlash
    split_ifs
    · exact cons_ne_nil _ _
    · cases splitSlash cs <;> exact cons_ne_nil _ _

theorem splitSlash_append (p q : List Char) :
    splitSlash (p ++ '/' :: q) = splitSlash p ++ splitSlash q := by
  induction p with
  | nil => rfl
  | cons c p ih =>
    rw [cons_append, splitSlash, splitSlash, ih]
    split_ifs
    · rfl
    · cases hp : splitSlash p with
      | nil => exact absurd hp (splitSlash_ne_nil p)
      | cons word words => rfl

theorem components_up (path : List Char) :
    components (path ++ ['/', '.', '.']) = components path ++ [dotDot] := by
  have hup : (splitSlash ['.', '.']).filter (fun s => s ≠ []) = [dotDot] := by decide
  unfold components
  rw [splitSlash_append, filter_append, hup]

namespace Dcache

variable {v w : Dcache} {root n : PathNode}

/-- Without `stay`, every link is followed. -/
theorem filter_follow (o : Option (List Char)) (last : Bool) :
    (o.filter fun _ => !(false && last)) = o := by
  cases o <;> rfl

/-- A walk that follows all links, in two parts. -/
theorem walk_append (follow : Follow) (xs ys : List Name) (v : Dcache) (n : PathNode) (k : Nat) :
    walk follow root false (xs ++ ys) v n k = match walk follow root false xs v n k with
      | (.error e, v) => (.error e, v)
      | (.ok (n, k), v) => walk follow root false ys v n k := by
  induction xs generalizing v n k with
  | nil => rfl
  | cons comp rest ih =>
    rw [cons_append, walk, walk]
    by_cases hdot : comp = dot
    · rw [if_pos hdot, if_pos hdot]
      exact ih v n k
    rw [if_neg hdot, if_neg hdot]
    by_cases hdotDot : comp = dotDot
    · rw [if_pos hdotDot, if_pos hdotDot]
      exact ih v (v.stepUp root n) k
    rw [if_neg hdotDot, if_neg hdotDot]
    generalize v.resolve n.dentry comp = out
    obtain ⟨r, v'⟩ := out
    cases r with
    | error e => rfl
    | ok d =>
      dsimp only
      rw [filter_follow, filter_follow]
      cases v'.linkTarget d with
      | none => exact ih v' (v'.enter n d) k
      | some target =>
        dsimp only
        split_ifs
        · rfl
        · rfl
        · generalize follow v' n target (k + 1) = out
          obtain ⟨r, v''⟩ := out
          cases r with
          | error e => rfl
          | ok out => exact ih v'' out.1 out.2

/-- What a walk does at a dentry. -/
inductive Stop
  /-- It takes a component there, comes up to it, or crosses to what is mounted on it. -/
  | passed (d : Nat)
  /-- A name leads to it, and nothing is mounted there. -/
  | entered (d : Nat)
  deriving DecidableEq

/-- Where a walk ends, how many links it has followed then, and the stops on the way. -/
structure Route where
  node : PathNode
  depth : Nat
  stops : List Stop

def Route.after (stops : List Stop) (r : Route) : Route := { r with stops := stops ++ r.stops }

def stopAt (v : Dcache) (d : Nat) : Stop :=
  if (v.dentry d).mounts = [] then .entered d else .passed d

def isDirAt (v : Dcache) (n : PathNode) : Bool := (v.getInode n.dentry).any v.nodes.isDir

/-- The loop over the components, without asking a directory for anything. -/
def walkRoute (v : Dcache) (root : PathNode)
    (follow : PathNode → List Char → Nat → Option Route) :
    List Name → PathNode → Nat → Option Route
  | [], n, k => some ⟨n, k, []⟩
  | comp :: rest, n, k =>
    if comp = dot then v.walkRoute root follow rest n k
    else if comp = dotDot then
      (v.walkRoute root follow rest (v.stepUp root n) k).map
        (Route.after [.passed n.dentry, .passed (v.stepUp root n).dentry])
    else
      match v.lookupChild n.dentry comp with
      | none => none
      | some d =>
        if (v.getInode d).isNone then none
        else
          match v.linkTarget d with
          | none => (v.walkRoute root follow rest (v.enter n d) k).map
              (Route.after [.passed n.dentry, v.stopAt d])
          | some target =>
            if maxSymlinkDepth < k + 1 ∨ target = [] then none
            else
              match follow n target (k + 1) with
              | none => none
              | some r => (v.walkRoute root follow rest r.node r.depth).map
                  (Route.after (.passed n.dentry :: r.stops))

def route (v : Dcache) (root : PathNode) : Nat → PathNode → List Char → Nat → Option Route
  | 0, _, _, _ => none
  | fuel + 1, start, path, k =>
    (v.walkRoute root (fun n target k => v.route root fuel n target k) (components path)
      (if startsWithSlash path then root else start) k).filter
      fun r => !endsWithSlash path || v.isDirAt r.node

/-! ### Heaps that offer the same -/

/-- At the dentries with `P`, nothing is gone and nothing else is mounted. -/
structure Undisturbed (v w : Dcache) (P : Nat → Prop) : Prop where
  nodes : w.nodes = v.nodes
  next : v.nextDentry ≤ w.nextDentry
  nextMount : v.nextMount ≤ w.nextMount
  inode : ∀ d, d < v.nextDentry → w.getInode d = v.getInode d
  parent : ∀ d, d < v.nextDentry → w.parent d = v.parent d
  root : ∀ m, m < v.nextMount → (w.mount m).root = (v.mount m).root
  point : ∀ m, m < v.nextMount → P (v.mount m).root →
    (w.mount m).mountPoint = (v.mount m).mountPoint
  child : ∀ d name c, P d → (name, c) ∈ (v.dentry d).children → (v.getInode c).isSome = true →
    (name, c) ∈ (w.dentry d).children
  mounts : ∀ d, P d → (w.dentry d).mounts = (v.dentry d).mounts

theorem Grown.undisturbed (h : v.Grown w) (hv : v.Wf) (P : Nat → Prop) : v.Undisturbed w P where
  nodes := h.ext.nodes
  next := h.ext.next
  nextMount := Nat.le_of_eq h.ext.nextMount.symm
  inode _ hd := h.ext.getInode hd
  parent _ hd := h.ext.parent_eq hv hd
  root m _ := by rw [h.ext.mount]
  point m _ _ := by rw [h.ext.mount]
  child d name c _ hmem hsome := h.kept d name c hmem (hv.child _ _ _ hmem).1 hsome
  mounts d _ := h.ext.mounts d

namespace Undisturbed

variable {P : Nat → Prop}

variable (h : v.Undisturbed w P) {d : Nat}

include h

theorem trans {w' : Dcache} (h' : w.Undisturbed w' P) (hv : v.Wf) : v.Undisturbed w' P where
  nodes := h'.nodes.trans h.nodes
  next := h.next.trans h'.next
  nextMount := h.nextMount.trans h'.nextMount
  inode d hd := (h'.inode d (hd.trans_le h.next)).trans (h.inode d hd)
  parent d hd := (h'.parent d (hd.trans_le h.next)).trans (h.parent d hd)
  root m hm := (h'.root m (hm.trans_le h.nextMount)).trans (h.root m hm)
  point m hm hP := by
    rw [← h.point m hm hP]
    exact h'.point m (hm.trans_le h.nextMount) (by rwa [h.root m hm])
  child d name c hP hmem hsome := by
    refine h'.child d name c hP (h.child d name c hP hmem hsome) ?_
    rwa [h.inode c (hv.child _ _ _ hmem).1]
  mounts d hP := (h'.mounts d hP).trans (h.mounts d hP)

theorem mono {Q : Nat → Prop} (hsub : ∀ d, Q d → P d) : v.Undisturbed w Q :=
  ⟨h.nodes, h.next, h.nextMount, h.inode, h.parent, h.root, fun m hm hQ => h.point m hm (hsub _ hQ),
    fun d name c hQ => h.child d name c (hsub d hQ), fun d hQ => h.mounts d (hsub d hQ)⟩

theorem stepUp (hv : v.Wf) (hn : v.Valid n) (hP : P n.dentry) :
    w.stepUp root n = v.stepUp root n := by
  have hleave : (if n.dentry = (w.mount n.mount).root then
      (w.mount n.mount).mountPoint.getD n else n) = if n.dentry = (v.mount n.mount).root then
      (v.mount n.mount).mountPoint.getD n else n := by
    rw [h.root _ hn.1]
    split_ifs with hroot
    · rw [h.point _ hn.1 (hroot ▸ hP)]
    · rfl
  unfold Dcache.stepUp
  rw [hleave]
  dsimp only
  rw [h.parent _ (hn.leave hv).2]

theorem linkTarget (hd : d < v.nextDentry) : w.linkTarget d = v.linkTarget d := by
  unfold Dcache.linkTarget
  rw [h.inode d hd, h.nodes]

theorem isDirAt (hn : n.dentry < v.nextDentry) : w.isDirAt n = v.isDirAt n := by
  unfold Dcache.isDirAt
  rw [h.inode _ hn, h.nodes]

theorem enter (hv : v.Wf) (hP : P d) : w.enter n d = v.enter n d := by
  unfold Dcache.enter
  rw [h.mounts d hP]
  cases hlast : (v.dentry d).mounts.getLast? with
  | none => rfl
  | some m =>
    dsimp only
    rw [h.root m (hv.mounted d m (mem_of_getLast? hlast)).1]

theorem lookupChild (hw : w.Wf) {c : Nat} {name : Name} (hP : P d)
    (hc : v.lookupChild d name = some c) (hsome : (v.getInode c).isSome = true) :
    w.lookupChild d name = some c :=
  DEntry.lookupChild_of_mem (hw.names d) (h.child d name c hP (DEntry.mem_of_lookupChild hc) hsome)

end Undisturbed

/-! ### A lookup leaves its route in the cache -/

/-- A walk from `v` filled the cache, and in every heap that has as much the route is there. -/
structure Leads (v : Dcache) (walked : Walked) (route : Dcache → Option Route) : Prop where
  grown : v.Grown walked.2
  valid : ∀ n k, walked.1 = .ok (n, k) → walked.2.Valid n
  routed : ∀ n k, walked.1 = .ok (n, k) → ∀ w, walked.2.Grown w →
    ∃ stops, route w = some ⟨n, k, stops⟩

theorem leads_error {e : Errno} {route : Dcache → Option Route} (h : v.Grown w) :
    v.Leads (.error e, w) route where
  grown := h
  valid _ _ hok := by cases hok
  routed _ _ hok := by cases hok

theorem resolve_ok {d c : Nat} {name : Name} (hd : d < v.nextDentry)
    (h : (v.resolve d name).1 = .ok c) : (name, c) ∈ ((v.resolve d name).2.dentry d).children ∧
      ((v.resolve d name).2.getInode c).isSome = true := by
  unfold resolve at h ⊢
  cases hchild : v.lookupChild d name with
  | some e =>
    rw [hchild] at h
    dsimp only at h ⊢
    by_cases hnone : (v.getInode e).isNone = true
    · rw [if_pos hnone] at h
      cases h
    · rw [if_neg hnone] at h ⊢
      cases h
      refine ⟨DEntry.mem_of_lookupChild hchild, ?_⟩
      rw [isSome_iff_ne_none]
      exact fun heq => hnone (isNone_iff_eq_none.mpr heq)
  | none =>
    rw [hchild] at h
    cases hino : v.getInode d with
    | none =>
      rw [hino] at h
      cases h
    | some i =>
      rw [hino] at h
      dsimp only at h ⊢
      cases hlookup : v.nodes.lookup i name with
      | ok child =>
        rw [hlookup] at h
        cases h
        refine ⟨mem_newChild_self hd, ?_⟩
        rw [getInode_newChild hd, if_pos rfl]
        rfl
      | error e =>
        rw [hlookup] at h
        cases e <;> cases h

theorem Leads.next {walked : Walked} {route route' : Dcache → Option Route} {v' : Dcache}
    (h : v'.Leads walked route) (hgrown : v.Grown v')
    (hroute : ∀ w, walked.2.Grown w → ∀ r, route w = some r →
      ∃ stops, route' w = some { r with stops := stops }) : v.Leads walked route' where
  grown := hgrown.trans h.grown
  valid := h.valid
  routed n k hok w hw := by
    obtain ⟨stops, hr⟩ := h.routed n k hok w hw
    exact hroute w hw _ hr

theorem leads_walk {follow : Follow} {followR : Dcache → PathNode → List Char → Nat → Option Route}
    (hfollow : ∀ (v : Dcache) n target k, v.Wf → v.Valid root → v.Valid n →
      v.Leads (follow v n target k) fun w => followR w n target k)
    (comps : List Name) (hv : v.Wf) (hroot : v.Valid root) (hn : v.Valid n) (k : Nat) :
    v.Leads (walk follow root false comps v n k)
      fun w => w.walkRoute root (followR w) comps n k := by
  induction comps generalizing v n k with
  | nil =>
    refine ⟨.refl hv, ?_, ?_⟩
    · intro n' k' hok
      cases hok
      exact hn
    · intro n' k' hok w _
      cases hok
      exact ⟨_, rfl⟩
  | cons comp rest ih =>
    by_cases hdot : comp = dot
    · rw [walk, if_pos hdot]
      refine (ih hv hroot hn k).next (.refl hv) ?_
      intro w _ r hr
      rw [walkRoute, if_pos hdot]
      exact ⟨_, hr⟩
    by_cases hdotDot : comp = dotDot
    · rw [walk, if_neg hdot, if_pos hdotDot]
      have hleads := ih hv hroot (hn.stepUp hv root) k
      refine hleads.next (.refl hv) ?_
      intro w hw r hr
      have hsame := (hleads.grown.trans hw).undisturbed hv fun _ => True
      rw [walkRoute, if_neg hdot, if_pos hdotDot, hsame.stepUp hv hn trivial, hr]
      exact ⟨_, rfl⟩
    rw [walk, if_neg hdot, if_neg hdotDot]
    obtain ⟨hext, hwf, hok⟩ := resolve_spec hv hn.2 comp
    have hgrown := grown_resolve hv hn.2 comp
    have hpresent := fun c => @resolve_ok v n.dentry c comp hn.2
    generalize v.resolve n.dentry comp = out at hext hwf hok hgrown hpresent
    obtain ⟨r, v'⟩ := out
    cases r with
    | error e => exact leads_error hgrown
    | ok d =>
      obtain ⟨hd, -, -⟩ := hok d rfl
      obtain ⟨hmem, hsome⟩ := hpresent d rfl
      have hn' := hext.valid hn
      -- The step is in every heap that has grown from here.
      have hstep : ∀ w, v'.Grown w → w.lookupChild n.dentry comp = some d ∧
          (w.getInode d).isNone = false ∧ w.linkTarget d = v'.linkTarget d ∧
          w.enter n d = v'.enter n d := by
        intro w hw
        have hsame := hw.undisturbed hwf fun _ => True
        refine ⟨DEntry.lookupChild_of_mem (hw.wf.names _)
          (hsame.child _ _ _ trivial hmem hsome), ?_, hsame.linkTarget hd,
          hsame.enter hwf trivial⟩
        rw [hsame.inode d hd, ← not_isSome, hsome]
        rfl
      dsimp only
      rw [filter_follow]
      cases htarget : v'.linkTarget d with
      | none =>
        have hleads := ih hwf (hext.valid hroot) (hn'.enter hwf hd) k
        refine hleads.next hgrown ?_
        intro w hw r hr
        obtain ⟨hchild, hino, hlink, henter⟩ := hstep w (hleads.grown.trans hw)
        rw [walkRoute, if_neg hdot, if_neg hdotDot, hchild]
        dsimp only
        rw [hino, hlink, htarget, henter, hr]
        exact ⟨_, rfl⟩
      | some target =>
        dsimp only
        by_cases hlimit : maxSymlinkDepth < k + 1
        · rw [if_pos hlimit]
          exact leads_error hgrown
        rw [if_neg hlimit]
        by_cases hempty : target = []
        · rw [if_pos hempty]
          exact leads_error hgrown
        rw [if_neg hempty]
        have hlink := hfollow v' n target (k + 1) hwf (hext.valid hroot) hn'
        generalize follow v' n target (k + 1) = out at hlink
        obtain ⟨r, v''⟩ := out
        have hgrown' := hlink.grown
        cases r with
        | error e => exact leads_error (hgrown.trans hgrown')
        | ok out =>
          have hleads := ih hgrown'.wf (hgrown'.ext.valid (hext.valid hroot))
            (hlink.valid out.1 out.2 rfl) out.2
          refine hleads.next (hgrown.trans hgrown') ?_
          intro w hw r hr
          obtain ⟨stops, hfollowed⟩ := hlink.routed out.1 out.2 rfl w (hleads.grown.trans hw)
          obtain ⟨hchild, hino, hlinkTarget, -⟩ := hstep w (hgrown'.trans (hleads.grown.trans hw))
          have hgoes : ¬ (maxSymlinkDepth < k + 1 ∨ target = []) := by
            rintro (h | h)
            · exact hlimit h
            · exact hempty h
          rw [walkRoute, if_neg hdot, if_neg hdotDot, hchild]
          dsimp only
          rw [hino, hlinkTarget, htarget]
          dsimp only
          rw [if_neg hgoes, hfollowed]
          dsimp only
          rw [hr]
          exact ⟨_, rfl⟩

theorem leads_route (fuel : Nat) {start : PathNode} {path : List Char} {k : Nat} (hv : v.Wf)
    (hroot : v.Valid root) (hstart : v.Valid start) :
    v.Leads (lookupInner root fuel v start path false k)
      fun w => w.route root fuel start path k := by
  induction fuel generalizing v start path k with
  | zero => exact leads_error (.refl hv)
  | succ fuel ih =>
    have hcurrent : v.Valid (if startsWithSlash path then root else start) := by
      split_ifs
      · exact hroot
      · exact hstart
    have hleads := leads_walk @ih (components path) hv hroot hcurrent k
    unfold lookupInner
    rw [Bool.false_and]
    dsimp only
    generalize walk (fun v current target depth =>
      lookupInner root fuel v current target false depth) root false (components path) v
        (if startsWithSlash path then root else start) k = out at hleads
    obtain ⟨r, v'⟩ := out
    cases r with
    | error e => exact leads_error hleads.grown
    | ok out =>
      have hvalid := hleads.valid out.1 out.2 rfl
      -- The test at the end is the same in every heap that has grown from here.
      have hroute : endsWithSlash path = false ∨ v'.isDirAt out.1 = true →
          v.Leads (.ok out, v') fun w => w.route root (fuel + 1) start path k := by
        intro hend
        refine hleads.next (.refl hv) ?_
        intro w hw r hr
        obtain ⟨stops, hr'⟩ := hleads.routed out.1 out.2 rfl w hw
        rw [hr'] at hr
        cases hr
        refine ⟨stops, ?_⟩
        unfold route
        rw [hr', filter_some, if_pos]
        rcases hend with hend | hend
        · rw [hend]
          rfl
        · rw [(hw.undisturbed hleads.grown.wf fun _ => True).isDirAt hvalid.2, hend, Bool.or_true]
      dsimp only [checkSlash]
      by_cases hslash : endsWithSlash path = true
      · rw [if_pos hslash]
        cases hino : v'.getInode out.1.dentry with
        | none => exact leads_error hleads.grown
        | some ino =>
          dsimp only
          by_cases hdir : v'.nodes.isDir ino = true
          · rw [if_pos hdir]
            refine hroute (.inr ?_)
            rw [isDirAt, hino]
            exact hdir
          · rw [if_neg hdir]
            exact leads_error hleads.grown
      · rw [if_neg hslash]
        exact hroute (.inl (Bool.eq_false_iff.mpr hslash))

/-! ### Lookups along a route -/

/-- The nodes on a route are where they were, or where `f` says. -/
structure Shows (v w : Dcache) (root : PathNode) (S : List Stop) (f : PathNode → PathNode) :
    Prop where
  nodes : w.nodes = v.nodes
  top : f root = root
  same : ∀ n, Stop.passed n.dentry ∈ S → f n = n
  inode : ∀ d, d < v.nextDentry → w.getInode d = v.getInode d
  up : ∀ n, v.Valid n → Stop.passed n.dentry ∈ S → w.stepUp root n = v.stepUp root n
  child : ∀ d name c, Stop.passed d ∈ S → v.lookupChild d name = some c →
    (v.getInode c).isSome = true → w.lookupChild d name = some c
  enter : ∀ n d, d < v.nextDentry → v.stopAt d ∈ S → w.enter n d = f (v.enter n d)
  dir : ∀ n, v.Valid n → v.isDirAt n = true → w.isDirAt (f n) = true

theorem Route.after_eq {stops : List Stop} {o : Option Route} {r : Route}
    (h : o.map (after stops) = some r) :
    ∃ stops', o = some { r with stops := stops' } ∧ r.stops = stops ++ stops' := by
  obtain ⟨r', hr', rfl⟩ := map_eq_some_iff.mp h
  exact ⟨r'.stops, hr', rfl⟩

namespace Shows

variable {S : List Stop} {f : PathNode → PathNode} {start : PathNode}

theorem linkTarget (h : v.Shows w root S f) {d : Nat} (hd : d < v.nextDentry) :
    w.linkTarget d = v.linkTarget d := by
  unfold Dcache.linkTarget
  rw [h.inode d hd, h.nodes]

/-- With the directory among the stops, the name is resolved as before. -/
theorem resolve (h : v.Shows w root S f) {n : PathNode} {comp : Name} {d : Nat}
    (hpassed : Stop.passed n.dentry ∈ S) (hchild : v.lookupChild n.dentry comp = some d)
    (hd : d < v.nextDentry) (hsome : ¬ (v.getInode d).isNone = true) :
    w.resolve (f n).dentry comp = (.ok d, w) := by
  unfold Dcache.resolve
  rw [h.same n hpassed, h.child _ _ _ hpassed hchild (by simpa [isSome_iff_ne_none] using hsome)]
  dsimp only
  rw [h.inode d hd, if_neg hsome]

theorem walk {follow : PathNode → List Char → Nat → Option Route} {follow' : Follow}
    (h : v.Shows w root S f) (hv : v.Wf)
    (hfollow : ∀ n target k r, v.Valid n → f n = n → follow n target k = some r → r.stops ⊆ S →
      follow' w n target k = (.ok (f r.node, r.depth), w) ∧ v.Valid r.node)
    (comps : List Name) {n : PathNode} {k : Nat} {r : Route} (hn : v.Valid n)
    (hr : v.walkRoute root follow comps n k = some r) (hstops : r.stops ⊆ S) :
    Dcache.walk follow' root false comps w (f n) k = (.ok (f r.node, r.depth), w) ∧
      v.Valid r.node := by
  fun_induction walkRoute v root follow comps n k generalizing r with
  | case1 =>
    cases hr
    exact ⟨rfl, hn⟩
  | case2 rest n k ih =>
    rw [Dcache.walk, if_pos rfl]
    exact ih hn hr hstops
  | case3 rest n k hdot ih =>
    obtain ⟨stops, hrest, heq⟩ := Route.after_eq hr
    rw [heq] at hstops
    have hpassed : Stop.passed n.dentry ∈ S := hstops (by simp)
    have hup : Stop.passed (v.stepUp root n).dentry ∈ S := hstops (by simp)
    have hend := ih (hn.stepUp hv root) hrest fun s hs => hstops (by simp [hs])
    rw [Dcache.walk, if_neg hdot, if_pos rfl, h.same n hpassed, h.up n hn hpassed]
    rwa [h.same _ hup] at hend
  | case4 | case5 | case7 | case8 => cases hr
  | case6 comp rest n k hdot hdotDot d hchild hsome htarget ih =>
    obtain ⟨stops, hrest, heq⟩ := Route.after_eq hr
    rw [heq] at hstops
    have hpassed : Stop.passed n.dentry ∈ S := hstops (by simp)
    have hd := (hv.child _ _ _ (DEntry.mem_of_lookupChild hchild)).1
    have hend := ih (hn.enter hv hd) hrest fun s hs => hstops (by simp [hs])
    rw [Dcache.walk, if_neg hdot, if_neg hdotDot, h.resolve hpassed hchild hd hsome]
    dsimp only
    rw [h.linkTarget hd, htarget, h.same n hpassed, h.enter n d hd (hstops (by simp))]
    exact hend
  | case9 comp rest n k hdot hdotDot d hchild hsome target htarget hgoes r' hfollowed ih =>
    obtain ⟨hlimit, hempty⟩ := not_or.mp hgoes
    obtain ⟨stops, hrest, heq⟩ := Route.after_eq hr
    rw [heq] at hstops
    have hpassed : Stop.passed n.dentry ∈ S := hstops (by simp)
    have hd := (hv.child _ _ _ (DEntry.mem_of_lookupChild hchild)).1
    obtain ⟨hto, hvalid⟩ := hfollow n target (k + 1) r' hn (h.same n hpassed)
      hfollowed fun s hs => hstops (by simp [hs])
    have hend := ih hvalid hrest fun s hs => hstops (by simp [hs])
    rw [Dcache.walk, if_neg hdot, if_neg hdotDot, h.resolve hpassed hchild hd hsome]
    dsimp only
    rw [h.linkTarget hd, filter_follow, htarget]
    dsimp only
    rw [if_neg hlimit, if_neg hempty, h.same n hpassed, hto]
    exact hend

/-- A lookup sets out from a node that `f` leaves alone. -/
theorem setsOut (h : v.Shows w root S f) (hroot : v.Valid root)
    (hstart : v.Valid start) (hf : f start = start) (path : List Char) :
    v.Valid (if startsWithSlash path then root else start) ∧
      f (if startsWithSlash path then root else start) =
        if startsWithSlash path then root else start := by
  split_ifs
  · exact ⟨hroot, h.top⟩
  · exact ⟨hstart, hf⟩

theorem lookupInner (h : v.Shows w root S f) (hv : v.Wf) (hroot : v.Valid root) (fuel : Nat)
    {path : List Char} {k : Nat} {r : Route} (hstart : v.Valid start)
    (hf : f start = start) (hr : v.route root fuel start path k = some r) (hstops : r.stops ⊆ S) :
    lookupInner root fuel w start path false k = (.ok (f r.node, r.depth), w) ∧
      v.Valid r.node := by
  induction fuel generalizing start path k r with
  | zero => cases hr
  | succ fuel ih =>
    obtain ⟨hwalk, hslash⟩ := filter_eq_some_iff.mp hr
    have hcurrent := h.setsOut hroot hstart hf path
    obtain ⟨hend, hvalid⟩ := @walk _ _ _ S f _ (fun v n target k =>
      lookupInner root fuel v n target false k) h hv
      (fun _ _ _ _ => ih) (components path) _ k r hcurrent.1
      hwalk hstops
    rw [hcurrent.2] at hend
    refine ⟨?_, hvalid⟩
    unfold lookupInner
    rw [Bool.false_and]
    dsimp only
    rw [hend]
    dsimp only [checkSlash]
    by_cases hends : endsWithSlash path = true
    · rw [hends] at hslash
      obtain ⟨ino, hino, hdir⟩ := (any_eq_true _ _).mp (h.dir _ hvalid hslash)
      rw [if_pos hends, hino]
      dsimp only
      rw [if_pos hdir]
    · rw [if_neg hends]

variable (h : v.Shows w root S f) (hv : v.Wf) (hroot : v.Valid root) {start : PathNode}
  {path : List Char} {r : Route} (hstart : v.Valid start) (hf : f start = start)
  (hpath : path ≠ []) (hr : v.route root (maxSymlinkDepth + 1) start path 0 = some r)
  (hstops : r.stops ⊆ S)

include h hv hroot hstart hf hpath hr hstops

/-- A lookup along the route ends where `f` says. -/
theorem lookup (hdir : v.isDirAt r.node = true) (directory : Bool) :
    w.lookup root start path ⟨false, directory⟩ = (.ok (f r.node), w) := by
  obtain ⟨hend, hvalid⟩ := h.lookupInner hv hroot _ hstart hf hr hstops
  obtain ⟨ino, hino, hdir⟩ := (any_eq_true _ _).mp (h.dir _ hvalid hdir)
  unfold Dcache.lookup
  rw [if_neg hpath, hend]
  cases directory with
  | false => rfl
  | true => simp only [if_true, hino, hdir]

/-- With `..` behind the path, the lookup goes up from there. -/
theorem lookup_up : w.lookup root start (path ++ ['/', '.', '.']) ⟨false, false⟩ =
      (.ok (w.stepUp root (f r.node)), w) := by
  have hstarts : startsWithSlash (path ++ ['/', '.', '.']) = startsWithSlash path := by
    cases path with
    | nil => exact absurd rfl hpath
    | cons c cs => rfl
  have hends : endsWithSlash (path ++ ['/', '.', '.']) = false := by
    simp [endsWithSlash]
  have hcurrent := h.setsOut hroot hstart hf path
  have hend := (@walk _ _ _ S f _ (fun v n target k =>
    Dcache.lookupInner root maxSymlinkDepth v n target false k) h hv
    (fun _ _ _ _ => h.lookupInner hv hroot _) (components path) _
    0 r hcurrent.1 (filter_eq_some_iff.mp hr).1 hstops).1
  rw [hcurrent.2] at hend
  unfold Dcache.lookup
  rw [if_neg (by simp)]
  unfold Dcache.lookupInner
  rw [components_up, hstarts, Bool.false_and]
  dsimp only
  rw [walk_append, hend]
  simp only [Dcache.walk, checkSlash, hends, dot]
  rfl

end Shows

/-! ### Where one dentry is covered -/

def Stop.dentry : Stop → Nat
  | .passed d | .entered d => d

/-- A route ends at a dentry it does not pass. Nothing has changed on it, except perhaps what is
mounted there. -/
theorem Undisturbed.shows {S : List Stop} {t : Nat} {dest : PathNode → PathNode}
    (h : v.Undisturbed w fun d => d ∈ S.map Stop.dentry ∧ d ≠ t ∧ d < v.nextDentry)
    (hv : v.Wf) (hw : w.Wf) (ht : Stop.passed t ∉ S) (hnot : ¬ v.IsRoot t) (hroot : root.dentry ≠ t)
    (hdest : (v.dentry t).mounts = [] → ∀ n, w.enter n t = dest ⟨n.mount, t⟩)
    (hdir : ∀ n, v.Valid n → n.dentry = t → v.isDirAt n = true → w.isDirAt (dest n) = true) :
    v.Shows w root S fun n => if n.dentry = t then dest n else n := by
  have hpassed : ∀ d < v.nextDentry, Stop.passed d ∈ S →
      d ∈ S.map Stop.dentry ∧ d ≠ t ∧ d < v.nextDentry := by
    intro d hlt hd
    refine ⟨mem_map.mpr ⟨_, hd, rfl⟩, ?_, hlt⟩
    intro heq
    exact ht (heq ▸ hd)
  refine ⟨h.nodes, if_neg hroot, ?_, h.inode, ?_, ?_, ?_, ?_⟩
  · intro n hn
    refine if_neg ?_
    intro heq
    exact ht (heq ▸ hn)
  · intro n hn hP
    exact h.stepUp hv hn (hpassed _ hn.2 hP)
  · intro d name c hd hc hsome
    have hlt := hv.lt_of_mem (DEntry.mem_of_lookupChild hc)
    exact h.lookupChild hw (hpassed _ hlt hd) hc hsome
  · intro n d hlt hstop
    by_cases heq : d = t
    · -- Nothing was mounted there, or it would have been passed.
      subst heq
      have hnone : (v.dentry d).mounts = [] := by
        by_contra hmounts
        rw [stopAt, if_neg hmounts] at hstop
        exact ht hstop
      have henter : v.enter n d = ⟨n.mount, d⟩ := by
        unfold Dcache.enter
        rw [hnone]
        rfl
      rw [henter, if_pos rfl]
      exact hdest hnone n
    · have hway : d ∈ S.map Stop.dentry := by
        refine mem_map.mpr ⟨_, hstop, ?_⟩
        unfold stopAt
        split_ifs <;> rfl
      rw [h.enter hv ⟨hway, heq, hlt⟩]
      refine (if_neg ?_).symm
      unfold Dcache.enter
      cases hlast : (v.dentry d).mounts.getLast? with
      | none => exact heq
      | some m =>
        intro hroot
        exact hnot ⟨m, (hv.mounted d m (mem_of_getLast? hlast)).1, hroot⟩
  · intro n hn hisDir
    split_ifs with heq
    · exact hdir n hn heq hisDir
    · rw [h.isDirAt hn.2]
      exact hisDir

end Dcache

end Petra.Vfs
