import Petra.Vfs.Filling
import Petra.Vfs.Ops

/-! # What the operations come to

An operation that fails has at most filled the cache. One that succeeds has also changed the
directories and patched the entries it worked on.
-/

namespace Petra.Vfs.Dcache

open Base
open Call (Ensures Keeps)

variable {v v' : Dcache} {root start : PathNode} {path : List Char} {access : Access}
  {fault : Option Errno}

/-- These operations do not panic. -/
def NoPanic : Panic → Prop := fun _ => False

section Parts

variable {v₀ : Dcache} {α β : Type}

/-- A part of an operation that fills the cache, started where `P` holds. -/
def Fills (v₀ : Dcache) (P : Dcache → Prop) (m : Op α) (Q : α → Dcache → Prop) : Prop :=
  m.Ensures (fun v => v₀.Grown v ∧ P v) (fun r v => v₀.Grown v ∧ ∀ a, r = .ok a → Q a v) NoPanic

variable {P : Dcache → Prop} {Q : α → Dcache → Prop} {e : Errno}

theorem Fills.bind {m : Op α} {f : α → Op β}
    {R : β → Dcache → Prop} (hm : Fills v₀ P m Q) (hf : ∀ a, Fills v₀ (Q a) (f a) R) :
    Fills v₀ P (m >>= f) R := by
  refine Ensures.bind (R := fun a v => v₀.Grown v ∧ Q a v) ?_ hf
  refine Ensures.weaken hm (fun _ h => h) ?_
  intro r v hr
  cases r with
  | error e => exact ⟨hr.1, nofun⟩
  | ok a => exact ⟨hr.1, hr.2 a rfl⟩

theorem Fills.pure {a : α} (h : ∀ v, P v → Q a v) : Fills v₀ P (Pure.pure a : Op α) Q := by
  refine Ensures.pure fun v hv => ⟨hv.1, fun b hb => ?_⟩
  cases hb
  exact h v hv.2

theorem Fills.fail : Fills v₀ P (Call.fail e : Op α) Q :=
  Ensures.fail fun _ hv => ⟨hv.1, nofun⟩

/-- A test keeps what is known. -/
theorem Fills.check {test : Bool} :
    Fills v₀ P (Call.check test e : Op Unit) (fun _ v => P v ∧ test = true) := by
  cases test with
  | false => exact Fills.fail
  | true => exact Fills.pure fun v hv => ⟨hv, rfl⟩

theorem Fills.get : Fills v₀ P (Call.get : Op Dcache) (fun s v => P v ∧ v = s) := by
  intro v hv
  exact ⟨hv.1, fun a ha => by cases ha; exact ⟨hv.2, rfl⟩⟩

theorem fills_lookupAt (hroot : v₀.Valid root) (hstart : v₀.Valid start)
    (flags : LookupFlags) (hP : ∀ v v', P v → v.Grown v' → P v') :
    Fills v₀ P (lookupAt root start path flags) (fun n v => P v ∧ v.Valid n) := by
  intro v hv
  obtain ⟨hgrown, hnode⟩ :=
    grown_lookup hv.1.wf (hv.1.ext.valid hroot) (hv.1.ext.valid hstart) path flags
  exact ⟨hv.1.trans hgrown, fun n hn => ⟨hP _ _ hv.2 hgrown, hnode n hn⟩⟩

theorem fills_inodeAt (d : Nat) :
    Fills v₀ P (inodeAt d) (fun ino v => P v ∧ v.getInode d = some ino) := by
  refine Fills.get.bind fun s => ?_
  cases hino : s.getInode d with
  | none => exact Fills.fail
  | some ino =>
    refine Fills.pure fun v hv => ⟨hv.1, ?_⟩
    rw [hv.2, hino]

section

variable (hroot : v₀.Valid root) (hstart : v₀.Valid start) (hP : ∀ v v', P v → v.Grown v' → P v')

include hroot hstart hP

theorem fills_parentForModifyAt : Fills v₀ P (parentForModifyAt root start path access)
      (fun found v => P v ∧ v.Valid found.1 ∧ v.getInode found.1.dentry = some found.2.1) := by
  have hsplit : Fills v₀ P (Call.orFail (splitParent path) : Op (List Char × Name))
      (fun _ => P) := by
    cases splitParent path with
    | error e => exact Fills.fail
    | ok split => exact Fills.pure fun v hv => hv
  have hdir : ∀ dir, Fills v₀ P (directoryAt root start dir) (fun n v => P v ∧ v.Valid n) := by
    intro dir
    refine Ensures.ite (fun _ => ?_) (fun _ => fills_lookupAt hroot hstart _ hP)
    refine Ensures.pure fun v hv => ⟨hv.1, fun a ha => ?_⟩
    cases ha
    exact ⟨hv.2, hv.1.ext.valid hstart⟩
  refine hsplit.bind fun split => (hdir split.1).bind fun parent => ?_
  refine (fills_inodeAt parent.dentry).bind fun ino => Fills.check.bind fun _ => ?_
  exact Fills.pure fun v hv => ⟨hv.1.1.1, hv.1.1.2, hv.1.2⟩

theorem fills_targetAt : Fills v₀ P (targetAt root start path)
      (fun target v => P v ∧ v.Valid target.1 ∧ v.getInode target.1.dentry = some target.2) := by
  refine (fills_lookupAt hroot hstart _ hP).bind fun node => ?_
  refine (fills_inodeAt node.dentry).bind fun ino => ?_
  exact Fills.pure fun v hv => ⟨hv.1.1, hv.1.2, hv.2⟩

end

theorem fills_existsIn (parent : PathNode) (ino : Nat) (name : Name) :
    Fills v₀ P (existsIn parent ino name) (fun found v => P v ∧ (found = false →
      (∀ c, v.lookupChild parent.dentry name = some c → v.getInode c = none) ∧
        v.nodes.lookup ino name = .error .ENOENT)) := by
  refine Fills.get.bind fun s => ?_
  refine Ensures.ite (fun _ => ?_) (fun hcached => ?_)
  · exact Fills.pure fun v hv => ⟨hv.1, nofun⟩
  cases hlookup : s.nodes.lookup ino name with
  | ok j => exact Fills.pure fun v hv => ⟨hv.1, nofun⟩
  | error e =>
    have hnone : ∀ c, s.lookupChild parent.dentry name = some c → s.getInode c = none := by
      intro c hc
      simpa [hc] using hcached
    cases e with
    | ENOENT =>
      refine Fills.pure fun v hv => ⟨hv.1, fun _ => ?_⟩
      rw [hv.2]
      exact ⟨hnone, hlookup⟩
    | _ => exact Fills.fail

theorem fills_checkTarget (hroot : v₀.Valid root) (hstart : v₀.Valid start)
    (driver : Driver) (src : PathNode × Nat) (dir : Nat) (hP : ∀ v v', P v → v.Grown v' → P v') :
    Fills v₀ P (checkTarget driver root start path src dir access) (fun _ => P) := by
  intro v hv
  obtain ⟨hgrown, -⟩ :=
    grown_lookup hv.1.wf (hv.1.ext.valid hroot) (hv.1.ext.valid hstart) path ⟨true, false⟩
  have hall := hv.1.trans hgrown
  have hend := hP _ _ hv.2 hgrown
  -- Whatever it answers, the lookup is all it does to the heap.
  have hrun : ∃ r, checkTarget driver root start path src dir access v =
      .ok (r, (v.lookup root start path ⟨true, false⟩).2) := by
    unfold checkTarget
    generalize v.lookup root start path ⟨true, false⟩ = w
    obtain ⟨r, v'⟩ := w
    cases r with
    | error e => cases e <;> exact ⟨_, rfl⟩
    | ok node =>
      dsimp only
      cases v'.getInode node.dentry with
      | none => exact ⟨_, rfl⟩
      | some dst =>
        dsimp only
        split_ifs <;> exact ⟨_, rfl⟩
  obtain ⟨r, hrun⟩ := hrun
  rw [hrun]
  exact ⟨hall, fun a _ => hend⟩

end Parts

/-! ### Whole operations -/

section Whole

variable {v₀ : Dcache} {α β : Type} {found : PathNode × Nat × Name}

/-- The directory a path names in `v`, and the heap after it was looked up. -/
structure Found (v : Dcache) (root start : PathNode) (path : List Char) (access : Access)
    (found : PathNode × Nat × Name) (v₁ : Dcache) : Prop where
  run : parentForModifyAt root start path access v = .ok (.ok found, v₁)
  grown : v.Grown v₁
  valid : v₁.Valid found.1
  inode : v₁.getInode found.1.dentry = some found.2.1

/-- The test on the directory that an operation finds. -/
def AtFound (v : Dcache) (root start : PathNode) (path : List Char) (access : Access)
    (P : Dcache → PathNode × Nat × Name → Prop) : Prop :=
  match parentForModifyAt root start path access v with
  | .ok (.ok found, v₁) => P v₁ found
  | _ => True

instance (v : Dcache) (root start : PathNode) (path : List Char) (access : Access)
    (P : Dcache → PathNode × Nat × Name → Prop) [∀ v found, Decidable (P v found)] :
    Decidable (AtFound v root start path access P) := by
  unfold AtFound
  split
  · infer_instance
  · infer_instance

theorem Found.of_at {P : Dcache → PathNode × Nat × Name → Prop}
    (hfound : v.Found root start path access found v')
    (h : AtFound v root start path access P) : P v' found := by
  unfold AtFound at h
  rwa [hfound.run] at h

/-- Started where `P` holds, an operation fills the cache, or it succeeds and `R` holds. -/
def Works (v₀ : Dcache) (P : Dcache → Prop) (m : Op α) (R : Dcache → Prop) : Prop :=
  m.Ensures (fun v => v₀.Grown v ∧ P v) (fun _ v => v₀.Grown v ∨ R v) NoPanic

variable {P : Dcache → Prop} {Q : α → Dcache → Prop} {R : Dcache → Prop} {m : Op α} {f : α → Op β}
  {oldStart newStart : PathNode}
  {old new : List Char}

theorem Fills.works (hm : Fills v₀ P m Q) (hf : ∀ a, Works v₀ (Q a) (f a) R) :
    Works v₀ P (m >>= f) R := by
  refine Ensures.bind (R := fun a v => v₀.Grown v ∧ Q a v) ?_ hf
  refine Ensures.weaken hm (fun _ h => h) ?_
  intro r v hr
  cases r with
  | error e => exact .inl hr.1
  | ok a => exact ⟨hr.1, hr.2 a rfl⟩

theorem Fills.end_ (hm : Fills v₀ P m Q) : Works v₀ P m R :=
  Ensures.weaken hm (fun _ h => h) fun _ _ h => .inl h.1

theorem Works.weaken {P P' : Dcache → Prop}
    (h : Works v₀ P m R) (hP : ∀ v, P' v → P v) : Works v₀ P' m R :=
  Ensures.weaken h (fun v hv => ⟨hv.1, hP v hv.2⟩) fun _ _ hr => hr

/-- What is done from a known heap, with the run that does it. -/
theorem Fills.exact (hm : Fills v₀ (fun _ => True) m Q) (hv : v₀.Wf) : Fills v₀ (· = v₀) m
      (fun a v => m v₀ = .ok (.ok a, v) ∧ v₀.Grown v ∧ Q a v) := by
  intro v hstate
  obtain ⟨-, rfl⟩ := hstate
  have hfills := hm v ⟨.refl hv, trivial⟩
  cases hrun : m v with
  | error p =>
    rw [hrun] at hfills
    exact hfills.elim
  | ok out =>
    obtain ⟨r, v'⟩ := out
    rw [hrun] at hfills
    refine ⟨hfills.1, fun a ha => ?_⟩
    cases ha
    exact ⟨rfl, hfills.1, hfills.2 a rfl⟩

/-- Go on from the heap that was reached. -/
theorem Works.rebase (h : ∀ v₁, v₀.Grown v₁ → P v₁ → Works v₁ (· = v₁) m R) : Works v₀ P m R := by
  intro v hv
  have hend := h v hv.1 hv.2 v ⟨.refl hv.1.wf, rfl⟩
  cases hrun : m v with
  | error p => rwa [hrun] at hend
  | ok out =>
    rw [hrun] at hend
    rcases hend with hgrown | hR
    · exact .inl (hv.1.trans hgrown)
    · exact .inr hR

/-- The first thing an operation does. -/
theorem works_found {m : PathNode × Nat × Name → Op α} (hv : v₀.Wf)
    (hroot : v₀.Valid root) (hstart : v₀.Valid start)
    (hm : ∀ found, Works v₀ (v₀.Found root start path access found) (m found) R) :
    Works v₀ (· = v₀) (parentForModifyAt root start path access >>= m) R := by
  have hparent := (@fills_parentForModifyAt root start path access v₀ (fun _ => True) hroot hstart
    (fun _ _ _ _ => trivial)).exact hv
  refine hparent.works fun found => (hm found).weaken fun v h => ?_
  exact ⟨h.1, h.2.1, h.2.2.2.1, h.2.2.2.2⟩

/-- The driver works, and what comes after it is patched in. -/
theorem works_drive {work : Nodes → Except Errno (α × Nodes)}
    (h : ∀ v a n, v₀.Grown v → P v → work v.nodes = .ok (a, n) →
      ∃ r v', f a { v with nodes := n } = .ok (r, v') ∧ R v') :
    Works v₀ P (drive fault work >>= f) R := by
  intro v hv
  have hbind : ∀ m : Op α, (m >>= f) v = Call.bind m f v := fun _ => rfl
  rw [hbind]
  cases fault with
  | some e => exact .inl hv.1
  | none =>
    cases hwork : work v.nodes with
    | error e =>
      have hrun : drive none work v = .ok (.error e, v) := by
        unfold drive
        change Call.bind Call.get _ v = _
        simp only [Call.bind, Call.get, hwork, Call.fail]
      rw [Call.bind, hrun]
      exact .inl hv.1
    | ok out =>
      obtain ⟨a, n⟩ := out
      have hrun : drive none work v = .ok (.ok a, { v with nodes := n }) := by
        unfold drive
        change Call.bind Call.get _ v = _
        simp only [Call.bind, Call.get, hwork]
        rfl
      obtain ⟨r, v', hf, hR⟩ := h v a n hv.1 hv.2 hwork
      rw [Call.bind, hrun]
      dsimp only
      rw [hf]
      exact .inr hR

/-- What `makeAt` did to the heap. -/
def Made (v₀ : Dcache) (root start : PathNode) (path : List Char) (access : Access) (kind : Kind)
    (v : Dcache) : Prop :=
  ∃ found v₁ ino n, v₀.Found root start path access found v₁ ∧
    (∀ c, v₁.lookupChild found.1.dentry found.2.2 = some c → v₁.getInode c = none) ∧
    v₁.nodes.lookup found.2.1 found.2.2 = .error .ENOENT ∧
    v₁.nodes.create found.2.1 found.2.2 kind = .ok (ino, n) ∧
    v = ({ v₁ with nodes := n } : Dcache).patch found.1.dentry found.2.2 (some ino) false

theorem works_makeAt (hv : v₀.Wf) (hroot : v₀.Valid root) (hstart : v₀.Valid start) (kind : Kind) :
    Works v₀ (· = v₀) (makeAt root start path kind access fault)
      (v₀.Made root start path access kind) := by
  refine works_found hv hroot hstart fun found => ?_
  refine (fills_existsIn found.1 found.2.1 found.2.2).works fun exist => ?_
  refine Fills.check.works fun _ => ?_
  refine works_drive fun v ino n _ hP hwork => ⟨.ok ino, _, rfl, ?_⟩
  obtain ⟨⟨hfound, hexist⟩, htest⟩ := hP
  obtain ⟨hcached, hlookup⟩ := hexist (by simpa using htest)
  exact ⟨found, v, ino, n, hfound, hcached, hlookup, hwork, rfl⟩

/-- A test before an operation starts. -/
theorem Works.after_check {test : Bool} {e : Errno} (h : Works v₀ (· = v₀) m R) :
    Works v₀ (· = v₀) (Call.check test e >>= fun _ => m) R :=
  Fills.check.works fun _ => h.weaken fun _ hv => hv.1

section

variable (hv : v₀.Wf) (hroot : v₀.Valid root) (hstart : v₀.Valid start)

include hv hroot hstart

theorem works_createAt : Works v₀ (· = v₀) (createAt root start path access fault)
      (v₀.Made root start path access .other) :=
  (works_makeAt hv hroot hstart .other).after_check.after_check.after_check

theorem works_mkdirAt : Works v₀ (· = v₀) (mkdirAt root start path access fault)
      (v₀.Made root start path access .dir) := by
  refine Works.after_check (Works.after_check ?_)
  refine Ensures.ite (fun _ => ?_) (fun _ => works_makeAt hv hroot hstart .dir)
  have hlook := @fills_lookupAt root start path v₀ (fun _ => True) hroot hstart ⟨false, true⟩
    (fun _ _ _ _ => trivial)
  exact (hlook.bind fun _ => Fills.fail (Q := fun _ _ => True)).end_.weaken fun _ _ => trivial

theorem works_symlinkAt {target : List Char} :
    Works v₀ (· = v₀) (symlinkAt target root start path access fault)
      (v₀.Made root start path access (.symlink target)) :=
  (works_makeAt hv hroot hstart (.symlink target)).after_check

theorem works_mknodAt {type : NodeType} {superuser : Bool} :
    Works v₀ (· = v₀) (mknodAt type superuser root start path access fault)
      (v₀.Made root start path access .other) :=
  (works_makeAt hv hroot hstart .other).after_check.after_check

end

/-- What `linkAt` did to the heap. -/
def Linked (v₀ : Dcache) (root newStart : PathNode) (new : List Char) (access : Access)
    (v : Dcache) : Prop :=
  ∃ ino v₁ found v₂ n, v₀.Grown v₁ ∧ (∃ d, v₁.getInode d = some ino) ∧
    v₁.nodes.isDir ino = false ∧ v₁.Found root newStart new access found v₂ ∧
    (∀ c, v₂.lookupChild found.1.dentry found.2.2 = some c → v₂.getInode c = none) ∧
    v₂.nodes.link found.2.1 found.2.2 ino = .ok ((), n) ∧
    v = ({ v₂ with nodes := n } : Dcache).patch found.1.dentry found.2.2 (some ino) false

theorem works_linkAt {follow : Bool}
    (hroot : v₀.Valid root) (hold : v₀.Valid oldStart) (hnew : v₀.Valid newStart) :
    Works v₀ (· = v₀) (linkAt root oldStart old newStart new follow access fault)
      (v₀.Linked root newStart new access) := by
  have hlook := @fills_lookupAt root oldStart old v₀ (fun _ => True) hroot hold ⟨!follow, false⟩
    (fun _ _ _ _ => trivial)
  refine Works.weaken (P := fun _ => True) (hlook.works fun node => ?_) (fun _ _ => trivial)
  refine (fills_inodeAt node.dentry).works fun ino => Fills.get.works fun s => ?_
  refine Fills.check.works fun _ => Works.rebase fun v₁ hgrown₁ hP => ?_
  obtain ⟨⟨⟨-, hino⟩, rfl⟩, hfile⟩ := hP
  refine works_found hgrown₁.wf (hgrown₁.ext.valid hroot) (hgrown₁.ext.valid hnew) fun found => ?_
  refine Fills.check.works fun _ => (fills_existsIn found.1 found.2.1 found.2.2).works fun exist => ?_
  refine Fills.check.works fun _ => ?_
  refine works_drive fun v _ n _ hP hwork => ⟨.ok (), _, rfl, ?_⟩
  obtain ⟨⟨⟨hfound, -⟩, hexist⟩, htest⟩ := hP
  obtain ⟨hcached, -⟩ := hexist (by simpa using htest)
  exact ⟨ino, v₁, found, v, n, hgrown₁, ⟨_, hino⟩, by simpa using hfile, hfound, hcached, hwork, rfl⟩

/-- The part of a removal that comes before the driver works. -/
structure Located (v₀ : Dcache) (root start : PathNode) (path : List Char) (access : Access)
    (found : PathNode × Nat × Name) (v₁ v : Dcache) : Prop where
  found : v₀.Found root start path access found v₁
  grown : v₁.Grown v

theorem Located.mono {v₁ : Dcache}
    (h : v₀.Located root start path access found v₁ v) (hgrown : v.Grown v') :
    v₀.Located root start path access found v₁ v' := ⟨h.found, h.grown.trans hgrown⟩

/-- What `unlinkAt` did to the heap. -/
def Unlinked (v₀ : Dcache) (root start : PathNode) (path : List Char) (access : Access)
    (v : Dcache) : Prop :=
  ∃ found v₁ v₂ n, v₀.Located root start path access found v₁ v₂ ∧
    v₂.nodes.unlink found.2.1 found.2.2 = .ok ((), n) ∧
    v = ({ v₂ with nodes := n } : Dcache).patch found.1.dentry found.2.2 none false

theorem works_unlinkAt (hv : v₀.Wf) (hroot : v₀.Valid root) (hstart : v₀.Valid start) :
    Works v₀ (· = v₀) (unlinkAt root start path access fault)
      (v₀.Unlinked root start path access) := by
  refine Works.after_check (Works.after_check (Works.after_check ?_))
  refine works_found hv hroot hstart fun found => ?_
  refine Works.weaken (P := fun v => ∃ v₁, v₀.Located root start path access found v₁ v) ?_
    (fun v hfound => ⟨v, hfound, .refl hfound.grown.wf⟩)
  refine (fills_targetAt hroot hstart (fun v v' h hgrown => ?_)).works fun target => ?_
  · obtain ⟨v₁, h⟩ := h
    exact ⟨v₁, h.mono hgrown⟩
  refine Fills.get.works fun s => Fills.check.works fun _ => Fills.check.works fun _ => ?_
  refine works_drive fun v _ n _ hP hwork => ⟨.ok (), _, rfl, ?_⟩
  obtain ⟨v₁, hlocated⟩ := hP.1.1.1.1
  exact ⟨found, v₁, v, n, hlocated, hwork, rfl⟩

/-- What `rmdirAt` did to the heap. -/
def DirRemoved (v₀ : Dcache) (root start : PathNode) (path : List Char) (access : Access)
    (v : Dcache) : Prop :=
  ∃ found v₁ v₂ n, v₀.Located root start path access found v₁ v₂ ∧
    (∀ c, v₁.lookupChild found.1.dentry found.2.2 = some c → (v₁.dentry c).mounts = []) ∧
    v₂.nodes.rmdir found.2.1 found.2.2 = .ok ((), n) ∧
    v = ({ v₂ with nodes := n } : Dcache).patch found.1.dentry found.2.2 none true

theorem works_rmdirAt (hv : v₀.Wf) (hroot : v₀.Valid root) (hstart : v₀.Valid start) :
    Works v₀ (· = v₀) (rmdirAt root start path access fault)
      (v₀.DirRemoved root start path access) := by
  refine works_found hv hroot hstart fun found => ?_
  refine Fills.get.works fun s => Fills.check.works fun _ => ?_
  refine Works.weaken (P := fun v => ∃ v₁, v₀.Located root start path access found v₁ v ∧
    ∀ c, v₁.lookupChild found.1.dentry found.2.2 = some c → (v₁.dentry c).mounts = []) ?_ ?_
  · refine (fills_targetAt hroot hstart (fun v v' h hgrown => ?_)).works fun target => ?_
    · obtain ⟨v₁, h, hfree⟩ := h
      exact ⟨v₁, h.mono hgrown, hfree⟩
    refine Fills.get.works fun s => Fills.check.works fun _ => Fills.check.works fun _ => ?_
    refine works_drive fun v _ n _ hP hwork => ⟨.ok (), _, rfl, ?_⟩
    obtain ⟨v₁, hlocated, hfree⟩ := hP.1.1.1.1
    exact ⟨found, v₁, v, n, hlocated, hfree, hwork, rfl⟩
  · intro v hP
    obtain ⟨⟨hfound, rfl⟩, htest⟩ := hP
    refine ⟨v, ⟨hfound, .refl hfound.grown.wf⟩, fun c hc => ?_⟩
    simpa [hc] using htest

/-- The part of `renameAt` that comes before the driver works. -/
structure Moving (v₀ : Dcache) (driver : Driver) (root oldStart : PathNode) (old : List Char) (newStart : PathNode)
    (new : List Char) (access : Access) (src dst : PathNode × Nat × Name) (node : PathNode × Nat)
    (v₁ v₂ v₃ v : Dcache) : Prop where
  foundSrc : v₀.Found root oldStart old access src v₁
  foundDst : v₁.Found root newStart new access dst v₂
  mount : src.1.mount = dst.1.mount
  target : targetAt root oldStart old v₂ = .ok (.ok node, v₃)
  grownTarget : v₂.Grown v₃
  inode : v₃.getInode node.1.dentry = some node.2
  valid : v₃.Valid node.1
  proceeds : checkTarget driver root newStart new node dst.2.1 access v₃ = .ok (.ok false, v)
  grown : v₃.Grown v
  outside : v.nodes.isDir node.2 = true →
    node.1.dentry ∉ v.ancestors dst.1.dentry dst.1.dentry

/-- What `renameAt` did to the heap. -/
def Renamed (v₀ : Dcache) (driver : Driver) (root oldStart : PathNode) (old : List Char) (newStart : PathNode)
    (new : List Char) (access : Access) (v' : Dcache) : Prop :=
  ∃ src dst node v₁ v₂ v₃ v n,
    v₀.Moving driver root oldStart old newStart new access src dst node v₁ v₂ v₃ v ∧
    v.nodes.rename driver.keepsLinks src.2.1 src.2.2 dst.2.1 dst.2.2 = .ok ((), n) ∧
    v' = (({ v with nodes := n } : Dcache).patch src.1.dentry src.2.2 none true).patch
      dst.1.dentry dst.2.2 (some node.2) true

theorem works_renameAt (hv : v₀.Wf)
    (hroot : v₀.Valid root) (hold : v₀.Valid oldStart) (hnew : v₀.Valid newStart) :
    Works v₀ (· = v₀) (renameAt driver root oldStart old newStart new access fault)
      (v₀.Renamed driver root oldStart old newStart new access) := by
  refine works_found hv hroot hold fun src => Works.rebase fun v₁ hgrown₁ hsrc => ?_
  refine works_found hgrown₁.wf (hgrown₁.ext.valid hroot) (hgrown₁.ext.valid hnew) fun dst => ?_
  refine Works.rebase fun v₂ hgrown₂ hdst => ?_
  have hall := hgrown₁.trans hgrown₂
  refine Fills.check.works fun _ => Works.rebase fun v hgrown hcheck => ?_
  obtain ⟨rfl, hmount⟩ := hcheck
  have htarget := (@fills_targetAt root oldStart old v (fun _ => True) (hall.ext.valid hroot)
    (hall.ext.valid hold) (fun _ _ _ _ => trivial)).exact hall.wf
  refine htarget.works fun node => Works.rebase fun v₃ _ hnode => ?_
  have hall₃ := hall.trans hnode.2.1
  refine Fills.check.works fun _ => Works.rebase fun s _ hstick => ?_
  obtain rfl : v₃ = s := hstick.1.symm
  have hcheck : Fills v₃ (fun _ => True)
      (checkTarget driver root newStart new node dst.2.1 access) (fun _ _ => True) :=
    fills_checkTarget (hall₃.ext.valid hroot) (hall₃.ext.valid hnew) _ _ _ (fun _ _ _ _ => trivial)
  refine (hcheck.exact hall₃.wf).works fun done => ?_
  cases done with
  | true => exact Fills.end_ (Fills.pure (Q := fun _ _ => True) fun _ _ => trivial)
  | false =>
    refine Fills.get.works fun s => Fills.check.works fun _ => ?_
    refine works_drive fun w _ n _ hP hwork => ⟨.ok (), _, rfl, ?_⟩
    obtain ⟨⟨hproceeds, rfl⟩, hoff⟩ := hP
    refine ⟨src, dst, node, v₁, v, v₃, w, n, ?_, hwork, rfl⟩
    refine ⟨hsrc, hdst, by simpa using hmount, hnode.1, hnode.2.1, hnode.2.2.2.2, hnode.2.2.2.1,
      hproceeds.1, hproceeds.2.1, ?_⟩
    intro hdir
    simpa [hdir] using hoff

end Whole

end Petra.Vfs.Dcache
