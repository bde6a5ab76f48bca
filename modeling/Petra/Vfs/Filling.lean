import Petra.Vfs.Lookup

/-! # What lookups add to the cache

A lookup changes nothing but the tables of children. What it adds is what the directories say.
-/

namespace Petra.Vfs

namespace Nodes

variable {n : Nodes} {dir ino : Nat} {name : Name}

theorem mem_of_entry (h : n.entry dir name = some ino) : (name, ino) ∈ n.entries dir := by
  obtain ⟨e, he, rfl⟩ := Option.map_eq_some_iff.mp h
  have hname : e.1 = name := by simpa using List.find?_some he
  subst hname
  exact List.mem_of_find?_eq_some he

theorem lookup_eq_ok : n.lookup dir name = .ok ino ↔
    n.isDir dir = true ∧ n.entry dir name = some ino := by
  unfold lookup
  by_cases hdir : n.isDir dir = true
  · cases n.entry dir name <;> simp [hdir]
  · simp [hdir]

theorem lookup_eq_noent : n.lookup dir name = .error .ENOENT ↔
    n.isDir dir = true ∧ n.entry dir name = none := by
  unfold lookup
  by_cases hdir : n.isDir dir = true
  · cases n.entry dir name <;> simp [hdir]
  · simp [hdir]

end Nodes

namespace Dcache

variable {v v' : Dcache} {root : PathNode} {d c : Nat} {name : Name}

/-- A cached entry says what the directory says. -/
def Matches (v : Dcache) (d : Nat) (name : Name) (c : Nat) : Prop :=
  ∃ i, v.getInode d = some i ∧ v.nodes.isDir i = true ∧ v.getInode c = v.nodes.entry i name

/-- More of the file system is cached. -/
structure Grown (v v' : Dcache) : Prop where
  ext : v.Extends v'
  wf : v'.Wf
  alive : ∀ d, v.alive d = true → v'.alive d = true
  kept : ∀ d name c, (name, c) ∈ (v.dentry d).children → c < v.nextDentry →
    (v.getInode c).isSome = true → (name, c) ∈ (v'.dentry d).children
  new : ∀ d name c, (name, c) ∈ (v'.dentry d).children →
    (name, c) ∈ (v.dentry d).children ∨ v.nextDentry ≤ c ∧ v'.Matches d name c
  inode : ∀ d ino, v.nextDentry ≤ d → v'.getInode d = some ino →
    v.getInode d = some ino ∨ ∃ dir name, v.nodes.entry dir name = some ino

/-- The entries for older dentries were there before. -/
theorem Grown.old (h : v.Grown v')
    (hmem : (name, c) ∈ (v'.dentry d).children) (hc : c < v.nextDentry) :
    (name, c) ∈ (v.dentry d).children := by
  rcases h.new d name c hmem with hold | ⟨hnew, -⟩
  · exact hold
  · exact absurd hc (Nat.not_lt_of_le hnew)

theorem Grown.refl (h : v.Wf) : v.Grown v :=
  ⟨.refl v, h, fun _ hd => hd, fun _ _ _ hmem _ _ => hmem, fun _ _ _ hmem => .inl hmem,
    fun _ _ _ hino => .inl hino⟩

theorem Matches.mono (h : v.Matches d name c) (hext : v.Extends v')
    (hd : d < v.nextDentry) (hc : c < v.nextDentry) : v'.Matches d name c := by
  obtain ⟨i, hi, hdir, hchild⟩ := h
  refine ⟨i, ?_, ?_, ?_⟩
  · rw [hext.getInode hd]
    exact hi
  · rw [hext.nodes]
    exact hdir
  · rw [hext.getInode hc, hext.nodes]
    exact hchild

/-- A dentry with children is one of the heap. -/
theorem Wf.lt_of_mem (h : v.Wf) {e : Name × Nat} (hmem : e ∈ (v.dentry d).children) :
    d < v.nextDentry := by
  by_contra hlarge
  rw [(h.fresh d (Nat.le_of_not_lt hlarge)).1] at hmem
  cases hmem

theorem Grown.trans {v'' : Dcache} (h : v.Grown v') (h' : v'.Grown v'') : v.Grown v'' where
  ext := h.ext.trans h'.ext
  wf := h'.wf
  alive d hd := h'.alive d (h.alive d hd)
  kept d name c hmem hc hsome :=
    h'.kept d name c (h.kept d name c hmem hc hsome) (hc.trans_le h.ext.next)
      (by rwa [h.ext.getInode hc])
  new d name c hmem := by
    rcases h'.new d name c hmem with hold | ⟨hnew, hmatches⟩
    · rcases h.new d name c hold with hold' | ⟨hnew, hmatches⟩
      · exact .inl hold'
      · exact .inr ⟨hnew, hmatches.mono h'.ext (h.wf.lt_of_mem hold) (h.wf.child _ _ _ hold).1⟩
    · exact .inr ⟨h.ext.next.trans hnew, hmatches⟩
  inode d ino hd hino := by
    by_cases hold : d < v'.nextDentry
    · rw [h'.ext.getInode hold] at hino
      exact h.inode d ino hd hino
    · rcases h'.inode d ino (Nat.le_of_not_lt hold) hino with hino' | hentry
      · exact h.inode d ino hd hino'
      · exact .inr (h.ext.nodes ▸ hentry)

theorem grown_newChild (h : v.Wf) {d i : Nat} (hd : d < v.nextDentry)
    (hnone : v.lookupChild d name = none) (hi : v.getInode d = some i)
    (hdir : v.nodes.isDir i = true) : v.Grown (v.newChild d name (v.nodes.entry i name)) := by
  have hext := @extends_newChild v d name (v.nodes.entry i name) hd h
  refine ⟨hext, h.newChild hd, ?_, ?_, ?_, ?_⟩
  · intro d' halive
    by_cases hnew : d' = v.nextDentry
    · subst hnew
      exact Function.update_self _ _ _
    · exact (Function.update_of_ne hnew _ _).trans halive
  · intro d' name' c hmem _ hsome
    refine mem_newChild_of_present hd h hmem hsome ?_
    intro hself hname
    subst hself hname
    rw [lookupChild, DEntry.lookupChild_of_mem (h.names d') hmem] at hnone
    cases hnone
  · intro d' name' c hmem
    rcases children_newChild hd hmem with ⟨rfl, rfl, rfl⟩ | hold
    · refine .inr ⟨le_rfl, i, ?_, hdir, ?_⟩
      · rw [getInode_newChild hd, if_neg hd.ne]
        exact hi
      · rw [getInode_newChild hd, if_pos rfl]
        rfl
    · exact .inl hold
  · intro d' j _ hj
    rw [getInode_newChild hd] at hj
    split_ifs at hj
    · exact .inr ⟨i, name, hj⟩
    · exact .inl hj

theorem grown_resolve (h : v.Wf) (hd : d < v.nextDentry) (name : Name) :
    v.Grown (v.resolve d name).2 := by
  unfold resolve
  cases hchild : v.lookupChild d name with
  | some c =>
    dsimp only
    split <;> exact .refl h
  | none =>
    cases hino : v.getInode d with
    | none => exact .refl h
    | some i =>
      dsimp only
      cases hlookup : v.nodes.lookup i name with
      | ok child =>
        obtain ⟨hdir, hentry⟩ := Nodes.lookup_eq_ok.mp hlookup
        have hgrown := grown_newChild h hd hchild hino hdir
        rwa [hentry] at hgrown
      | error e =>
        cases e with
        | ENOENT =>
          obtain ⟨hdir, hentry⟩ := Nodes.lookup_eq_noent.mp hlookup
          have hgrown := grown_newChild h hd hchild hino hdir
          rwa [hentry] at hgrown
        | _ => exact .refl h

/-- A lookup fills the cache and returns a node of the heap. -/
theorem grown_lookup (h : v.Wf) (hroot : v.Valid root) {start : PathNode} (hstart : v.Valid start)
    (path : List Char) (flags : LookupFlags) : v.Grown (v.lookup root start path flags).2 ∧
      ∀ n, (v.lookup root start path flags).1 = .ok n →
        (v.lookup root start path flags).2.Valid n := by
  have hkept := @kept_lookup v root v.Grown (fun w => w.Valid)
    (fun w n hw hn => hn.stepUp hw.wf root) (by
      intro w n name hw hn
      obtain ⟨hext, hwf, hok⟩ := resolve_spec hw.wf hn.2 name
      refine ⟨hw.trans (grown_resolve hw.wf hn.2 name), fun n' hn' => hext.valid hn', ?_⟩
      intro c hc
      exact (hext.valid hn).enter hwf (hok c hc).1)
    (fun w hw => hw.ext.valid hroot) start path flags (.refl h) hstart
  exact ⟨hkept.1, hkept.2.2⟩

end Dcache

end Petra.Vfs
