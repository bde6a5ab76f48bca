import Petra.Ipc.Registry

/-! # Keys and their objects

A key names one object from its creation to its removal, as long as no other call has taken
the key between the look-up of a creation and its insertion, and no removal of a segment runs
a second time.
-/

namespace Petra.Ipc

open Base Function SortedMap

namespace IpcState

/-- The key of a creation is still free, and the segment of a removal is still there. -/
def Uncontested (s : IpcState) : IpcOp → Prop
  | .create call _ _ =>
    match s.calls call with
    | .creating a => s.keys a.key = none
    | _ => True
  | .reap call =>
    match s.calls call with
    | .reaping id obj => s.objects.get? id = some obj
    | _ => True
  | _ => True

instance (s : IpcState) : (op : IpcOp) → Decidable (s.Uncontested op)
  | .create call _ _ => by
    dsimp only [Uncontested]
    split <;> infer_instance
  | .reap call => by
    dsimp only [Uncontested]
    split <;> infer_instance
  | .look .. | .get .. | .check .. | .lookRemoval .. | .remove .. | .loadNattch ..
  | .lookAttach .. | .lookDetach .. | .countAttach .. | .countDetach .. | .forkAttach ..
  | .exitDetach .. => .isTrue trivial

/-- The two tables agree, and every key was given out once. -/
structure Keyed (s : IpcState) : Prop where
  named : ∀ key id, s.keys key = some id →
    key ≠ ipcPrivate ∧ ∃ obj, s.objects.get? id = some obj ∧ (s.heap obj).key = key
  bound : ∀ id obj, s.objects.get? id = some obj → (s.heap obj).key ≠ ipcPrivate →
    s.keys (s.heap obj).key = some id
  old : ∀ id obj, s.objects.get? id = some obj → obj < s.next
  exclusive : ∀ key, key ≠ ipcPrivate →
    s.exclusives key = 0 ∨ s.exclusives key = 1 ∧ s.keys key ≠ none

/-- A set or a queue that a removal has found is there until it is marked. -/
def Kept (s : IpcState) : Prop :=
  ∀ call cred id obj, s.calls call = .removing cred id obj →
    obj < s.next ∧ ((s.heap obj).removed = false → s.objects.get? id = some obj)

/-- A key keeps its object, or the object is removed. -/
def KeysStay (s s' : IpcState) : Prop :=
  ∀ key id, s.keys key = some id →
    s'.keys key = some id ∨ s.objects.get? id ≠ none ∧ s'.objects.get? id = none

theorem KeysStay.of_eq {s s' : IpcState} (h : s'.keys = s.keys) : s.KeysStay s' := by
  intro key id hkey
  rw [h]
  exact .inl hkey

variable {s s' : IpcState} {call obj : Nat} {id : Int} {o : IpcObject} {a : GetArgs}

/-- The tables stay, and the objects keep their keys. -/
structure SameTables (s s' : IpcState) : Prop where
  objects : s'.objects = s.objects
  keys : s'.keys = s.keys
  next : s'.next = s.next
  exclusives : s'.exclusives = s.exclusives
  heap : ∀ obj, (s'.heap obj).key = (s.heap obj).key

theorem sameTables_setCall (s : IpcState) (call : Nat) (c : IpcCall) :
    s.SameTables (s.setCall call c) :=
  ⟨rfl, rfl, rfl, rfl, fun _ => rfl⟩

theorem sameTables_setObject (h : o.key = (s.heap obj).key) : s.SameTables (s.setObject obj o) := by
  refine ⟨rfl, rfl, rfl, rfl, ?_⟩
  intro obj'
  dsimp only [setObject]
  by_cases hobj : obj' = obj
  · rw [hobj, update_self, h]
  · rw [update_of_ne hobj]

theorem SameTables.trans {s'' : IpcState} (h : s.SameTables s') (h' : s'.SameTables s'') :
    s.SameTables s'' where
  objects := h'.objects.trans h.objects
  keys := h'.keys.trans h.keys
  next := h'.next.trans h.next
  exclusives := h'.exclusives.trans h.exclusives
  heap := fun obj => (h'.heap obj).trans (h.heap obj)

/-! ### What creations and removals change -/

section

variable (s : IpcState) (id : Int) (o : IpcObject) (a : GetArgs)

theorem fields_created :
    ((s.insertObject id o).countExclusive a).objects = s.objects.insert id s.next ∧
      ((s.insertObject id o).countExclusive a).heap = update s.heap s.next o ∧
      ((s.insertObject id o).countExclusive a).next = s.next + 1 ∧
      ((s.insertObject id o).countExclusive a).calls = s.calls := by
  unfold countExclusive insertObject bindKey
  split_ifs <;> exact ⟨rfl, rfl, rfl, rfl⟩

theorem keys_created (key : Int) : ((s.insertObject id o).countExclusive a).keys key =
      if key = o.key ∧ o.key ≠ ipcPrivate then some id else s.keys key := by
  have hsame : ((s.insertObject id o).countExclusive a).keys = (s.insertObject id o).keys := by
    unfold countExclusive
    split_ifs <;> rfl
  rw [hsame]
  unfold insertObject bindKey
  by_cases hprivate : o.key = ipcPrivate
  · rw [if_pos hprivate, if_neg (fun h => h.2 hprivate)]
  · rw [if_neg hprivate]
    dsimp only
    rw [update_apply]
    simp only [hprivate, ne_eq, not_false_eq_true, and_true]

theorem exclusives_created (key : Int) : ((s.insertObject id o).countExclusive a).exclusives key =
      if key = a.key ∧ a.exclusive = true then s.exclusives key + 1 else s.exclusives key := by
  have hsame : (s.insertObject id o).exclusives = s.exclusives := by
    unfold insertObject bindKey
    split_ifs <;> rfl
  unfold countExclusive
  by_cases hx : a.exclusive = true
  · rw [if_pos hx]
    dsimp only
    rw [hsame]
    by_cases hkey : key = a.key
    · rw [if_pos ⟨hkey, hx⟩, hkey, update_self]
    · rw [if_neg (fun h => hkey h.1), update_of_ne hkey]
  · rw [if_neg hx, if_neg (fun h => hx h.2), hsame]

end

theorem fields_removeObject (s : IpcState) (id key : Int) :
    (s.removeObject id key).objects = s.objects.erase id ∧ (s.removeObject id key).heap = s.heap ∧
      (s.removeObject id key).next = s.next ∧ (s.removeObject id key).calls = s.calls := by
  unfold removeObject unbindKey
  split_ifs <;> exact ⟨rfl, rfl, rfl, rfl⟩

theorem indexes_removeObject (s : IpcState) (id key key' : Int) :
    (s.removeObject id key).keys key' =
        (if key' = key ∧ key ≠ ipcPrivate then none else s.keys key') ∧
      (s.removeObject id key).exclusives key' =
        if key' = key ∧ key ≠ ipcPrivate then 0 else s.exclusives key' := by
  unfold removeObject unbindKey
  by_cases hprivate : key = ipcPrivate
  · simp only [if_pos hprivate, if_neg (fun h : key' = key ∧ key ≠ ipcPrivate => h.2 hprivate),
      and_self]
  · rw [if_neg hprivate]
    dsimp only
    rw [update_apply, update_apply]
    simp only [hprivate, ne_eq, not_false_eq_true, and_true]

namespace Keyed

theorem of_same (h : s.Keyed) (hsame : s.SameTables s') : s'.Keyed := by
  refine ⟨?_, ?_, ?_, ?_⟩
  · intro key id hkey
    rw [hsame.keys] at hkey
    obtain ⟨hprivate, obj, hobj, hname⟩ := h.named key id hkey
    exact ⟨hprivate, obj, by rw [hsame.objects, hobj], by rw [hsame.heap, hname]⟩
  · intro id obj hobj hkey
    rw [hsame.objects] at hobj
    rw [hsame.heap] at hkey ⊢
    rw [hsame.keys]
    exact h.bound id obj hobj hkey
  · intro id obj hobj
    rw [hsame.objects] at hobj
    rw [hsame.next]
    exact h.old id obj hobj
  · rw [hsame.exclusives, hsame.keys]
    exact h.exclusive

/-- A new object under a free id and a free key. -/
theorem created (h : s.Keyed) {a : GetArgs} {o : IpcObject} (ho : o.key = a.key)
    (hid : s.objects.get? id = none) (hkey : s.keys a.key = none) :
    ((s.insertObject id o).countExclusive a).Keyed := by
  obtain ⟨hobjects, hheap, hnext, -⟩ := fields_created s id o a
  have hkeys := keys_created s id o a
  have hexcl := exclusives_created s id o a
  rw [ho] at hkeys
  generalize (s.insertObject id o).countExclusive a = t at *
  have hsame : ∀ id' obj, s.objects.get? id' = some obj →
      t.objects.get? id' = some obj ∧ t.heap obj = s.heap obj := by
    intro id' obj hobj
    refine ⟨?_, by rw [hheap, update_of_ne (h.old _ _ hobj).ne]⟩
    rw [hobjects, get?_insert_of_ne, hobj]
    rintro rfl
    rw [hid] at hobj
    cases hobj
  refine ⟨?_, ?_, ?_, ?_⟩
  · intro key id' hbound
    rw [hkeys] at hbound
    split_ifs at hbound with hk
    · refine ⟨hk.1 ▸ hk.2, s.next, ?_, ?_⟩
      · rw [hobjects, ← Option.some.inj hbound, get?_insert_self]
      · rw [hheap, update_self, ho, hk.1]
    · obtain ⟨hprivate, obj, hobj, hname⟩ := h.named key id' hbound
      obtain ⟨hobj', hheap'⟩ := hsame id' obj hobj
      exact ⟨hprivate, obj, hobj', by rw [hheap', hname]⟩
  · intro id' obj hobj hname
    rw [hobjects, get?_insert] at hobj
    split_ifs at hobj with hnew
    · rw [hheap, ← Option.some.inj hobj, update_self, ho] at hname ⊢
      rw [hkeys, if_pos ⟨rfl, hname⟩, hnew]
    rw [(hsame id' obj hobj).2] at hname ⊢
    have hbound := h.bound id' obj hobj hname
    rw [hkeys, if_neg, hbound]
    -- The other objects have other keys, as this one was free.
    intro hk
    rw [hk.1, hkey] at hbound
    cases hbound
  · intro id' obj hobj
    rw [hnext]
    rw [hobjects, get?_insert] at hobj
    split_ifs at hobj with hnew
    · rw [← Option.some.inj hobj]
      exact Nat.lt_succ_self _
    · exact (h.old id' obj hobj).trans (Nat.lt_succ_self _)
  · intro key hprivate
    rw [hexcl, hkeys]
    by_cases hk : key = a.key
    · subst hk
      have hzero : s.exclusives a.key = 0 :=
        (h.exclusive _ hprivate).resolve_right fun hone => hone.2 hkey
      have hbound : (if a.key = a.key ∧ a.key ≠ ipcPrivate then some id else s.keys a.key) =
          some id := if_pos ⟨rfl, hprivate⟩
      rw [hbound, hzero]
      split_ifs
      · exact .inr ⟨rfl, Option.some_ne_none _⟩
      · exact .inl rfl
    · rw [if_neg (fun h => hk h.1), if_neg (fun h => hk h.1)]
      exact h.exclusive key hprivate

/-- The object of an id leaves both tables. -/
theorem removed (h : s.Keyed) (hobj : s.objects.get? id = some obj) :
    (s.removeObject id (s.heap obj).key).Keyed := by
  obtain ⟨hobjects, hheap, hnext, -⟩ := fields_removeObject s id (s.heap obj).key
  have hindexes := indexes_removeObject s id (s.heap obj).key
  generalize s.removeObject id (s.heap obj).key = t at *
  have hothers : ∀ id' obj', t.objects.get? id' = some obj' →
      id' ≠ id ∧ s.objects.get? id' = some obj' := by
    intro id' obj' hobj'
    rw [hobjects, get?_erase] at hobj'
    split_ifs at hobj' with hid
    exact ⟨hid, hobj'⟩
  refine ⟨?_, ?_, ?_, ?_⟩
  · intro key id' hbound
    rw [(hindexes key).1] at hbound
    split_ifs at hbound with hkey
    obtain ⟨hprivate, obj', hobj', hname⟩ := h.named key id' hbound
    refine ⟨hprivate, obj', ?_, by rw [hheap, hname]⟩
    -- The id that left has another key.
    have hid : id' ≠ id := by
      rintro rfl
      rw [hobj] at hobj'
      rw [← Option.some.inj hobj'] at hname
      exact hkey ⟨hname.symm, hname ▸ hprivate⟩
    rw [hobjects, get?_erase, if_neg hid, hobj']
  · intro id' obj' hobj' hname
    obtain ⟨hid, hobj'⟩ := hothers id' obj' hobj'
    rw [hheap] at hname ⊢
    have hbound := h.bound id' obj' hobj' hname
    rw [(hindexes _).1, if_neg, hbound]
    rintro ⟨hkey, hprivate⟩
    rw [hkey, h.bound id obj hobj hprivate] at hbound
    exact hid (Option.some.inj hbound).symm
  · intro id' obj' hobj'
    rw [hnext]
    exact h.old id' obj' (hothers id' obj' hobj').2
  · intro key hprivate
    rw [(hindexes key).1, (hindexes key).2]
    split_ifs
    · exact .inl rfl
    · exact h.exclusive key hprivate

end Keyed

/-- A removal unbinds no key but that of its object. -/
theorem Keyed.keysStay_removed (h : s.Keyed) (hobj : s.objects.get? id = some obj) :
    s.KeysStay (s.removeObject id (s.heap obj).key) := by
  intro key id' hbound
  rw [(indexes_removeObject ..).1]
  by_cases hkey : key = (s.heap obj).key ∧ (s.heap obj).key ≠ ipcPrivate
  · have hid : id' = id := by
      rw [hkey.1, h.bound id obj hobj hkey.2] at hbound
      exact (Option.some.inj hbound).symm
    refine .inr ⟨by rw [hid, hobj]; exact Option.some_ne_none _, ?_⟩
    rw [(fields_removeObject ..).1, hid, get?_erase, if_pos rfl]
  · rw [if_neg hkey]
    exact .inl hbound

theorem Keyed.keysStay_created (ho : o.key = a.key) (hkey : s.keys a.key = none) :
    s.KeysStay ((s.insertObject id o).countExclusive a) := by
  intro key id' hbound
  rw [keys_created, ho, if_neg]
  · exact .inl hbound
  · intro hk
    rw [hk.1, hkey] at hbound
    cases hbound

/-! ### The sections -/

theorem key_make (F : Family) (a : GetArgs) : (F.make a).key = a.key := rfl

/-- What one section does to the tables. -/
inductive Change (s s' : IpcState) : Prop
  | same (h : s.SameTables s')
  | created (a : GetArgs) (o : IpcObject) (id : Int) (ho : o.key = a.key)
      (hid : s.objects.get? id = none) (hkey : s.keys a.key = none)
      (h : ((s.insertObject id o).countExclusive a).SameTables s')
  | removed (id : Int) (obj : Nat) (hobj : s.objects.get? id = some obj)
      (h : (s.removeObject id (s.heap obj).key).SameTables s')

theorem Change.keyed (h : s.Keyed) (hchange : s.Change s') : s'.Keyed := by
  cases hchange with
  | same hsame => exact h.of_same hsame
  | created a o id ho hid hkey hsame => exact (h.created ho hid hkey).of_same hsame
  | removed id obj hobj hsame => exact (h.removed hobj).of_same hsame

theorem Change.keysStay (h : s.Keyed) (hchange : s.Change s') : s.KeysStay s' := by
  have htrans : ∀ t : IpcState, s.KeysStay t → t.SameTables s' → s.KeysStay s' := by
    intro t hstay hsame key id hbound
    rw [hsame.keys, hsame.objects]
    exact hstay key id hbound
  cases hchange with
  | same hsame => exact htrans s (.of_eq rfl) hsame
  | created a o id ho hid hkey hsame => exact htrans _ (Keyed.keysStay_created ho hkey) hsame
  | removed id obj hobj hsame => exact htrans _ (h.keysStay_removed hobj) hsame

variable {F : Family}

theorem change_create {pages : Bool} (hid : s.objects.get? id = none) (hkey : s.keys a.key = none) :
    s.Change (s.create F call a id pages) := by
  unfold create
  split_ifs
  · exact .same (sameTables_setCall ..)
  · exact .same (sameTables_setCall ..)
  · exact .created a (F.make a) id (key_make F a) hid hkey (sameTables_setCall ..)

theorem sameTables_increment (s : IpcState) (obj : Nat) : s.SameTables (s.increment obj) :=
  sameTables_setObject rfl

theorem sameTables_decrement (s : IpcState) (obj : Nat) : s.SameTables (s.decrement obj) := by
  exact sameTables_setObject (by dsimp only [IpcObject.key])

/-- The tables lose the id and the key in the same way after the object was changed. -/
theorem SameTables.removeObject (h : s.SameTables s') (id key : Int) :
    (s.removeObject id key).SameTables (s'.removeObject id key) := by
  obtain ⟨hobjects, hheap, hnext, -⟩ := fields_removeObject s id key
  obtain ⟨hobjects', hheap', hnext', -⟩ := fields_removeObject s' id key
  refine ⟨?_, ?_, ?_, ?_, ?_⟩
  · rw [hobjects, hobjects', h.objects]
  · funext key'
    rw [(indexes_removeObject ..).1, (indexes_removeObject ..).1, h.keys]
  · rw [hnext, hnext', h.next]
  · funext key'
    rw [(indexes_removeObject ..).2, (indexes_removeObject ..).2, h.exclusives]
  · rw [hheap, hheap']
    exact h.heap

theorem change_remove {cred : Ucred}
    (hobj : F ≠ .shm → (s.heap obj).removed = false → s.objects.get? id = some obj) :
    s.Change (s.remove F call cred id obj) := by
  unfold remove
  by_cases hgone : F ≠ .shm ∧ (s.heap obj).removed = true
  · rw [if_pos hgone]
    exact .same (sameTables_setCall ..)
  rw [if_neg hgone]
  cases (s.heap obj).perm.checkAdminPermission cred with
  | error e => exact .same (sameTables_setCall ..)
  | ok =>
    have hmark : s.SameTables (s.setObject obj { s.heap obj with removed := true }) :=
      sameTables_setObject rfl
    by_cases hshm : F = .shm
    · rw [if_pos hshm]
      exact .same (hmark.trans (sameTables_setCall ..))
    · rw [if_neg hshm]
      have hlive : (s.heap obj).removed = false := by
        simpa using fun h => hgone ⟨hshm, h⟩
      exact .removed id obj (hobj hshm hlive)
        ((hmark.removeObject id (s.heap obj).key).trans (sameTables_setCall ..))

/-- One section creates at most one object, or removes one that is there. -/
theorem change_step {op : IpcOp} (hkept : F ≠ .shm → s.Kept)
    (hun : s.Uncontested op) (hstep : step F s op = .ok s') : s.Change s' := by
  cases op <;> dsimp only [step] at hstep
  case create call id pages =>
    dsimp only [Uncontested] at hun
    split at hstep
    next a hcall =>
      rw [hcall] at hun
      split_ifs at hstep with hid
      cases hstep
      exact change_create hid.2 hun
    · cases hstep
  case remove call =>
    split at hstep
    next cred id obj hcall =>
      cases hstep
      exact change_remove fun hshm => (hkept hshm call cred id obj hcall).2
    · cases hstep
  case countDetach call =>
    split at hstep
    · cases hstep
      exact .same ((sameTables_decrement ..).trans (sameTables_setCall ..))
    · cases hstep
  case reap call =>
    dsimp only [Uncontested] at hun
    split at hstep
    next id obj hcall =>
      rw [hcall] at hun
      cases hstep
      exact .removed id obj hun (sameTables_setCall ..)
    · cases hstep
  case exitDetach id =>
    split at hstep
    next obj hobj =>
      split_ifs at hstep
      · cases hstep
        exact .removed id obj hobj ((sameTables_decrement s obj).removeObject ..)
      · cases hstep
        exact .same (sameTables_decrement ..)
    · cases hstep
  all_goals
    repeat' split at hstep
    all_goals cases hstep
    all_goals first
      | exact .same (sameTables_setCall ..)
      | exact .same ((sameTables_increment ..).trans (sameTables_setCall ..))
      | exact .same (sameTables_increment ..)

/-! ### Sets and queues that a removal has found -/

namespace Kept

theorem setCall (h : s.Kept) {c : IpcCall} (hc : ∀ cred id obj, c = .removing cred id obj →
      obj < s.next ∧ ((s.heap obj).removed = false → s.objects.get? id = some obj)) :
    (s.setCall call c).Kept := by
  intro call' cred id obj hcall
  rcases update_eq_cases hcall with ⟨-, hnew⟩ | ⟨-, hold⟩
  · exact hc cred id obj hnew
  · exact h call' cred id obj hold

/-- A call goes on without an object to remove. -/
theorem goes (h : s.Kept) {c : IpcCall} (hc : ∀ cred id obj, c ≠ .removing cred id obj) :
    (s.setCall call c).Kept :=
  h.setCall fun cred id obj heq => absurd heq (hc cred id obj)

theorem created (h : s.Kept) {a : GetArgs} {o : IpcObject} (hid : s.objects.get? id = none) :
    ((s.insertObject id o).countExclusive a).Kept := by
  obtain ⟨hobjects, hheap, hnext, hcalls⟩ := fields_created s id o a
  intro call cred id' obj hcall
  rw [hcalls] at hcall
  obtain ⟨hold, hlive⟩ := h call cred id' obj hcall
  rw [hobjects, hheap, hnext, update_of_ne hold.ne]
  refine ⟨hold.trans (Nat.lt_succ_self _), fun hremoved => ?_⟩
  have hobj := hlive hremoved
  rw [get?_insert_of_ne, hobj]
  rintro rfl
  rw [hid] at hobj
  cases hobj

variable {F : Family}

theorem create (h : s.Kept) {a : GetArgs} {pages : Bool}
    (hid : s.objects.get? id = none) : (s.create F call a id pages).Kept := by
  unfold IpcState.create
  split_ifs
  · exact h.goes nofun
  · exact h.goes nofun
  · exact (h.created hid).goes nofun

/-- The removal of an object marks it for all who have found it. -/
theorem removed (h : s.Kept) (hobj : s.objects.get? id = some obj) (key : Int) :
    ((s.setObject obj { s.heap obj with removed := true }).removeObject id key).Kept := by
  obtain ⟨hobjects, hheap, hnext, hcalls⟩ :=
    fields_removeObject (s.setObject obj { s.heap obj with removed := true }) id key
  intro call cred id' obj' hcall
  rw [hcalls] at hcall
  obtain ⟨hold, hlive⟩ := h call cred id' obj' hcall
  rw [hobjects, hheap, hnext]
  refine ⟨hold, fun hremoved => ?_⟩
  dsimp only [setObject] at hremoved ⊢
  have hne : obj' ≠ obj := by
    rintro rfl
    rw [update_self] at hremoved
    cases hremoved
  rw [update_of_ne hne] at hremoved
  have hobj' := hlive hremoved
  rw [get?_erase, if_neg, hobj']
  rintro rfl
  exact hne (Option.some.inj (hobj'.symm.trans hobj))

theorem remove (h : s.Kept) {cred : Ucred} (hshm : F ≠ .shm)
    (hobj : (s.heap obj).removed = false → s.objects.get? id = some obj) :
    (s.remove F call cred id obj).Kept := by
  unfold IpcState.remove
  by_cases hgone : F ≠ .shm ∧ (s.heap obj).removed = true
  · rw [if_pos hgone]
    exact h.goes nofun
  rw [if_neg hgone]
  cases (s.heap obj).perm.checkAdminPermission cred with
  | error e => exact h.goes nofun
  | ok =>
    rw [if_neg hshm]
    have hlive : (s.heap obj).removed = false := by
      simpa using fun h => hgone ⟨hshm, h⟩
    exact (h.removed (hobj hlive) _).goes nofun

theorem step (h : s.Kept) (hkeyed : s.Keyed) {op : IpcOp} (hshm : F ≠ .shm)
    (hstep : IpcState.step F s op = .ok s') : s'.Kept := by
  cases op <;> dsimp only [IpcState.step] at hstep
  case create call id pages =>
    split at hstep
    · split_ifs at hstep with hid
      cases hstep
      exact h.create hid.2
    · cases hstep
  case lookRemoval call id cred =>
    split at hstep
    · split at hstep
      · cases hstep
        exact h.goes (by simp)
      next obj hobj =>
        cases hstep
        refine h.setCall ?_
        intro cred' id' obj' heq
        cases heq
        exact ⟨hkeyed.old id obj hobj, fun _ => hobj⟩
    · cases hstep
  case remove call =>
    split at hstep
    next cred id obj hcall =>
      cases hstep
      exact h.remove hshm (h call cred id obj hcall).2
    · cases hstep
  -- The sections of the segments are not those of sets and queues.
  all_goals
    repeat' split at hstep
    all_goals first
      | exact absurd rfl hshm
      | (cases hstep; exact h.goes (by simp))
      | cases hstep

end Kept

/-- What every state of a registry is to satisfy. -/
structure KeysHold (s : IpcState) : Prop where
  /-- At most one exclusive creation of a key succeeds between two removals. -/
  exclusive : ∀ key, key ≠ ipcPrivate → s.exclusives key ≤ 1
  /-- No two objects have the same key. -/
  apart : ∀ id id' obj obj', s.objects.get? id = some obj → s.objects.get? id' = some obj' →
    (s.heap obj).key = (s.heap obj').key → (s.heap obj).key ≠ ipcPrivate → id = id'
  /-- A key in the key table names an object with this key. -/
  named : ∀ key id, s.keys key = some id →
    ∃ obj, s.objects.get? id = some obj ∧ (s.heap obj).key = key

theorem Keyed.keysHold (h : s.Keyed) : s.KeysHold where
  exclusive := fun key hprivate => by
    rcases h.exclusive key hprivate with hzero | hone
    · rw [hzero]
      exact Nat.zero_le 1
    · exact hone.1.le
  apart := fun id id' obj obj' hobj hobj' hkey hprivate => by
    have hbound := h.bound id obj hobj hprivate
    rw [hkey, h.bound id' obj' hobj' (hkey ▸ hprivate)] at hbound
    exact (Option.some.inj hbound).symm
  named := fun key id hbound => (h.named key id hbound).2

theorem keyed_initial : initial.Keyed where
  named := nofun
  bound := nofun
  old := nofun
  exclusive := fun _ _ => .inl rfl

theorem keyed_of_visits (h : Visits (step F) Uncontested initial s) :
    s.Keyed ∧ (F ≠ .shm → s.Kept) := by
  refine h.invariant (I := fun s => s.Keyed ∧ (F ≠ .shm → s.Kept))
    ⟨keyed_initial, fun _ => nofun⟩ ?_
  intro s op s' hs hun hstep
  obtain ⟨hkeyed, hkept⟩ := hs
  exact ⟨(change_step hkept hun hstep).keyed hkeyed,
    fun hshm => (hkept hshm).step hkeyed hshm hstep⟩

end IpcState

end Petra.Ipc
