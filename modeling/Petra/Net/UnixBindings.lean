import Petra.Net.UnixNames

/-! # How long a name is bound

A path names the socket that bound it until this socket is closed, as long as no socket is
closed whose address is the path of another one, and no socket binds that has an address.
-/

namespace Petra.Net

open Base Function Nat UnixState

namespace UnixState

/-- The path in the address of the socket is free, or names the socket itself. -/
def OwnPath (s : UnixState) (x : Nat) : Prop :=
  ∀ path ∈ (s.sockets x).localAddr, ∀ c ∈ s.registry path,
    (s.sockets c).kind = (s.sockets x).kind
deriving Decidable

/-- A socket binds once, and not a taken path while it is connected. A socket is closed while
the path in its address is free or its own. -/
def Careful (s : UnixState) : UnixOp → Prop
  | .bind x path =>
    (s.sockets x).localAddr = none ∧
      (s.registry path = none ∨ (s.kindOf x).channels = [])
  | .close x | .drop x => s.OwnPath x
  | _ => True

instance (s : UnixState) : (op : UnixOp) → Decidable (s.Careful op)
  | .bind x path => by
    dsimp only [Careful]
    infer_instance
  | .close x | .drop x => inferInstanceAs (Decidable (s.OwnPath x))
  | .create .. | .pair | .listen .. | .connect .. | .accept .. | .shutdown .. => .isTrue trivial

/-- The clone in the registry belongs to the socket that bound the path. -/
structure Names (s : UnixState) : Prop where
  named : ∀ path c, s.registry path = some c →
    c < s.nextSocket ∧ s.clone c = true ∧ (s.sockets c).localAddr = none ∧
      ∃ x, s.binder path = some x ∧ (s.sockets x).kind = (s.sockets c).kind
  binds : ∀ path x, s.binder path = some x →
    x < s.nextSocket ∧ s.clone x = false ∧ (s.sockets x).localAddr = some path ∧
      ∃ c, s.registry path = some c ∧ (s.sockets c).kind = (s.sockets x).kind

/-- The names are in order, and no two sockets but a clone and its original share a kind. -/
structure Bound (s : UnixState) : Prop extends s.Names where
  held : ∀ x, s.holder x ≠ .nobody → x < s.nextSocket
  proper : ∀ x, s.holder x = .user ∨ s.holder x = .queue ∨ s.holder x = .orphan →
    s.clone x = false
  queued : ∀ k queue, s.kinds k = .listener queue → ∀ y ∈ queue,
    y < s.nextSocket ∧ s.clone y = false
  kinds : ∀ x, x < s.nextSocket → (s.sockets x).kind < s.nextKind
  apart : ∀ x y, x < s.nextSocket → y < s.nextSocket → s.clone x = false → s.clone y = false →
    (s.sockets x).kind = (s.sockets y).kind → x = y
  fresh : ∀ x, s.nextSocket ≤ x → s.clone x = false

variable {s s' : UnixState} {x c : Nat} {path : String}

/-- New sockets leave the names as they are. -/
theorem Names.grow (h : s.Names) (hnext : s.nextSocket ≤ s'.nextSocket)
    (hsockets : ∀ y < s.nextSocket, s'.sockets y = s.sockets y)
    (hclone : ∀ y < s.nextSocket, s'.clone y = s.clone y)
    (hregistry : s'.registry = s.registry) (hbinder : s'.binder = s.binder) : s'.Names := by
  constructor
  case named =>
    intro path c hc
    rw [hregistry] at hc
    obtain ⟨hcn, hcc, haddr, x, hx, hkind⟩ := h.named path c hc
    have hxn := (h.binds path x hx).1
    rw [hclone c hcn, hsockets c hcn, hbinder]
    refine ⟨hcn.trans_le hnext, hcc, haddr, x, hx, ?_⟩
    rw [hsockets x hxn]
    exact hkind
  case binds =>
    intro path x hx
    rw [hbinder] at hx
    obtain ⟨hxn, hxc, haddr, c, hc, hkind⟩ := h.binds path x hx
    have hcn := (h.named path c hc).1
    rw [hclone x hxn, hsockets x hxn, hregistry]
    refine ⟨hxn.trans_le hnext, hxc, haddr, c, hc, ?_⟩
    rw [hsockets c hcn]
    exact hkind

theorem ne_of_clone (hc : s.clone c = true) (hx : s.clone x = false) : c ≠ x := by
  rintro rfl
  rw [hc] at hx
  cases hx

namespace Bound

variable (h : s.Bound) {kind : SocketKind} {holder : Holder}

include h

theorem user_proper (hx : s.holder x = .user) : x < s.nextSocket ∧ s.clone x = false :=
  ⟨h.held x (hx ▸ nofun), h.proper x (.inl hx)⟩

theorem droppable (hx : s.holder x = .user ∨ s.holder x = .orphan) :
    x < s.nextSocket ∧ s.clone x = false ∧ s.holder x ≠ .nobody := by
  have hheld : s.holder x ≠ .nobody := by
    rcases hx with hx | hx <;> rw [hx] <;> exact nofun
  refine ⟨h.held x hheld, h.proper x ?_, hheld⟩
  rcases hx with hx | hx
  · exact .inl hx
  · exact .inr (.inr hx)

/-- Only kinds, channels and who holds a socket change. -/
theorem of_same (hsockets : s'.sockets = s.sockets) (hregistry : s'.registry = s.registry)
    (hnextSocket : s'.nextSocket = s.nextSocket) (hnextKind : s'.nextKind = s.nextKind)
    (hclone : s'.clone = s.clone) (hbinder : s'.binder = s.binder)
    (hheld : ∀ x, s'.holder x ≠ .nobody → x < s.nextSocket)
    (hproper : ∀ x, s'.holder x = .user ∨ s'.holder x = .queue ∨ s'.holder x = .orphan →
      s.clone x = false) (hqueued : ∀ k queue, s'.kinds k = .listener queue → ∀ y ∈ queue,
      y < s.nextSocket ∧ s.clone y = false) : s'.Bound where
  toNames := by
    refine h.toNames.grow (le_of_eq hnextSocket.symm) ?_ ?_ hregistry hbinder
    · intro y _
      rw [hsockets]
    · intro y _
      rw [hclone]
  held := by
    rw [hnextSocket]
    exact hheld
  proper := by
    rw [hclone]
    exact hproper
  queued := by
    rw [hnextSocket, hclone]
    exact hqueued
  kinds := by
    rw [hnextSocket, hnextKind, hsockets]
    exact h.kinds
  apart := by
    rw [hnextSocket, hclone, hsockets]
    exact h.apart
  fresh := by
    rw [hnextSocket, hclone]
    exact h.fresh

theorem markClosed (channels : List Nat) : (s.markClosed channels).Bound :=
  h.of_same rfl rfl rfl rfl rfl rfl h.held h.proper h.queued

theorem setKind (hkind : ∀ queue, kind = .listener queue → ∀ y ∈ queue,
      y < s.nextSocket ∧ s.clone y = false) : (s.setKind x kind).Bound := by
  refine h.of_same rfl rfl rfl rfl rfl rfl h.held h.proper ?_
  intro k queue hk
  rcases update_eq_cases hk with ⟨-, hnew⟩ | ⟨-, hold⟩
  · exact hkind queue hnew
  · exact h.queued k queue hold

theorem setHolder (hx : x < s.nextSocket)
    (hclone : s.clone x = false ∨ holder = .nobody) : (s.setHolder x holder).Bound := by
  refine h.of_same rfl rfl rfl rfl rfl rfl ?_ ?_ h.queued
  · intro y hy
    dsimp only [UnixState.setHolder] at hy
    by_cases heq : y = x
    · rw [heq]
      exact hx
    · rw [update_of_ne heq] at hy
      exact h.held y hy
  intro y hy
  dsimp only [UnixState.setHolder] at hy
  by_cases heq : y = x
  · rw [heq] at hy
    rw [heq]
    rcases hclone with hclone | rfl
    · exact hclone
    · simp at hy
  · rw [update_of_ne heq] at hy
    exact h.proper y hy

/-- There is one more socket, which has a kind of its own or is a clone. -/
theorem grow (hnext : s'.nextSocket = s.nextSocket + 1) (hnextKind : s.nextKind ≤ s'.nextKind)
    (hsockets : ∀ y ≠ s.nextSocket, s'.sockets y = s.sockets y)
    (hclone : ∀ y ≠ s.nextSocket, s'.clone y = s.clone y)
    (hholder : ∀ y ≠ s.nextSocket, s'.holder y = s.holder y)
    (hregistry : s'.registry = s.registry) (hbinder : s'.binder = s.binder)
    (hqueued : ∀ k queue, s'.kinds k = .listener queue → s.kinds k = .listener queue)
    (hproper : s'.holder s.nextSocket = .user ∨ s'.holder s.nextSocket = .queue ∨
      s'.holder s.nextSocket = .orphan → s'.clone s.nextSocket = false)
    (hkind : (s'.sockets s.nextSocket).kind < s'.nextKind)
    (hapart : s'.clone s.nextSocket = false → ∀ y < s.nextSocket,
      (s.sockets y).kind ≠ (s'.sockets s.nextSocket).kind) : s'.Bound := by
  have hcases : ∀ y < s'.nextSocket, y < s.nextSocket ∧ y ≠ s.nextSocket ∨ y = s.nextSocket := by
    omega
  constructor
  case toNames =>
    refine h.toNames.grow ?_ (fun y hy => hsockets y hy.ne)
      (fun y hy => hclone y hy.ne) hregistry hbinder
    rw [hnext]
    exact le_succ _
  case held =>
    intro y hy
    rw [hnext]
    by_cases heq : y = s.nextSocket
    · omega
    · rw [hholder y heq] at hy
      exact lt_succ_of_lt (h.held y hy)
  case proper =>
    intro y hy
    by_cases heq : y = s.nextSocket
    · rw [heq] at hy ⊢
      exact hproper hy
    · rw [hholder y heq] at hy
      rw [hclone y heq]
      exact h.proper y hy
  case queued =>
    intro k queue hk y hy
    obtain ⟨hyn, hyc⟩ := h.queued k queue (hqueued k queue hk) y hy
    rw [hnext, hclone y hyn.ne]
    exact ⟨lt_succ_of_lt hyn, hyc⟩
  case kinds =>
    intro y hy
    rcases hcases y hy with ⟨hyn, hne⟩ | rfl
    · rw [hsockets y hne]
      exact (h.kinds y hyn).trans_le hnextKind
    · exact hkind
  case apart =>
    intro y z hy hz hcy hcz hyz
    rcases hcases y hy with ⟨hyn, hyne⟩ | rfl <;> rcases hcases z hz with ⟨hzn, hzne⟩ | rfl
    · rw [hsockets y hyne, hsockets z hzne] at hyz
      rw [hclone y hyne] at hcy
      rw [hclone z hzne] at hcz
      exact h.apart y z hyn hzn hcy hcz hyz
    · rw [hsockets y hyne] at hyz
      exact absurd hyz (hapart hcz y hyn)
    · rw [hsockets z hzne] at hyz
      exact absurd hyz.symm (hapart hcy z hzn)
    · rfl
  case fresh =>
    intro y hy
    rw [hnext] at hy
    rw [hclone y (ne_of_gt hy)]
    exact h.fresh y (le_of_succ_le hy)

theorem newSocket (addr : Option String) (holder : Holder)
    (hkind : ∀ queue, kind ≠ .listener queue) : (s.newSocket kind addr holder).Bound := by
  have hnew : (s.newSocket kind addr holder).sockets s.nextSocket = ⟨s.nextKind, addr⟩ :=
    update_self ..
  refine h.grow rfl (le_succ _) (fun y hy => update_of_ne hy ..) (fun _ _ => rfl)
    (fun y hy => update_of_ne hy ..) rfl rfl ?_ (fun _ => h.fresh _ le_rfl) ?_ ?_
  · intro k queue hk
    rcases update_eq_cases hk with ⟨-, hnew⟩ | ⟨-, hold⟩
    · exact absurd hnew (hkind queue)
    · exact hold
  · rw [hnew]
    exact lt_succ_self _
  · intro _ y hy
    rw [hnew]
    exact (h.kinds y hy).ne

theorem cloneSocketRef (hx : x < s.nextSocket)
    (hholder : holder = .nobody ∨ holder = .registry) : (s.cloneSocketRef x holder).Bound := by
  have hheld : (s.cloneSocketRef x holder).holder s.nextSocket = holder := update_self ..
  have hclone : (s.cloneSocketRef x holder).clone s.nextSocket = true := update_self ..
  have hnew : (s.cloneSocketRef x holder).sockets s.nextSocket = s.sockets x := update_self ..
  refine h.grow rfl le_rfl (fun y hy => update_of_ne hy ..) (fun y hy => update_of_ne hy ..)
    (fun y hy => update_of_ne hy ..) rfl rfl (fun _ _ hk => hk) ?_ ?_ ?_
  · rw [hheld]
    rcases hholder with rfl | rfl <;> simp
  · rw [hnew]
    exact h.kinds x hx
  · rw [hclone]
    exact nofun

omit h in
theorem kind_setLocalAddr (y : Nat) :
    ((s.setLocalAddr x path).sockets y).kind = (s.sockets y).kind := by
  dsimp only [setLocalAddr]
  by_cases hyx : y = x
  · rw [hyx, update_self]
  · rw [update_of_ne hyx]

/-- A socket without an address gets one. -/
theorem setLocalAddr (hclone : s.clone x = false) (haddr : (s.sockets x).localAddr = none) :
    (s.setLocalAddr x path).Bound := by
  have hother : ∀ y ≠ x, (s.setLocalAddr x path).sockets y = s.sockets y :=
    fun y hy => update_of_ne hy ..
  refine
    { named := ?named, binds := ?binds, held := h.held, proper := h.proper
      queued := h.queued, kinds := ?kinds, apart := ?apart, fresh := h.fresh }
  case named =>
    intro q c hc
    obtain ⟨hcn, hcc, hcAddr, y, hy, hkind⟩ := h.named q c hc
    have hcx := ne_of_clone hcc hclone
    refine ⟨hcn, hcc, ?_, y, hy, ?_⟩
    · rw [hother c hcx]
      exact hcAddr
    · rw [kind_setLocalAddr, kind_setLocalAddr]
      exact hkind
  case binds =>
    intro q y hy
    obtain ⟨hyn, hyc, hyAddr, c, hc, hkind⟩ := h.binds q y hy
    have hyx : y ≠ x := by
      rintro rfl
      rw [haddr] at hyAddr
      cases hyAddr
    refine ⟨hyn, hyc, ?_, c, hc, ?_⟩
    · rw [hother y hyx]
      exact hyAddr
    · rw [kind_setLocalAddr, kind_setLocalAddr]
      exact hkind
  case kinds =>
    intro y hy
    rw [kind_setLocalAddr]
    exact h.kinds y hy
  case apart =>
    intro y z hy hz hcy hcz hyz
    rw [kind_setLocalAddr, kind_setLocalAddr] at hyz
    exact h.apart y z hy hz hcy hcz hyz

/-- A clone is entered under the address of its original. -/
theorem enter (hc : c < s.nextSocket) (hcClone : s.clone c = true)
    (hcAddr : (s.sockets c).localAddr = none) (hx : x < s.nextSocket) (hxClone : s.clone x = false)
    (hxAddr : (s.sockets x).localAddr = some path) (hkind : (s.sockets c).kind = (s.sockets x).kind) :
    { s with
      registry := update s.registry path (some c)
      binder := update s.binder path (some x) }.Bound := by
  refine
    { named := ?named, binds := ?binds, held := h.held, proper := h.proper
      queued := h.queued, kinds := h.kinds, apart := h.apart, fresh := h.fresh }
  case named =>
    intro q d hd
    dsimp only
    rcases update_eq_cases hd with ⟨rfl, hnew⟩ | ⟨hq, hd⟩
    · cases hnew
      exact ⟨hc, hcClone, hcAddr, x, update_self .., hkind.symm⟩
    · rw [update_of_ne hq]
      exact h.named q d hd
  case binds =>
    intro q y hy
    dsimp only
    rcases update_eq_cases hy with ⟨rfl, hnew⟩ | ⟨hq, hy⟩
    · cases hnew
      exact ⟨hx, hxClone, hxAddr, c, update_self .., hkind⟩
    · rw [update_of_ne hq]
      exact h.binds q y hy

end Bound

/-- What a close does: the path in the address is free, a clone may be gone, and no channel but
those of the socket is marked closed. -/
structure Closed (s : UnixState) (x : Nat) (s' : UnixState) : Prop where
  sockets : s'.sockets = s.sockets
  kinds : s'.kinds = s.kinds
  nextSocket : s'.nextSocket = s.nextSocket
  nextKind : s'.nextKind = s.nextKind
  clone : s'.clone = s.clone
  binder : s'.binder = s.binder
  holder : ∀ y, s'.holder y = s.holder y ∨ s'.holder y = .nobody
  registry : ∀ path, s'.registry path =
    if (s.sockets x).localAddr = some path then none else s.registry path
  closed : ∀ ch, s'.closed ch = true → s.closed ch = true ∨ ch ∈ (s.kindOf x).channels

theorem pending_eq_nil (hx : x < s.nextSocket) (hholder : s.holder x ≠ .nobody) :
    s.pending (s.sockets x).kind = [] := by
  unfold pending
  split
  · rw [if_pos ⟨x, hx, hholder, rfl⟩]
  · rfl

theorem mem_closed_markClosed {channels : List Nat} {ch : Nat}
    (hch : (s.markClosed channels).closed ch = true) : s.closed ch = true ∨ ch ∈ channels := by
  simpa [markClosed] using hch

/-- The names need no care while nothing is entered under the address. -/
theorem closed_of_free (hfree : ∀ path ∈ (s.sockets x).localAddr, s.registry path = none) :
    s.Closed x (s.markClosed (s.kindOf x).channels) where
  sockets := rfl
  kinds := rfl
  nextSocket := rfl
  nextKind := rfl
  clone := rfl
  binder := rfl
  holder _ := .inl rfl
  registry path := by
    split
    case isTrue haddr => exact hfree path haddr
    case isFalse => rfl
  closed _ := mem_closed_markClosed

/-- The clone of the socket itself goes with its entry. -/
theorem closed_of_entered {s₁ : UnixState}
    (haddr : (s.sockets x).localAddr = some path) (hkind : (s.sockets c).kind = (s.sockets x).kind)
    (hs₁ : s₁ = { s.setHolder c .nobody with
      registry := update s.registry path none }.markClosed (s.kindOf c).channels) :
    s.Closed x (s₁.markClosed (s₁.kindOf x).channels) := by
  subst hs₁
  constructor
  case holder =>
    intro y
    dsimp only [markClosed, setHolder]
    by_cases hyc : y = c
    · rw [hyc, update_self]
      exact .inr rfl
    · rw [update_of_ne hyc]
      exact .inl rfl
  case registry =>
    intro q
    dsimp only [markClosed]
    by_cases hq : q = path
    · rw [hq, update_self, if_pos haddr]
    · rw [update_of_ne hq, if_neg]
      rw [haddr, Option.some.injEq]
      exact Ne.symm hq
  case closed =>
    intro ch hch
    rcases mem_closed_markClosed hch with hch | hch
    · rcases mem_closed_markClosed hch with hch | hch
      · exact .inl hch
      · rw [kindOf, hkind] at hch
        exact .inr hch
    · exact .inr hch
  all_goals rfl

theorem closeSocket_of_some (haddr : (s.sockets x).localAddr = some path) :
    s.closeSocket x = (s.unbindUnixSocket path).bind
      fun s' => .ok (s'.markClosed (s'.kindOf x).channels) := by
  simp only [closeSocket, haddr]
  rfl

section

variable (h : s.Bound) (hx : x < s.nextSocket) (hclone : s.clone x = false)

include h hx hclone

/-- The close of a socket comes back. -/
theorem Bound.closeSocket (hholder : s.holder x ≠ .nobody) (hown : s.OwnPath x) :
    ∃ s', s.closeSocket x = .ok s' ∧ s.Closed x s' := by
  cases haddr : (s.sockets x).localAddr with
  | none =>
    refine ⟨s.markClosed (s.kindOf x).channels, ?_, closed_of_free (by simp [haddr])⟩
    simp only [UnixState.closeSocket, haddr]
    rfl
  | some path =>
    rw [closeSocket_of_some haddr]
    cases hc : s.registry path with
    | none =>
      refine ⟨s.markClosed (s.kindOf x).channels, ?_, closed_of_free (by simp [haddr, hc])⟩
      simp only [unbindUnixSocket, hc]
      rfl
    | some c =>
      obtain ⟨hcn, hcClone, hcAddr, -⟩ := h.named path c hc
      have hkind : (s.sockets c).kind = (s.sockets x).kind := hown path haddr c hc
      have hxc := (ne_of_clone hcClone hclone).symm
      -- The socket itself still refers to its connections.
      have hpending : (s.setHolder c .nobody).pending (s.sockets c).kind = [] := by
        rw [hkind]
        have hsame : (s.setHolder c .nobody).holder x = s.holder x := update_of_ne hxc ..
        exact pending_eq_nil (s := s.setHolder c .nobody) hx (hsame ▸ hholder)
      refine ⟨_, ?_, closed_of_entered haddr hkind rfl⟩
      simp only [unbindUnixSocket, hc, hcAddr, hpending]
      rfl

/-- Nobody else has bound the address of a socket whose path is its own. -/
theorem Bound.localAddr_ne (hown : s.OwnPath x) {y : Nat} (hy : s.binder path = some y)
    (hyx : y ≠ x) : (s.sockets x).localAddr ≠ some path := by
  intro haddr
  obtain ⟨hyn, hyc, -, c, hc, hkind⟩ := h.binds path y hy
  exact hyx (h.apart y x hyn hx hyc hclone (hkind.symm.trans (hown path haddr c hc)))

/-- A closed socket has no names, and the others keep theirs. -/
theorem Bound.forget (hown : s.OwnPath x) (hclosed : s.Closed x s') : (s'.forget x).Bound := by
  have hholder : ∀ y, s'.holder y ≠ .nobody → s'.holder y = s.holder y :=
    fun y hy => (hclosed.holder y).resolve_right hy
  have hsame : { s' with registry := s.registry }.Bound := by
    refine h.of_same hclosed.sockets rfl hclosed.nextSocket hclosed.nextKind hclosed.clone
      hclosed.binder ?_ ?_ (hclosed.kinds ▸ h.queued)
    · intro y hy
      exact h.held y (hholder y hy ▸ hy)
    · intro y hy
      refine h.proper y (hholder y ?_ ▸ hy)
      rcases hy with hy | hy | hy <;> rw [hy] <;> exact nofun
  refine { hsame with named := ?named, binds := ?binds }
  case named =>
    intro q c hc
    change s'.registry q = some c at hc
    rw [hclosed.registry] at hc
    split at hc
    case isTrue => cases hc
    case isFalse hq =>
      obtain ⟨hcn, hcc, hcAddr, y, hy, hkind⟩ := h.named q c hc
      have hyx : y ≠ x := by
        rintro rfl
        exact hq (h.binds q y hy).2.2.1
      dsimp only [UnixState.forget]
      rw [hclosed.nextSocket, hclosed.clone, hclosed.sockets, hclosed.binder, hy,
        if_neg (by simpa using hyx)]
      exact ⟨hcn, hcc, hcAddr, y, rfl, hkind⟩
  case binds =>
    intro q y hy
    dsimp only [UnixState.forget] at hy ⊢
    rw [hclosed.binder] at hy
    split at hy
    case isTrue => cases hy
    case isFalse hne =>
      have hyx : y ≠ x := by
        rintro rfl
        exact hne hy
      rw [hclosed.nextSocket, hclosed.clone, hclosed.sockets, hclosed.registry,
        if_neg (h.localAddr_ne hx hclone hown hy hyx)]
      exact h.binds q y hy

theorem Bound.release : (s.release x).Bound := by
  have h₁ : (s.setHolder x .nobody).Bound := h.setHolder hx (.inl hclone)
  have hpending : ∀ y ∈ (s.setHolder x .nobody).pending (s.sockets x).kind,
      y < s.nextSocket ∧ s.clone y = false := by
    intro y hy
    unfold pending at hy
    split at hy
    case h_1 queue hk =>
      split at hy
      · cases hy
      · exact h.queued _ queue hk y hy
    case h_2 => cases hy
  refine h₁.of_same rfl rfl rfl rfl rfl rfl ?_ ?_ h₁.queued
  · intro y hy
    dsimp only [UnixState.release] at hy
    split at hy
    case isTrue hmem => exact (hpending y hmem).1
    case isFalse => exact h₁.held y hy
  · intro y hy
    dsimp only [UnixState.release] at hy
    split at hy
    case isTrue hmem => exact (hpending y hmem).2
    case isFalse => exact h₁.proper y hy

end

/-- The socket whose channels a call may mark closed. -/
def UnixOp.closes : UnixOp → Option Nat
  | .shutdown x _ | .close x | .drop x => some x
  | _ => none

/-- A call takes no name of a socket that it does not close, and marks no channel but those of
its own socket. -/
structure Keeps (s : UnixState) (op : UnixOp) (s' : UnixState) : Prop where
  names : ∀ path x, s.binder path = some x → op ≠ .close x → op ≠ .drop x →
    s'.binder path = some x ∧ s'.lookupUnixSocket path = s.lookupUnixSocket path
  closed : ∀ ch, s'.closed ch = true →
    s.closed ch = true ∨ ∃ x ∈ UnixOp.closes op, ch ∈ (s.kindOf x).channels

/-- Neither names nor channels change. -/
structure Quiet (s s' : UnixState) : Prop where
  binder : s'.binder = s.binder
  registry : s'.registry = s.registry
  closed : s'.closed = s.closed

theorem Quiet.refl (s : UnixState) : s.Quiet s := ⟨rfl, rfl, rfl⟩

theorem Quiet.keeps (h : s.Quiet s') {op : UnixOp} : s.Keeps op s' where
  names path x hx _ _ := by
    rw [h.binder, lookupUnixSocket, h.registry]
    exact ⟨hx, rfl⟩
  closed ch hch := by
    rw [h.closed] at hch
    exact .inl hch

theorem Bound.registry_eq_none_iff (h : s.Bound) :
    s.registry path = none ↔ s.binder path = none := by
  constructor
  · intro hfree
    cases hx : s.binder path with
    | none => rfl
    | some x =>
      obtain ⟨-, -, -, c, hc, -⟩ := h.binds path x hx
      rw [hfree] at hc
      cases hc
  · intro hfree
    cases hc : s.registry path with
    | none => rfl
    | some c =>
      obtain ⟨-, -, -, x, hx, -⟩ := h.named path c hc
      rw [hfree] at hx
      cases hx

namespace Bound

variable (h : s.Bound)

include h

theorem bind (hx : s.holder x = .user) (hcareful : s.Careful (.bind x path))
    (hbind : s.bind x path = .ok s') : s'.Bound ∧ s.Keeps (.bind x path) s' := by
  obtain ⟨haddr, hpath⟩ := hcareful
  obtain ⟨hxn, hxClone⟩ := h.user_proper hx
  unfold UnixState.bind at hbind
  split at hbind
  case isTrue =>
    cases hbind
    refine ⟨h.setLocalAddr hxClone haddr, Quiet.keeps ?_⟩
    exact ⟨rfl, rfl, rfl⟩
  case isFalse =>
    split at hbind
    case h_1 d hd =>
      -- The path is taken: the clone has no address, and no channels.
      have hchannels : (s.kindOf x).channels = [] := by
        rcases hpath with hfree | hchannels
        · rw [hd] at hfree
          cases hfree
        · exact hchannels
      have hclone : (s.cloneSocketRef x .nobody).sockets s.nextSocket = s.sockets x :=
        update_self ..
      have hkind : (s.cloneSocketRef x .nobody).kindOf s.nextSocket = s.kindOf x := by
        rw [kindOf, hclone]
        rfl
      simp only [UnixState.closeSocket, hclone, haddr] at hbind
      cases hbind
      refine ⟨(h.cloneSocketRef hxn (.inl rfl)).markClosed _, Quiet.keeps ?_⟩
      refine ⟨rfl, rfl, ?_⟩
      rw [hkind, hchannels]
      funext ch
      simp [UnixState.markClosed, UnixState.cloneSocketRef]
    case h_2 hfree =>
      cases hbind
      have hnx : x ≠ s.nextSocket := hxn.ne
      have hclone : (s.cloneSocketRef x .registry).clone x = false :=
        (update_of_ne hnx ..).trans hxClone
      have hsocket : (s.cloneSocketRef x .registry).sockets x = s.sockets x := update_of_ne hnx ..
      have hnew : ((s.cloneSocketRef x .registry).setLocalAddr x path).sockets s.nextSocket =
          s.sockets x :=
        (update_of_ne hnx.symm ..).trans (update_self ..)
      have haddr' : (((s.cloneSocketRef x .registry).setLocalAddr x path).sockets x).localAddr =
          some path := by
        dsimp only [UnixState.setLocalAddr]
        rw [update_self]
      have h₁ : ((s.cloneSocketRef x .registry).setLocalAddr x path).Bound := by
        refine (h.cloneSocketRef hxn (.inr rfl)).setLocalAddr hclone ?_
        rw [hsocket]
        exact haddr
      refine ⟨h₁.enter (lt_succ_self _) (update_self ..) ?_
        (lt_succ_of_lt hxn) hclone haddr' ?_, ?_, fun ch hch => .inl hch⟩
      · rw [hnew]
        exact haddr
      · rw [hnew, kind_setLocalAddr, hsocket]
      intro q y hy _ _
      have hq : q ≠ path := by
        rintro rfl
        rw [h.registry_eq_none_iff.mp hfree] at hy
        cases hy
      exact ⟨(update_of_ne hq ..).trans hy, update_of_ne hq ..⟩

theorem listen : (s.listen x).Bound ∧ s.Quiet (s.listen x) := by
  unfold UnixState.listen
  split
  · exact ⟨h.setKind (by simp), ⟨rfl, rfl, rfl⟩⟩
  · exact ⟨h, Quiet.refl s⟩

theorem connectTo {queue : List Nat} (hqueue : s.kindOf c = .listener queue) :
    (s.connectTo x path c queue).Bound := by
  have h₁ : { s with nextChannel := s.nextChannel + 2 }.Bound :=
    h.of_same rfl rfl rfl rfl rfl rfl h.held h.proper h.queued
  refine ((h₁.newSocket (some path) .queue ?_).setKind (by simp)).setKind ?_
  · simp
  intro queue' hqueue' y hy
  cases hqueue'
  rcases List.mem_append.mp hy with hy | hy
  · obtain ⟨hyn, hclone⟩ := h.queued _ queue hqueue y hy
    exact ⟨lt_succ_of_lt hyn, hclone⟩
  · rw [List.mem_singleton] at hy
    subst hy
    exact ⟨lt_succ_self _, h.fresh _ le_rfl⟩

theorem connect : (s.connect x path).Bound ∧ s.Quiet (s.connect x path) := by
  unfold UnixState.connect
  split
  case h_3 => exact ⟨h, Quiet.refl s⟩
  all_goals
    split
    case h_1 => exact ⟨h, Quiet.refl s⟩
    case h_2 c hc =>
      split
      case h_1 queue hqueue => exact ⟨h.connectTo hqueue, ⟨rfl, rfl, rfl⟩⟩
      case h_2 => exact ⟨h, Quiet.refl s⟩

theorem accept : (s.accept x).Bound ∧ s.Quiet (s.accept x) := by
  unfold UnixState.accept
  split
  case h_1 y queue hqueue =>
    have hmem := h.queued _ _ hqueue
    obtain ⟨hyn, hclone⟩ := hmem y (.head _)
    refine ⟨(h.setKind ?_).setHolder hyn (.inl hclone), ⟨rfl, rfl, rfl⟩⟩
    intro queue' hqueue' z hz
    cases hqueue'
    exact hmem z (.tail _ hz)
  case h_2 => exact ⟨h, Quiet.refl s⟩

theorem shutdown (how : Nat) :
    (s.shutdown x how).Bound ∧ s.Keeps (.shutdown x how) (s.shutdown x how) := by
  -- One mark on channels of the socket.
  have hmark : ∀ channels ⊆ (s.kindOf x).channels,
      (s.markClosed channels).Bound ∧ s.Keeps (.shutdown x how) (s.markClosed channels) := by
    intro channels hchannels
    refine ⟨h.markClosed _, fun _ _ hy _ _ => ⟨hy, rfl⟩, fun ch hch => ?_⟩
    rcases mem_closed_markClosed hch with hch | hch
    · exact .inl hch
    · exact .inr ⟨x, rfl, hchannels hch⟩
  unfold UnixState.shutdown
  split
  case h_1 tx rx hkind =>
    rw [hkind] at hmark
    split
    · exact hmark _ (by simp [SocketKind.channels])
    · exact hmark _ (by simp [SocketKind.channels])
    · exact hmark _ (by simp [SocketKind.channels])
    · exact ⟨h, (Quiet.refl s).keeps⟩
  case h_2 => exact ⟨h, (Quiet.refl s).keeps⟩

/-- A close keeps what it does not close. -/
theorem keeps_forget (hx : x < s.nextSocket) (hclone : s.clone x = false) (hown : s.OwnPath x)
    (hclosed : s.Closed x s') {op : UnixOp} (hop : op = .close x ∨ op = .drop x) :
    s.Keeps op (s'.forget x) where
  names path y hy hclose hdrop := by
    have hyx : y ≠ x := by
      rintro rfl
      rcases hop with hop | hop
      · exact hclose hop
      · exact hdrop hop
    constructor
    · dsimp only [UnixState.forget]
      rw [hclosed.binder, if_neg (by rw [hy]; simpa using hyx)]
      exact hy
    · exact (hclosed.registry path).trans (if_neg (h.localAddr_ne hx hclone hown hy hyx))
  closed ch hch := by
    rcases hclosed.closed ch hch with hch | hch
    · exact .inl hch
    · refine .inr ⟨x, ?_, hch⟩
      rcases hop with rfl | rfl <;> rfl

theorem step {op : UnixOp} (hcareful : s.Careful op) (hstep : s.step op = .ok s') :
    s'.Bound ∧ s.Keeps op s' := by
  cases op <;> dsimp only [UnixState.step] at hstep
  case create isDgram =>
    cases hstep
    refine ⟨h.newSocket none .user ?_, Quiet.keeps ?_⟩
    · intro queue
      split <;> simp
    · exact ⟨rfl, rfl, rfl⟩
  case pair =>
    cases hstep
    have h₁ : { s with nextChannel := s.nextChannel + 2 }.Bound :=
      h.of_same rfl rfl rfl rfl rfl rfl h.held h.proper h.queued
    refine ⟨(h₁.newSocket none .user ?_).newSocket none .user ?_, Quiet.keeps ?_⟩
    · simp
    · simp
    · exact ⟨rfl, rfl, rfl⟩
  case bind x path =>
    split_ifs at hstep with hx
    exact h.bind hx hcareful hstep
  case listen x =>
    split_ifs at hstep
    cases hstep
    exact ⟨h.listen.1, h.listen.2.keeps⟩
  case connect x path =>
    split_ifs at hstep
    cases hstep
    exact ⟨h.connect.1, h.connect.2.keeps⟩
  case accept x =>
    split_ifs at hstep
    cases hstep
    exact ⟨h.accept.1, h.accept.2.keeps⟩
  case shutdown x how =>
    split_ifs at hstep
    cases hstep
    exact h.shutdown how
  case close x =>
    split_ifs at hstep with hx
    obtain ⟨hxn, hclone⟩ := h.user_proper hx
    obtain ⟨s₁, hs₁, hclosed⟩ := h.closeSocket hxn hclone (hx ▸ nofun) hcareful
    rw [hs₁] at hstep
    cases hstep
    exact ⟨h.forget hxn hclone hcareful hclosed,
      h.keeps_forget hxn hclone hcareful hclosed (.inl rfl)⟩
  case drop x =>
    split_ifs at hstep with hx
    obtain ⟨hxn, hclone, hholder⟩ := h.droppable hx
    obtain ⟨s₁, hs₁, hclosed⟩ := h.closeSocket hxn hclone hholder hcareful
    rw [hs₁] at hstep
    cases hstep
    have hforget := h.forget hxn hclone hcareful hclosed
    have hkeeps := h.keeps_forget hxn hclone hcareful hclosed (.inr rfl)
    refine ⟨hforget.release ?_ ?_, hkeeps.names, hkeeps.closed⟩
    · rw [UnixState.forget, hclosed.nextSocket]
      exact hxn
    · rw [UnixState.forget, hclosed.clone]
      exact hclone

end Bound

theorem bound_initial : initial.Bound := by
  constructor
  case toNames => exact ⟨nofun, nofun⟩
  case held =>
    intro x hx
    exact absurd rfl hx
  case kinds | apart => exact nofun
  all_goals simp [initial]

/-- A path names the socket that bound it until this socket is closed. -/
theorem paths_of_visits (h : Visits step Careful initial s) :
    (∀ path x, s.binder path = some x → ∃ c, s.lookupUnixSocket path = some c ∧
      s.clone c = true ∧ (s.sockets c).kind = (s.sockets x).kind) ∧
    (∀ path, s.binder path = none → s.lookupUnixSocket path = none) ∧
    (∀ op s', s.Careful op → s.step op = .ok s' → s.Keeps op s') ∧
    (∀ x, s.holder x = .user → s.OwnPath x →
      (∃ s', s.step (.close x) = .ok s') ∧ ∃ s', s.step (.drop x) = .ok s') := by
  have hbound : s.Bound := h.invariant (I := Bound) bound_initial
    fun _ _ _ hb hcareful hstep => (hb.step hcareful hstep).1
  refine ⟨?_, fun path => hbound.registry_eq_none_iff.mpr,
    fun op s' hcareful hstep => (hbound.step hcareful hstep).2, ?_⟩
  · intro path x hx
    obtain ⟨-, -, -, c, hc, hkind⟩ := hbound.binds path x hx
    exact ⟨c, hc, (hbound.named path c hc).2.1, hkind⟩
  intro x hx hown
  obtain ⟨hxn, hclone⟩ := hbound.user_proper hx
  obtain ⟨s₁, hs₁, -⟩ := hbound.closeSocket hxn hclone (hx ▸ nofun) hown
  constructor
  · refine ⟨s₁.forget x, ?_⟩
    dsimp only [step]
    rw [if_pos hx, hs₁]
    rfl
  · refine ⟨(s₁.forget x).release x, ?_⟩
    dsimp only [step]
    rw [if_pos (.inl hx), hs₁]
    rfl

/-- A client connects, is accepted, and is closed again: the listener keeps its path. -/
theorem named_clientClosed : ∃ s, Visits step Careful initial s ∧
    s.binder "/p" = some 0 ∧ s.registry "/p" = some 1 ∧ s.closed 0 = true ∧
      ∃ c, s.lookupUnixSocket "/p" = some c ∧ s.clone c = true ∧
        (s.sockets c).kind = (s.sockets 0).kind := by
  obtain ⟨s, hs, hbinder, hregistry, hclosed⟩ := exists_visits step Careful initial
    [.create false, .bind 0 "/p", .listen 0, .create false, .connect 2 "/p", .accept 0, .close 2]
    (fun s => s.binder "/p" = some 0 ∧ s.registry "/p" = some 1 ∧ s.closed 0 = true) (by decide)
  exact ⟨s, hs, hbinder, hregistry, hclosed, (paths_of_visits hs).1 "/p" 0 hbinder⟩

/-- The accepted connection is closed, and takes the path of its listener with it. A socket that
was closed before is dropped, and takes the path that another has bound since, whose channels
are marked closed. -/
theorem not_named_acceptedClosed : (Base.run step initial
      [.create false, .bind 0 "/p", .listen 0, .create false, .connect 2 "/p", .accept 0,
        .close 3]).map (fun s => (s.binder "/p", s.holder 0, s.lookupUnixSocket "/p")) =
        .ok (some 0, .user, none) ∧ (Base.run step initial
      [.create false, .bind 0 "/p", .close 0, .pair, .bind 2 "/p", .drop 0]).map
      (fun s => (s.binder "/p", s.holder 2, s.lookupUnixSocket "/p", s.closed 0)) =
        .ok (some 2, .user, none, true) := by
  decide

end UnixState

end Petra.Net
