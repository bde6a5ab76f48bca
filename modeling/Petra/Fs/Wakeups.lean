import Petra.Fs.Poll

/-! # Wake-ups of pollers

A caller that is about to register has looked at its files and found none ready. If no file
turns ready before it is in the global queue, then whatever becomes ready later is notified
later, and the notification finds the caller in the queue. The interest lists are taken to be
level-triggered: an edge-triggered item is passed over when its file was ready, was not, and is
ready again.
-/

namespace Petra.Fs

open Base PollMask Function List SortedMap Option

/-! ### Masks -/

theorem and_eq_zero_of_sub {a b m : PollMask} (h : a &&& b = a) (hb : b &&& m = 0) :
    a &&& m = 0 := by
  rw [← h, BitVec.and_assoc, hb]
  exact BitVec.and_zero

theorem or_sub {a b r : PollMask} (ha : a &&& r = a) (hb : b &&& r = b) :
    (a ||| b) &&& r = a ||| b := by
  rw [BitVec.and_or_distrib_right, ha, hb]

theorem and_sub (a b : PollMask) : (a &&& b) &&& b = a &&& b := by
  rw [BitVec.and_assoc, BitVec.and_self]

/-! ### Scans -/

namespace EpollItem

variable (item : EpollItem) (ready : PollMask)

theorem scanned_keeps : (item.scanned ready).file = item.file ∧
    (item.scanned ready).events = item.events ∧ (item.scanned ready).edge = item.edge ∧
    ((item.scanned ready).disabled = false → item.disabled = false) := by
  unfold scanned
  split_ifs <;> simp_all

end EpollItem

namespace PollSystem

variable {s s' : PollSystem} {p : Probe}

/-- Every item of every interest list is level-triggered. -/
def LevelTriggered (items : Nat → List EpollItem) : Prop :=
  ∀ e, ∀ item ∈ items e, item.edge = false

theorem quiet_of_not_hits (hlevel : LevelTriggered s.items) (h : s.hits p = false) :
    ∀ a ∈ s.asks p, s.ready a.1 &&& a.2 = 0 := by
  intro a ha
  cases p with
  | pollFd file events =>
    cases file with
    | none => cases h
    | some f =>
      obtain rfl := mem_singleton.mp ha
      simpa [hits] using h
  | selectFd file read write except =>
    cases file with
    | none => cases ha
    | some f =>
      obtain ⟨want, hwant, rfl⟩ := mem_map.mp ha
      simpa using any_eq_false.mp h want hwant
  | item e i =>
    simp only [asks] at ha
    simp only [hits] at h
    cases hitem : (s.items e)[i]? with
    | none =>
      rw [hitem] at ha
      cases ha
    | some item =>
      have hedge := hlevel e item (mem_of_getElem? hitem)
      rw [hitem] at ha h
      dsimp only at ha
      split_ifs at ha with hdisabled
      · cases ha
      · obtain rfl := mem_singleton.mp ha
        simpa [EpollItem.hits, EpollItem.matched, hdisabled, hedge] using h

theorem counts_pos (h : s.hits p = true) : 0 < s.counts p := by
  unfold counts
  split
  · exact countP_pos_iff.mpr (any_eq_true.mp h)
  · exact Nat.zero_lt_one

theorem getElem?_mark_item {e i e' i' : Nat} {item' : EpollItem}
    (h : ((s.mark (.item e i)).items e')[i']? = some item') :
    ∃ item, (s.items e')[i']? = some item ∧
      (item' = item ∨ item' = item.scanned (s.ready item.file)) := by
  unfold mark at h
  dsimp only at h
  by_cases he : e' = e
  · subst he
    rw [update_self, getElem?_modify] at h
    obtain ⟨item, hitem, rfl⟩ := map_eq_some_iff.mp h
    refine ⟨item, hitem, ?_⟩
    split_ifs
    · exact .inr rfl
    · exact .inl rfl
  · rw [update_of_ne he] at h
    exact ⟨item', h, .inl rfl⟩

/-- A scan never makes an item ask for more. -/
theorem asks_mark (p q : Probe) : (s.mark p).asks q ⊆ s.asks q := by
  intro a ha
  cases p with
  | pollFd _ _ => exact ha
  | selectFd _ _ _ _ => exact ha
  | item e i =>
    cases q with
    | pollFd file _ | selectFd file _ _ _ => cases file <;> exact ha
    | item e' i' =>
      simp only [asks] at ha ⊢
      split at ha
      next item' hitem =>
        obtain ⟨item, hold, hnew⟩ := getElem?_mark_item hitem
        rw [hold]
        dsimp only at ha ⊢
        rcases hnew with rfl | rfl
        · exact ha
        · obtain ⟨hfile, hevents, _, hdisabled⟩ := item.scanned_keeps (s.ready item.file)
          split_ifs at ha with hoff
          · cases ha
          · rw [if_neg (by simp [hdisabled (by simpa using hoff)])]
            rwa [hfile, hevents] at ha
      · cases ha

theorem length_items_mark (p : Probe) (e : Nat) :
    ((s.mark p).items e).length = (s.items e).length := by
  cases p with
  | pollFd _ _ => rfl
  | selectFd _ _ _ _ => rfl
  | item e' i =>
    unfold mark
    by_cases he : e = e'
    · subst he
      simp
    · simp [update_of_ne he]

theorem levelTriggered_mark (h : LevelTriggered s.items) (p : Probe) :
    LevelTriggered (s.mark p).items := by
  cases p with
  | pollFd _ _ => exact h
  | selectFd _ _ _ _ => exact h
  | item e i =>
    intro e' item' hmem
    obtain ⟨i', hitem⟩ := mem_iff_getElem?.mp hmem
    obtain ⟨item, hold, hnew⟩ := getElem?_mark_item hitem
    have hedge := h e' item (mem_of_getElem? hold)
    rcases hnew with rfl | rfl
    · exact hedge
    · rw [(item.scanned_keeps (s.ready item.file)).2.2.1, hedge]

theorem probes_congr (h : ∀ e, (s'.items e).length = (s.items e).length) (w : Watch) :
    s'.probes w = s.probes w := by
  cases w with
  | poll fds => rfl
  | select fds => rfl
  | epoll e maxEvents =>
    simp only [probes, h e]

/-! ### What holds of a caller -/

/-- A caller that is about to register has looked at its files in order and found none ready. -/
structure Looked (s : PollSystem) (caller : PollCaller) : Prop where
  order : ∀ left count exclusive, caller.phase = .scanning left count exclusive →
    caller.prescan = false → count = 0 → ∃ done, s.probes caller.watch = done ++ left
  quiet : ∀ p ∈ s.passed caller, ∀ a ∈ s.asks p, s.ready a.1 &&& a.2 = 0
  queues : ∀ left, caller.phase = .registering left → ∃ before, left = before ++ [.global]

/-- A caller that sleeps is in the global queue, and nothing it asks for is settled. -/
def Heard (s : PollSystem) (c : Nat) (caller : PollCaller) : Prop :=
  caller.phase = .waiting → caller.woken = false →
    c ∈ s.queue .global ∧
      ∀ p ∈ s.probes caller.watch, ∀ a ∈ s.asks p, s.settled a.1 &&& a.2 = 0

variable {caller : PollCaller}

/-- Nothing is demanded of a caller that has looked at nothing yet. -/
theorem Looked.of_passed_nil
    (hscan : ∀ left count exclusive, caller.phase = .scanning left count exclusive →
      caller.prescan = false → count = 0 → left = s.probes caller.watch)
    (hnone : s.passed caller = []) (hqueues : ∀ left, caller.phase ≠ .registering left) :
    s.Looked caller where
  order left count exclusive hphase hpre hcount :=
    ⟨[], (hscan left count exclusive hphase hpre hcount).symm⟩
  quiet := by simp [hnone]
  queues left h := absurd h (hqueues left)

theorem passed_congr (hprobes : ∀ w, s'.probes w = s.probes w) (caller : PollCaller) :
    s'.passed caller = s.passed caller := by
  unfold passed
  simp only [hprobes]

/-- What a caller has found out stays true when nothing it has looked at turns ready. -/
theorem Looked.frame (h : s.Looked caller)
    (hprobes : ∀ w, s'.probes w = s.probes w) (hasks : ∀ p, s'.asks p ⊆ s.asks p)
    (hready : ∀ p ∈ s.passed caller, ∀ a ∈ s.asks p,
      s.ready a.1 &&& a.2 = 0 → s'.ready a.1 &&& a.2 = 0) : s'.Looked caller where
  order left count exclusive hphase hpre hcount := by
    rw [hprobes]
    exact h.order left count exclusive hphase hpre hcount
  quiet := by
    rw [passed_congr hprobes]
    intro p hp a ha
    exact hready p hp a (hasks p ha) (h.quiet p hp a (hasks p ha))
  queues := h.queues

variable {c : Nat} {q : PollQueue} {changes : List (Nat × PollMask)} {source f : Nat}
  {events : PollMask}

theorem Heard.frame (h : s.Heard c caller)
    (hprobes : ∀ w, s'.probes w = s.probes w) (hasks : ∀ p, s'.asks p ⊆ s.asks p)
    (hqueue : c ∈ s.queue .global → c ∈ s'.queue .global)
    (hsettled : ∀ f m, s.settled f &&& m = 0 → s'.settled f &&& m = 0) : s'.Heard c caller := by
  intro hphase hwoken
  obtain ⟨hin, hquiet⟩ := h hphase hwoken
  refine ⟨hqueue hin, ?_⟩
  rw [hprobes]
  intro p hp a ha
  exact hsettled _ _ (hquiet p hp a (hasks p ha))

/-- The invariant of the system. -/
structure Sound (s : PollSystem) : Prop where
  level : LevelTriggered s.items
  settled : ∀ f, s.settled f &&& s.ready f = s.settled f
  pending : ∀ source e, s.pending.get? source = some e → e.2 &&& s.ready e.1 = e.2
  deferred : ∀ e ∈ s.deferred, e.2 &&& s.ready e.1 = e.2
  looked : ∀ c caller, s.callers.get? c = some caller → s.Looked caller
  heard : ∀ c caller, s.callers.get? c = some caller → s.Heard c caller

/-- Only the caller itself is changed. -/
theorem Sound.setCaller (h : s.Sound) (hlooked : s.Looked caller)
    (hheard : s.Heard c caller) : (s.setCaller c caller).Sound :=
  { h with
    looked c' caller' hget := by
      have hsame : s.Looked caller' := by
        simp only [PollSystem.setCaller, get?_insert] at hget
        split_ifs at hget
        · cases hget
          exact hlooked
        · exact h.looked c' caller' hget
      exact ⟨hsame.order, hsame.quiet, hsame.queues⟩
    heard c' caller' hget := by
      simp only [PollSystem.setCaller, get?_insert] at hget
      split_ifs at hget with hc
      · cases hget
        exact hc ▸ hheard
      · exact h.heard c' caller' hget }

/-- Nobody sleeps unwoken. -/
def AllWoken (s : PollSystem) : Prop :=
  ∀ c caller, s.callers.get? c = some caller → caller.phase = .waiting → caller.woken = true

theorem get?_wakeAll {caller' : PollCaller} (h : (s.wakeAll q).callers.get? c = some caller') :
    ∃ caller, s.callers.get? c = some caller ∧
      caller' = { caller with woken := caller.woken || decide (c ∈ s.queue q) } := by
  unfold wakeAll at h
  rw [get?_mapValues] at h
  obtain ⟨caller, hcaller, rfl⟩ := map_eq_some_iff.mp h
  exact ⟨caller, hcaller, rfl⟩

theorem Sound.wakeAll (h : s.Sound) (q : PollQueue) : (s.wakeAll q).Sound :=
  { h with
    looked c caller' hget := by
      obtain ⟨caller, hcaller, rfl⟩ := get?_wakeAll hget
      have hold := h.looked c caller hcaller
      exact ⟨hold.order, hold.quiet, hold.queues⟩
    heard c caller' hget hphase hwoken := by
      obtain ⟨caller, hcaller, rfl⟩ := get?_wakeAll hget
      rw [Bool.or_eq_false_iff, decide_eq_false_iff_not] at hwoken
      obtain ⟨hin, hquiet⟩ := h.heard c caller hcaller hphase hwoken.1
      refine ⟨?_, hquiet⟩
      have hne : q ≠ .global := by
        rintro rfl
        exact hwoken.2 hin
      unfold PollSystem.wakeAll
      dsimp only
      rwa [update_of_ne hne.symm] }

/-- Whoever sleeps is in the global queue, so waking that wakes everybody. -/
theorem Sound.allWoken (h : s.Sound) : (s.wakeAll .global).AllWoken := by
  intro c caller' hget hphase
  obtain ⟨caller, hcaller, rfl⟩ := get?_wakeAll hget
  cases hwoken : caller.woken with
  | true => simp
  | false => simp [(h.heard c caller hcaller hphase hwoken).1]

theorem settle_sub {r : Nat → PollMask} {f : Nat} {m : PollMask}
    (hm : m &&& r f = m) (hchanges : ∀ e ∈ changes, e.2 &&& r e.1 = e.2) :
    changes.foldr (fun e m => if e.1 = f then m ||| e.2 else m) m &&& r f =
      changes.foldr (fun e m => if e.1 = f then m ||| e.2 else m) m := by
  induction changes with
  | nil => exact hm
  | cons e rest ih =>
    have hrest := ih (fun e he => hchanges e (by simp [he]))
    have he := hchanges e (by simp)
    rw [foldr_cons]
    split_ifs with hf
    · rw [hf] at he
      exact or_sub hrest he
    · exact hrest

theorem Sound.settle (h : s.Sound) (hall : s.AllWoken)
    (hchanges : ∀ e ∈ changes, e.2 &&& s.ready e.1 = e.2) : (s.settle changes).Sound :=
  { h with
    settled f := settle_sub (h.settled f) hchanges
    looked c caller hget := by
      have hold := h.looked c caller hget
      exact ⟨hold.order, hold.quiet, hold.queues⟩
    heard c caller hget hphase hwoken := by
      rw [hall c caller hget hphase] at hwoken
      cases hwoken }

theorem asks_congr (h : s'.items = s.items) (p : Probe) : s'.asks p = s.asks p := by
  cases p with
  | pollFd file _ => cases file <;> rfl
  | selectFd file _ _ _ => cases file <;> rfl
  | item e i => simp only [asks, h]

theorem asks_subset (h : s'.items = s.items) (p : Probe) : s'.asks p ⊆ s.asks p := by
  rw [asks_congr h p]
  exact List.Subset.refl _

/-- What is left of earlier events is there after a change. -/
theorem changed_sub {e : Nat × PollMask}
    (he : e = (f, events) ∨ ∃ old, old.2 &&& s.ready old.1 = old.2 ∧ e = stillThere f events old) :
    e.2 &&& (s.changed source f events).ready e.1 = e.2 := by
  change e.2 &&& update s.ready f events e.1 = e.2
  rcases he with rfl | ⟨old, hold, rfl⟩
  · rw [update_self, BitVec.and_self]
  · unfold stillThere
    split_ifs with hf
    · rw [hf, update_self]
      exact and_sub _ _
    · rwa [update_of_ne hf]

/-- A change that nobody has missed. -/
theorem Sound.changed (h : s.Sound)
    (hcalm : s.Calm (.change source f events)) : (s.changed source f events).Sound where
  level := h.level
  settled g := by
    unfold PollSystem.changed
    by_cases hg : g = f
    · subst hg
      simp only [update_self]
      exact and_sub _ _
    · simp only [update_of_ne hg]
      exact h.settled g
  pending source' e hget := by
    simp only [PollSystem.changed, get?_insert, get?_mapValues] at hget
    split_ifs at hget
    · cases hget
      exact changed_sub (.inl rfl)
    · obtain ⟨old, hold, rfl⟩ := map_eq_some_iff.mp hget
      exact changed_sub (.inr ⟨old, h.pending source' old hold, rfl⟩)
  deferred e he := by
    obtain ⟨old, hold, rfl⟩ := mem_map.mp he
    exact changed_sub (.inr ⟨old, h.deferred old hold, rfl⟩)
  looked c caller hget := by
    refine (h.looked c caller hget).frame (fun _ => rfl) (asks_subset rfl) ?_
    intro p hp a ha hquiet
    change update s.ready f events a.1 &&& a.2 = 0
    by_cases hf : a.1 = f
    · rw [hf, update_self]
      exact hcalm (c, caller) (get?_eq_some.mp hget) p hp a ha hf
    · rwa [update_of_ne hf]
  heard c caller hget := by
    refine (h.heard c caller hget).frame (fun _ => rfl) (asks_subset rfl) (fun hin => hin) ?_
    intro g m hm
    change update s.settled f (s.settled f &&& events) g &&& m = 0
    by_cases hg : g = f
    · subst hg
      rw [update_self, BitVec.and_comm (s.settled g), BitVec.and_assoc, hm]
      exact BitVec.and_zero
    · rwa [update_of_ne hg]

/-- Whatever one scan step does, the others have still looked. -/
theorem Sound.mark (h : s.Sound) (p : Probe) : (s.mark p).Sound := by
  have hprobes : ∀ w, (s.mark p).probes w = s.probes w := probes_congr (length_items_mark p)
  have hrest : (s.mark p).callers = s.callers ∧ (s.mark p).ready = s.ready ∧
      (s.mark p).settled = s.settled ∧ (s.mark p).pending = s.pending ∧
      (s.mark p).deferred = s.deferred ∧ (s.mark p).queue = s.queue := by
    cases p <;> exact ⟨rfl, rfl, rfl, rfl, rfl, rfl⟩
  obtain ⟨hcallers, hready, hsettled, hpending, hdeferred, hqueue⟩ := hrest
  refine ⟨levelTriggered_mark h.level p, ?_, ?_, ?_, ?_, ?_⟩
  · rw [hsettled, hready]
    exact h.settled
  · rw [hpending, hready]
    exact h.pending
  · rw [hdeferred, hready]
    exact h.deferred
  · intro c caller hget
    rw [hcallers] at hget
    exact (h.looked c caller hget).frame hprobes (asks_mark p) (fun _ _ _ _ hq => by rwa [hready])
  · intro c caller hget
    rw [hcallers] at hget
    exact (h.heard c caller hget).frame hprobes (asks_mark p) (fun hin => by rwa [hqueue])
      (fun _ _ hm => by rwa [hsettled])

variable {watch : Watch} {woken exclusive : Bool}

/-- What a scan has left behind, given what is in front of it. -/
theorem passed_scanning {done left : List Probe} (h : s.probes watch = done ++ left) :
    s.passed ⟨watch, false, .scanning left 0 exclusive, woken⟩ = done := by
  simp [passed, h]

theorem ready_mark (p : Probe) : (s.mark p).ready = s.ready := by cases p <;> rfl

variable {count : Nat} {prescan : Bool}

/-- A scan step that counts nothing: the caller has now looked at one thing more. -/
theorem Looked.scan_miss {rest : List Probe} (hlevel : LevelTriggered s.items)
    (h : s.Looked ⟨watch, prescan, .scanning (p :: rest) count exclusive, woken⟩)
    (hmiss : s.hits p = false) :
    (s.mark p).Looked ⟨watch, prescan, .scanning rest count exclusive, woken⟩ := by
  have hprobes : ∀ w, (s.mark p).probes w = s.probes w := probes_congr (length_items_mark p)
  have horder : prescan = false → count = 0 →
      ∃ done, s.probes watch = (done ++ [p]) ++ rest ∧ ∀ q ∈ done, ∀ a ∈ s.asks q,
        s.ready a.1 &&& a.2 = 0 := by
    rintro rfl rfl
    obtain ⟨done, hdone⟩ := h.order _ _ _ rfl rfl rfl
    have hquiet := h.quiet
    rw [passed_scanning hdone] at hquiet
    exact ⟨done, by simp [hdone], hquiet⟩
  refine ⟨?_, ?_, nofun⟩
  · intro left n excl hphase hpre hcount
    cases hphase
    obtain ⟨done, hdone, _⟩ := horder hpre hcount
    exact ⟨done ++ [p], (hprobes watch).trans hdone⟩
  intro q hq a ha
  rw [ready_mark]
  have ha' := asks_mark p q ha
  by_cases hwindow : prescan = false ∧ count = 0
  · obtain ⟨rfl, rfl⟩ := hwindow
    obtain ⟨done, hdone, hquiet⟩ := horder rfl rfl
    rw [passed_scanning ((hprobes watch).trans hdone)] at hq
    rcases mem_append.mp hq with hq | hq
    · exact hquiet q hq a ha'
    · rw [mem_singleton.mp hq] at ha'
      exact quiet_of_not_hits hlevel hmiss a ha'
  · simp [passed, hwindow] at hq

/-- A caller that has counted something is not about to register. -/
theorem looked_of_count {left : List Probe} (hcount : 0 < count) :
    s.Looked ⟨watch, prescan, .scanning left count exclusive, woken⟩ := by
  refine .of_passed_nil ?_ ?_ (nofun)
  · intro _ _ _ hphase _ hzero
    cases hphase
    omega
  · simp [passed, hcount.ne']

/-- A step that leaves files, items and callers alone. -/
theorem Sound.bookkeeping (h : s.Sound) (hitems : s'.items = s.items) (hready : s'.ready = s.ready)
    (hsettled : s'.settled = s.settled) (hcallers : s'.callers = s.callers)
    (hqueue : ∀ c ∈ s.queue .global, c ∈ s'.queue .global)
    (hpending : ∀ source e, s'.pending.get? source = some e → e.2 &&& s.ready e.1 = e.2)
    (hdeferred : ∀ e ∈ s'.deferred, e.2 &&& s.ready e.1 = e.2) : s'.Sound := by
  have hprobes : ∀ w, s'.probes w = s.probes w := probes_congr (fun e => by rw [hitems])
  refine ⟨hitems ▸ h.level, by rw [hsettled, hready]; exact h.settled, by rwa [hready],
    by rwa [hready], ?_, ?_⟩
  · intro c caller hget
    rw [hcallers] at hget
    exact (h.looked c caller hget).frame hprobes (asks_subset hitems)
      (fun _ _ _ _ hq => by rwa [hready])
  · intro c caller hget
    rw [hcallers] at hget
    exact (h.heard c caller hget).frame hprobes (asks_subset hitems) (hqueue c)
      (fun _ _ hm => by rwa [hsettled])

theorem Sound.unlock (h : s.Sound) (w : Watch) : (s.unlock w).Sound := by
  cases w with
  | poll _ => exact h
  | select _ => exact h
  | epoll e _ =>
    exact h.bookkeeping rfl rfl rfl rfl (fun _ hin => hin) h.pending h.deferred

/-- A caller that has finished is not waiting for anything. -/
theorem looked_returned :
    s.Looked ⟨watch, prescan, .returned count, woken⟩ :=
  .of_passed_nil (nofun) rfl (nofun)

theorem looked_starting : s.Looked ⟨watch, prescan, .starting, woken⟩ :=
  .of_passed_nil (nofun) rfl (nofun)

theorem heard_of_ne (h : caller.phase ≠ .waiting) :
    s.Heard c caller := fun hphase => absurd hphase h

theorem queues_global (watch : Watch) : ∃ before, watch.queues = before ++ [.global] := by
  cases watch with
  | poll _ => exact ⟨[], rfl⟩
  | select _ => exact ⟨[], rfl⟩
  | epoll e _ => exact ⟨[.own e], rfl⟩

/-- A scan that has counted nothing has looked at everything when it is through. -/
theorem Looked.registering (h : s.Looked ⟨watch, false, .scanning [] 0 exclusive, woken⟩) :
    s.Looked ⟨watch, false, .registering watch.queues, woken⟩ := by
  obtain ⟨done, hdone⟩ := h.order _ _ _ rfl rfl rfl
  have hquiet := h.quiet
  rw [passed_scanning hdone] at hquiet
  refine ⟨nofun, ?_, ?_⟩
  · intro p hp
    change p ∈ s.probes watch at hp
    rw [hdone, append_nil] at hp
    exact hquiet p hp
  · intro left hphase
    cases hphase
    exact queues_global watch

theorem Sound.finishScan {c count : Nat} (h : s.Sound)
    (hlooked : s.Looked ⟨watch, prescan, .scanning [] count exclusive, woken⟩) :
    (s.finishScan c ⟨watch, prescan, .scanning [] count exclusive, woken⟩ count exclusive).Sound := by
  have hfree := h.unlock watch
  unfold PollSystem.finishScan
  split_ifs with hcount hprescan
  · have hback : ((s.unlock watch).setCaller c ⟨watch, prescan, .returned count, woken⟩).Sound :=
      hfree.setCaller looked_returned (heard_of_ne (by simp))
    cases watch with
    | poll _ => exact hback
    | select _ => exact hback
    | epoll e maxEvents =>
      dsimp only
      split_ifs
      · exact hback.wakeAll _
      · exact hback
  · exact hfree.setCaller looked_starting (heard_of_ne (by simp))
  · obtain rfl : count = 0 := by omega
    obtain rfl : prescan = false := by simpa using hprescan
    refine hfree.setCaller ?_ (heard_of_ne (by simp))
    have hsame : (s.unlock watch).items = s.items ∧ (s.unlock watch).ready = s.ready := by
      cases watch <;> exact ⟨rfl, rfl⟩
    exact hlooked.registering.frame (fun w => probes_congr (fun e => by rw [hsame.1]) w)
      (asks_subset hsame.1) (fun _ _ _ _ hq => by rwa [hsame.2])

/-- A caller that appends its waker: after the last queue it is in the global one. -/
theorem Sound.register {rest : List PollQueue} (h : s.Sound)
    (hlooked : s.Looked ⟨watch, prescan, .registering (q :: rest), woken⟩) :
    ({ s with queue := update s.queue q (s.queue q ++ [c]) }.setCaller c
      ⟨watch, prescan, if rest.isEmpty then .waiting else .registering rest, woken⟩).Sound := by
  obtain ⟨before, hbefore⟩ := hlooked.queues _ rfl
  have hgrown : ∀ d ∈ s.queue .global, d ∈ update s.queue q (s.queue q ++ [c]) .global := by
    intro d hd
    by_cases hq : q = .global
    · subst hq
      simp [hd]
    · rwa [update_of_ne (Ne.symm hq)]
  have hqueued : Sound { s with queue := update s.queue q (s.queue q ++ [c]) } :=
    h.bookkeeping rfl rfl rfl rfl hgrown h.pending h.deferred
  cases rest with
  | nil =>
    obtain rfl : q = .global := by simpa using congrArg getLast? hbefore
    refine hqueued.setCaller ?_ ?_
    · exact .of_passed_nil (nofun) rfl (nofun)
    · intro _ _
      refine ⟨by simp, ?_⟩
      intro p hp a ha
      -- the files were not ready when the caller looked, so nothing is settled
      exact and_eq_zero_of_sub (h.settled a.1) (hlooked.quiet p hp a (asks_subset rfl p ha))
  | cons next rest =>
    refine hqueued.setCaller ?_ (heard_of_ne (by simp))
    refine ⟨nofun, ?_, ?_⟩
    · intro p hp a ha
      exact hlooked.quiet p hp a (asks_subset rfl p ha)
    intro left hphase
    cases hphase
    cases before with
    | nil => simp at hbefore
    | cons first before =>
      refine ⟨before, ?_⟩
      rw [cons_append, cons.injEq] at hbefore
      exact hbefore.2

theorem pending_erase (h : s.Sound) (source : Nat) (source' : Nat) (e : Nat × PollMask)
    (hget : (s.pending.erase source).get? source' = some e) : e.2 &&& s.ready e.1 = e.2 := by
  rw [get?_erase] at hget
  split_ifs at hget
  exact h.pending source' e hget

/-- What a caller has looked at stays as it was until the caller can be woken. -/
theorem Sound.step {op : PollOp} (h : s.Sound) (hcalm : s.Calm op) (hstep : s.step op = .ok s') :
    s'.Sound := by
  cases op <;> simp only [PollSystem.step] at hstep
  case call c watch | resume c =>
    split at hstep
    · cases hstep
      exact h.setCaller looked_starting (heard_of_ne (by simp))
    · cases hstep
  case start c =>
    split at hstep
    · rename_i watch prescan woken hget
      have hlooked : s.Looked ⟨watch, prescan, .scanning (s.probes watch) 0 false, woken⟩ := by
        refine .of_passed_nil ?_ (by simp [passed]) (nofun)
        intro _ _ _ hphase _ _
        cases hphase
        rfl
      have hnext := h.setCaller (c := c) hlooked (heard_of_ne (by simp))
      split at hstep
      · split_ifs at hstep
        cases hstep
        exact hnext.bookkeeping rfl rfl rfl rfl (fun _ hin => hin) h.pending h.deferred
      · cases hstep
        exact hnext
    · cases hstep
  case scan c =>
    split at hstep
    · rename_i watch prescan p rest count exclusive woken hget
      by_cases hhit : s.hits p = true
      · rw [if_pos hhit] at hstep
        cases hstep
        exact (h.mark p).setCaller (looked_of_count (Nat.add_pos_right count (counts_pos hhit)))
          (heard_of_ne (by simp))
      · rw [if_neg hhit] at hstep
        cases hstep
        refine (h.mark p).setCaller ?_ (heard_of_ne (by simp))
        exact (h.looked c _ hget).scan_miss h.level (by simpa using hhit)
    · rename_i watch prescan count exclusive woken hget
      cases hstep
      exact h.finishScan (h.looked c _ hget)
    · cases hstep
  case register c =>
    split at hstep
    · rename_i watch prescan q rest woken hget
      cases hstep
      exact h.register (h.looked c _ hget)
    · cases hstep
  case change source f events =>
    split at hstep
    · cases hstep
      exact h.changed hcalm
    · cases hstep
  case notify source =>
    split at hstep
    · rename_i e hget
      cases hstep
      have hdone : Sound { s.wakeAll .global with pending := s.pending.erase source } :=
        (h.wakeAll .global).bookkeeping rfl rfl rfl rfl (fun _ hin => hin)
          (pending_erase h source) h.deferred
      refine hdone.settle h.allWoken ?_
      intro e' he'
      rw [mem_singleton.mp he']
      exact h.pending source e hget
    · cases hstep
  case notifyIrq source =>
    split at hstep
    · rename_i e hget
      cases hstep
      exact h.bookkeeping rfl rfl rfl rfl (fun _ hin => hin) (pending_erase h source)
        (forall_mem_cons.mpr ⟨h.pending source e hget, h.deferred⟩)
    · cases hstep
  case work =>
    split_ifs at hstep
    cases hstep
    exact h.bookkeeping rfl rfl rfl rfl (fun _ hin => hin) h.pending h.deferred
  case workWake =>
    split_ifs at hstep
    cases hstep
    have hdone : Sound { s.wakeAll .global with working := s.working - 1, deferred := [] } :=
      (h.wakeAll .global).bookkeeping rfl rfl rfl rfl (fun _ hin => hin) h.pending (by simp)
    exact hdone.settle h.allWoken h.deferred

theorem sound_init {items : Nat → List EpollItem} (hlevel : LevelTriggered items) :
    (init items).Sound where
  level := hlevel
  settled _ := BitVec.and_self
  pending _ _ h := nomatch h
  deferred _ h := nomatch h
  looked _ _ h := nomatch h
  heard _ _ h := nomatch h

/-- No caller sleeps through a notification, whatever callers and sources do in whatever order,
unless a file turns ready just before a caller that has looked at it registers. -/
theorem not_forgotten_of_visits {items : Nat → List EpollItem} (hlevel : LevelTriggered items)
    {s : PollSystem} (h : Visits step Calm (init items) s) (c : Nat) : ¬ s.Forgotten c := by
  have hsound := h.invariant (sound_init hlevel) (fun _ _ _ hs => hs.step)
  rintro ⟨caller, hget, hphase, hwoken, p, hp, a, ha, hsettled⟩
  exact hsettled ((hsound.heard c caller hget hphase hwoken).2 p hp a ha)

/-- An item that watches a file for input. -/
def inputItem (edge : Bool) : EpollItem := ⟨0, IN, edge, false, false, false, 0⟩

/-- A caller of `epoll_wait` sleeps until the notification of a change has come, while another one
is still looking. -/
theorem not_forgotten_after_notify : ∃ s, Visits step Calm (init (fun _ => [inputItem false])) s ∧
    s.settled 0 = IN ∧
    s.callers.get? 1 = some ⟨.epoll 0 4, false, .waiting, true⟩ ∧ ¬ s.Forgotten 1 := by
  obtain ⟨s, hs, hsettled, hget⟩ := exists_visits step Calm (init (fun _ => [inputItem false]))
    [.call 1 (.epoll 0 4), .start 1, .scan 1, .scan 1, .register 1, .call 2 (.poll [(some 0, IN)]),
      .register 1, .start 2, .change 7 0 IN, .scan 2, .notify 7]
    (fun s => s.settled 0 = IN ∧
      s.callers.get? 1 = some ⟨.epoll 0 4, false, .waiting, true⟩) (by decide)
  have hlevel : LevelTriggered (fun _ => [inputItem false]) := by
    intro _ item hitem
    rw [mem_singleton.mp hitem]
    rfl
  exact ⟨s, hs, hsettled, hget, not_forgotten_of_visits hlevel hs 1⟩

/-- A file turns ready and is notified after `poll` has looked at it and before it registers.
And an edge-triggered item whose file was drained and filled again is passed over. -/
theorem forgotten_between_scan_and_register :
    (∃ s, Visits step (fun _ _ => True) (init (fun _ => [])) s ∧ s.Forgotten 1) ∧
      ∃ s, Visits step Calm (init (fun _ => [inputItem true])) s ∧ s.Forgotten 2 := by
  constructor
  · obtain ⟨s, hs, hget, hsettled, hp, ha⟩ := exists_visits step (fun _ _ => True)
      (init (fun _ => [])) [.call 1 (.poll [(some 0, IN)]), .start 1, .scan 1, .scan 1, .start 1,
        .scan 1, .change 7 0 IN, .notify 7, .scan 1, .register 1]
      (fun s => s.callers.get? 1 = some ⟨.poll [(some 0, IN)], false, .waiting, false⟩ ∧
        s.settled 0 &&& (IN ||| ALWAYS) ≠ 0 ∧
        .pollFd (some 0) IN ∈ s.probes (.poll [(some 0, IN)]) ∧
        (0, IN ||| ALWAYS) ∈ s.asks (.pollFd (some 0) IN)) (by decide)
    exact ⟨s, hs, _, hget, rfl, rfl, _, hp, _, ha, hsettled⟩
  · obtain ⟨s, hs, hget, hsettled, hp, ha⟩ := exists_visits step Calm
      (init (fun _ => [inputItem true])) [.change 7 0 IN, .notify 7, .call 1 (.epoll 0 4), .start 1,
        .scan 1, .scan 1, .change 7 0 0, .notify 7, .change 7 0 IN, .notify 7,
        .call 2 (.epoll 0 4), .start 2, .scan 2, .scan 2, .register 2, .register 2]
      (fun s => s.callers.get? 2 = some ⟨.epoll 0 4, false, .waiting, false⟩ ∧
        s.settled 0 &&& (IN ||| ERR ||| HUP) ≠ 0 ∧ .item 0 0 ∈ s.probes (.epoll 0 4) ∧
        (0, IN ||| ERR ||| HUP) ∈ s.asks (.item 0 0)) (by decide)
    exact ⟨s, hs, _, hget, rfl, rfl, _, hp, _, ha, hsettled⟩

end PollSystem

end Petra.Fs
