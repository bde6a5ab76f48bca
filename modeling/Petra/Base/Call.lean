import Mathlib

/-! # Calls that return, fail, or stop the system

A call reads and changes a state. It returns a value, returns an error code
with whatever it had changed by then, or panics. After a panic there is no
next state. Pre- and postconditions speak about calls that come back.
-/

namespace Base

/-- Both halves of a sequence that succeeded did. -/
theorem ok_of_bind {ε α β : Type} {x : Except ε α} {f : α → Except ε β} {b : β}
    (h : x >>= f = .ok b) : ∃ a, x = .ok a ∧ f a = .ok b := by
  cases x with
  | error e => cases h
  | ok a => exact ⟨a, rfl, h⟩

/-- A stateful call: panics with a `π`, or ends in a state with a value or an `ε`. -/
def Call (π ε σ α : Type) : Type := σ → Except π (Except ε α × σ)

namespace Call

variable {π ε σ α β : Type} {k : Unit → Call π ε σ β} {g : σ → Call π ε σ β}

def pure (a : α) : Call π ε σ α := fun s => .ok (.ok a, s)

def bind (m : Call π ε σ α) (f : α → Call π ε σ β) : Call π ε σ β := fun s =>
  match m s with
  | .error p => .error p
  | .ok (.error e, s') => .ok (.error e, s')
  | .ok (.ok a, s') => f a s'

instance : Monad (Call π ε σ) where
  pure := pure
  bind := bind

/-- Return an error code. -/
def fail (e : ε) : Call π ε σ α := fun s => .ok (.error e, s)

/-- Panic. -/
def abort (p : π) : Call π ε σ α := fun _ => .error p

def get : Call π ε σ σ := fun s => .ok (.ok s, s)

def set (s : σ) : Call π ε σ Unit := fun _ => .ok (.ok (), s)

/-- Fail with `e` unless the test holds. -/
def check (test : Bool) (e : ε) : Call π ε σ Unit := if test then pure () else fail e

/-- Panic with `p` unless the test holds. -/
def assert (test : Bool) (p : π) : Call π ε σ Unit := if test then pure () else abort p

/-- The value of a computation that can only panic. -/
def orAbort (r : Except π α) : Call π ε σ α :=
  match r with
  | .error p => abort p
  | .ok a => pure a

/-- The value of a computation that can only fail. -/
def orFail (r : Except ε α) : Call π ε σ α :=
  match r with
  | .error e => fail e
  | .ok a => pure a

/-- Started where `P` holds, a call either panics as `E` allows or ends where `Q` holds. -/
def Ensures (P : σ → Prop) (m : Call π ε σ α) (Q : Except ε α → σ → Prop) (E : π → Prop) : Prop :=
  ∀ s, P s → match m s with
    | .error p => E p
    | .ok (r, s') => Q r s'

/-- The call keeps `I`, whether it returns or fails. -/
def Keeps (I : σ → Prop) (m : Call π ε σ α) (E : π → Prop) : Prop :=
  m.Ensures I (fun _ => I) E

section Rules

variable {P P' : σ → Prop} {Q Q' : Except ε α → σ → Prop} {E : π → Prop} {m : Call π ε σ α}

theorem Ensures.weaken (h : m.Ensures P Q E) (hpre : ∀ s, P' s → P s) (hpost : ∀ r s, Q r s → Q' r s) :
    m.Ensures P' Q' E := by
  intro s hs
  have hrun := h s (hpre s hs)
  cases hm : m s with
  | error p => rwa [hm] at hrun
  | ok out =>
    rw [hm] at hrun
    exact hpost _ _ hrun

theorem Ensures.imp (h : m.Ensures P Q E) (hpost : ∀ r s, Q r s → Q' r s) : m.Ensures P Q' E :=
  h.weaken (fun _ hs => hs) hpost

theorem Ensures.of_forall (h : ∀ s, P s → m.Ensures (· = s) Q E) : m.Ensures P Q E :=
  fun s hs => h s hs s rfl

variable {Q : Except ε β → σ → Prop} {f : α → Call π ε σ β} {a : β}

/-- Sequencing: an error of the first call is the error of the whole. -/
theorem Ensures.bind {R : α → σ → Prop} (hm : m.Ensures P (fun r s => match r with
      | .error e => Q (.error e) s
      | .ok a => R a s) E)
    (hf : ∀ a, (f a).Ensures (R a) Q E) : (m >>= f).Ensures P Q E := by
  intro s hs
  have hfirst := hm s hs
  change match Call.bind m f s with
    | .error p => E p
    | .ok (r, s') => Q r s'
  unfold Call.bind
  cases hrun : m s with
  | error p => rwa [hrun] at hfirst
  | ok out =>
    obtain ⟨first, mid⟩ := out
    rw [hrun] at hfirst
    cases first with
    | error e => exact hfirst
    | ok a => exact hf a mid hfirst

theorem Ensures.pure (h : ∀ s, P s → Q (.ok a) s) : (Pure.pure a : Call π ε σ β).Ensures P Q E := h

variable {e : ε} {p : π} {s' : σ}

theorem Ensures.fail (h : ∀ s, P s → Q (.error e) s) :
    (fail e : Call π ε σ β).Ensures P Q E := h

theorem Ensures.abort (h : ∀ s, P s → E p) : (abort p : Call π ε σ β).Ensures P Q E := h

theorem Ensures.get (h : ∀ s, P s → (g s).Ensures (fun s' => s' = s) Q E) :
    (get >>= g).Ensures P Q E := fun s hs => h s hs s rfl

theorem Ensures.set (h : (k ()).Ensures (· = s') Q E) :
    (set s' >>= k).Ensures P Q E := fun _ _ => h s' rfl

/-- A change of state as the last act of a call. -/
theorem Ensures.set_pure (h : Q (.ok a) s') :
    (Call.set s' >>= fun _ => Pure.pure a).Ensures P Q E := fun _ _ => h

variable {test : Bool}

theorem Ensures.check (hfail : ∀ s, P s → Q (.error e) s)
    (h : test = true → (k ()).Ensures P Q E) : (check test e >>= k).Ensures P Q E := by
  cases test with
  | true => exact h rfl
  | false => exact hfail

theorem Ensures.assert (hpanic : test = false → ∀ s, P s → E p)
    (h : test = true → (k ()).Ensures P Q E) : (assert test p >>= k).Ensures P Q E := by
  cases test with
  | true => exact h rfl
  | false => exact hpanic rfl

/-- Where nothing is asked of a panic, an assertion may fail. -/
theorem Ensures.assert_any (h : (k ()).Ensures P Q fun _ => True) :
    (Call.assert test p >>= k).Ensures P Q fun _ => True :=
  Ensures.assert (fun _ _ _ => trivial) fun _ => h

theorem Ensures.orAbort {r : Except π α} (hpanic : ∀ p, r = .error p → ∀ s, P s → E p)
    (h : ∀ a, r = .ok a → (f a).Ensures P Q E) : (orAbort r >>= f).Ensures P Q E := by
  cases r with
  | error p => exact hpanic p rfl
  | ok a => exact h a rfl

variable {r : Except ε α}

theorem Ensures.orFail (hfail : ∀ e s, P s → Q (.error e) s)
    (h : ∀ a, r = .ok a → (f a).Ensures P Q E) :
    (orFail r >>= f).Ensures P Q E := by
  cases r with
  | error e => exact hfail e
  | ok a => exact h a rfl

theorem Ensures.ite {c : Prop} [Decidable c] {m m' : Call π ε σ β}
    (h : c → m.Ensures P Q E) (h' : ¬ c → m'.Ensures P Q E) :
    (if c then m else m').Ensures P Q E := by
  split_ifs with hc
  · exact h hc
  · exact h' hc

variable {I : σ → Prop}

theorem Keeps.pure : (Pure.pure a : Call π ε σ β).Keeps I E :=
  fun _ hs => hs

theorem Keeps.fail : (fail e : Call π ε σ β).Keeps I E :=
  fun _ hs => hs

/-- What the first call ends with, the rest keeps. -/
theorem Ensures.bind_keeps (hm : m.Ensures P (fun _ => I) E) (hf : ∀ a, (f a).Keeps I E) :
    (m >>= f).Ensures P (fun _ => I) E := by
  apply Ensures.bind (R := fun _ => I)
  · refine hm.imp ?_
    intro r s hs
    cases r <;> exact hs
  · exact hf

theorem Keeps.bind (hm : m.Keeps I E) (hf : ∀ a, (f a).Keeps I E) : (m >>= f).Keeps I E :=
  Ensures.bind_keeps hm hf

theorem Keeps.check (h : test = true → (k ()).Keeps I E) :
    (check test e >>= k).Keeps I E :=
  Ensures.check (fun _ hs => hs) h

theorem Keeps.checked : (Call.check test e : Call π ε σ Unit).Keeps I E := by
  cases test <;> exact fun _ hs => hs

theorem Keeps.orFail (h : ∀ a, r = .ok a → (f a).Keeps I E) : (orFail r >>= f).Keeps I E :=
  Ensures.orFail (fun _ _ hs => hs) h

theorem Keeps.get (h : ∀ s, I s → (g s).Keeps I E) :
    (get >>= g).Keeps I E := fun s hs => h s hs s hs

theorem Keeps.set (h : I s') : (set s' : Call π ε σ Unit).Keeps I E := fun _ _ => h

/-- What a call ensures holds where it ends. -/
theorem Ensures.holds {Q : Except ε α → σ → Prop} {s s' : σ} (h : m.Ensures P Q E) (hs : P s)
    (hrun : m s = .ok (r, s')) : Q r s' := by
  have hend := h s hs
  rwa [hrun] at hend

theorem Keeps.holds {s s' : σ} (h : m.Keeps I E) (hs : I s) (hrun : m s = .ok (r, s')) : I s' :=
  Ensures.holds h hs hrun

end Rules

/-! ### Calls that return

Running a sequence whose first part is known to return. -/

section Returns

variable {m : Call π ε σ α} {f : α → Call π ε σ β} {a : α} {s s' : σ} {test : Bool} {e : ε}

theorem bind_assoc {γ : Type} (m : Call π ε σ α) (f : α → Call π ε σ β)
    (g : β → Call π ε σ γ) : m >>= f >>= g = m >>= fun a => f a >>= g := by
  funext s
  change bind (bind m f) g s = bind m (fun a => bind (f a) g) s
  unfold bind
  cases m s with
  | error p => rfl
  | ok out =>
    obtain ⟨first, mid⟩ := out
    cases first <;> rfl

theorem run_bind (h : m s = .ok (.ok a, s')) : (m >>= f) s = f a s' := by
  change bind m f s = f a s'
  unfold bind
  rw [h]

theorem run_bind_error (h : m s = .ok (.error e, s')) :
    (m >>= f) s = .ok (.error e, s') := by
  change bind m f s = .ok (.error e, s')
  unfold bind
  rw [h]

theorem run_check (h : test = true) : (check test e >>= k) s = k () s := by
  subst h
  rfl

theorem run_assert {p : π} (h : test = true) : (assert test p >>= k) s = k () s := by
  subst h
  rfl

theorem run_orAbort {r : Except π α} (h : r = .ok a) : (orAbort r >>= f) s = f a s := by
  subst h
  rfl

end Returns

/-! ### Inversion

What the parts of a sequence did when the whole returned. -/

section Inversion

variable {m : Call π ε σ α} {f : α → Call π ε σ β} {b : β} {s s' : σ}

theorem ok_of_run_bind (h : (m >>= f) s = .ok (.ok b, s')) :
    ∃ a mid, m s = .ok (.ok a, mid) ∧ f a mid = .ok (.ok b, s') := by
  change bind m f s = .ok (.ok b, s') at h
  unfold bind at h
  cases hrun : m s with
  | error p => rw [hrun] at h; cases h
  | ok out =>
    obtain ⟨first, mid⟩ := out
    rw [hrun] at h
    cases first with
    | error e => cases h
    | ok a => exact ⟨a, mid, rfl, h⟩

theorem ok_of_run_check {test : Bool} {e : ε}
    (h : (check test e >>= k) s = .ok (.ok b, s')) :
    test = true ∧ k () s = .ok (.ok b, s') := by
  cases test with
  | true => exact ⟨rfl, h⟩
  | false => cases h

theorem ok_of_run_assert {test : Bool} {p : π}
    (h : (assert test p >>= k) s = .ok (.ok b, s')) :
    test = true ∧ k () s = .ok (.ok b, s') := by
  cases test with
  | true => exact ⟨rfl, h⟩
  | false => cases h

theorem ok_of_run_orFail {r : Except ε α} (h : (orFail r >>= f) s = .ok (.ok b, s')) :
    ∃ a, r = .ok a ∧ f a s = .ok (.ok b, s') := by
  cases r with
  | error e => cases h
  | ok a => exact ⟨a, rfl, h⟩

end Inversion

/-! ### Calls that fail -/

section Fails

variable {m : Call π ε σ α} {f : α → Call π ε σ β} {Q : σ → Prop} {s t : σ} {test : Bool} {e : ε}

/-- A call that fails does so where `Q` holds. -/
def FailsIn (Q : σ → Prop) (m : Call π ε σ α) (s : σ) : Prop :=
  ∀ e t, m s = .ok (.error e, t) → Q t

theorem FailsIn.bind (hm : m.FailsIn Q s)
    (hf : ∀ a t, m s = .ok (.ok a, t) → (f a).FailsIn Q t) : (m >>= f).FailsIn Q s := by
  intro e t h
  change Call.bind m f s = _ at h
  unfold Call.bind at h
  split at h
  · cases h
  next hrun =>
    cases h
    exact hm _ _ hrun
  next hrun => exact hf _ _ hrun _ _ h

/-- The first call only looks. -/
theorem Keeps.failsIn_bind {E : π → Prop} (hm : m.Keeps (· = s) E) (hs : Q s)
    (hf : ∀ a, (f a).FailsIn Q s) : (m >>= f).FailsIn Q s := by
  refine FailsIn.bind (fun e t hrun => ?_) fun a t hrun => ?_
  · rw [hm.holds rfl hrun]
    exact hs
  · rw [hm.holds rfl hrun]
    exact hf a

@[simp] theorem failsIn_pure {a : α} : (Pure.pure a : Call π ε σ α).FailsIn Q s := nofun

@[simp] theorem failsIn_abort {p : π} : (abort p : Call π ε σ α).FailsIn Q s := nofun

@[simp] theorem failsIn_set : (set t : Call π ε σ Unit).FailsIn Q s := nofun

@[simp] theorem failsIn_fail (hs : Q s) : (fail e : Call π ε σ α).FailsIn Q s := by
  rintro _ _ ⟨⟩
  exact hs

@[simp] theorem failsIn_pure_bind {a : α} :
    (Pure.pure a >>= f).FailsIn Q s ↔ (f a).FailsIn Q s := Iff.rfl

@[simp] theorem failsIn_get_bind : (get >>= g).FailsIn Q s ↔ (g s).FailsIn Q s := Iff.rfl

@[simp] theorem failsIn_set_bind : (set t >>= k).FailsIn Q s ↔ (k ()).FailsIn Q t := Iff.rfl

@[simp] theorem failsIn_check_bind (hs : Q s) :
    (check test e >>= k).FailsIn Q s ↔ (test = true → (k ()).FailsIn Q s) := by
  cases test with
  | true => exact ⟨fun h _ => h, fun h => h rfl⟩
  | false => exact iff_of_true (failsIn_fail hs) nofun

@[simp] theorem failsIn_assert_bind {p : π} :
    (assert test p >>= k).FailsIn Q s ↔ (test = true → (k ()).FailsIn Q s) := by
  cases test with
  | true => exact ⟨fun h _ => h, fun h => h rfl⟩
  | false => exact iff_of_true failsIn_abort nofun

@[simp] theorem failsIn_orFail_bind {r : Except ε α} (hs : Q s) :
    (orFail r >>= f).FailsIn Q s ↔ ∀ a, r = .ok a → (f a).FailsIn Q s := by
  cases r with
  | ok a => exact ⟨fun h _ ha => Except.ok.inj ha ▸ h, fun h => h a rfl⟩
  | error e => exact iff_of_true (failsIn_fail hs) nofun

@[simp] theorem failsIn_ok_bind {a : α} :
    (orFail (.ok a) >>= f).FailsIn Q s ↔ (f a).FailsIn Q s := Iff.rfl

end Fails

section Returns

variable {s : σ} {f : α → Call π ε σ β} {test : Bool}

/-- The call returns a value or an error. -/
def Returns (m : Call π ε σ α) (s : σ) : Prop := ∃ r, m s = .ok r

@[simp] theorem returns_pure {a : α} : (Pure.pure a : Call π ε σ α).Returns s := ⟨_, rfl⟩

@[simp] theorem returns_get_bind {f : σ → Call π ε σ β} :
    (get >>= f).Returns s ↔ (f s).Returns s := Iff.rfl

@[simp] theorem returns_check_bind {e : ε} :
    (check test e >>= k).Returns s ↔ (test = true → (k ()).Returns s) := by
  cases test with
  | true => exact ⟨fun h _ => h, fun h => h rfl⟩
  | false => exact iff_of_true ⟨_, rfl⟩ nofun

@[simp] theorem returns_assert_bind {p : π} :
    (assert test p >>= k).Returns s ↔ test = true ∧ (k ()).Returns s := by
  cases test with
  | true => exact ⟨fun h => ⟨rfl, h⟩, And.right⟩
  | false => exact iff_of_false (by rintro ⟨r, h⟩; cases h) nofun

@[simp] theorem returns_orAbort_bind {r : Except π α} :
    (orAbort r >>= f).Returns s ↔ ∃ a, r = .ok a ∧ (f a).Returns s := by
  cases r with
  | ok a => exact ⟨fun h => ⟨a, rfl, h⟩, fun ⟨_, ha, h⟩ => Except.ok.inj ha ▸ h⟩
  | error p => exact iff_of_false (by rintro ⟨r, h⟩; cases h) (by rintro ⟨a, h, _⟩; cases h)

end Returns

end Call

end Base
