import Petra.Vm.FileBacking

/-! # Appending

A write to a description opened with `O_APPEND` takes the size of the inode, writes there, and
then raises the size that the inode remembers. It holds the lock of its own description only.
-/

namespace Petra.Fs

open Base Vm List

/-- The largest offset. -/
def offsetMax : Nat := 2 ^ 64 - 1

/-- A file, the size its inode remembers, and the writes under way, each of a description of its
own: those that have taken the size, and the ends of those that have written. `appended` is a
history of what was written, and where. -/
structure Appends where
  file : File
  attrSize : Nat
  sized : List (Nat × Bytes)
  written : List Nat
  appended : List (Nat × Bytes)

/-- The steps of the writes. `known` says whether `getattr` succeeds. -/
inductive AppendOp
  | size (known : Bool) (buf : Bytes)
  | write (i nwritten : Nat)
  | fail (i : Nat)
  | grow (i : Nat) (known : Bool)

namespace Appends

/-- `INode::size`. -/
def size (s : Appends) (known : Bool) : Nat := if known then s.file.size else s.attrSize

def step (s : Appends) : AppendOp → Except Unit Appends
  | .size known buf => .ok { s with sized := (s.size known, buf) :: s.sized }
  | .write i nwritten =>
    match s.sized[i]? with
    | none => .error ()
    | some (offset, buf) =>
      if buf.length < nwritten then .error ()
      else
        .ok { s with
          file := s.file.write offset (buf.take nwritten)
          sized := s.sized.eraseIdx i
          written := min (offset + nwritten) offsetMax :: s.written
          appended := (offset, buf.take nwritten) :: s.appended }
  | .fail i => .ok { s with sized := s.sized.eraseIdx i }
  | .grow i known =>
    match s.written[i]? with
    | none => .error ()
    | some stop =>
      .ok { s with
        attrSize := if s.size known < stop then stop else s.attrSize
        written := s.written.eraseIdx i }

def start (file : File) (attrSize : Nat) : Appends := ⟨file, attrSize, [], [], []⟩

/-- What was appended is in the file, where it was written. -/
def Present (s : Appends) : Prop := ∀ e ∈ s.appended, s.file.read e.1 e.2.length = e.2

/-- The size is taken from the file, or remembered rightly, and no other write is between taking
the size and writing. -/
def Alone (s : Appends) : AppendOp → Prop
  | .size known _ => (known = true ∨ s.attrSize = s.file.size) ∧ s.sized = []
  | _ => True

/-- What was appended lies within the file, and at most one write has a size, that of the
file. -/
structure Safe (s : Appends) : Prop where
  inside : ∀ e ∈ s.appended, e.1 + e.2.length ≤ s.file.size
  kept : ∀ e ∈ s.appended, s.file.data.read e.1 e.2.length = e.2
  atEnd : s.sized = [] ∨ ∃ buf, s.sized = [(s.file.size, buf)]

variable {s s' : Appends}

theorem le_size_write (f : File) (b : Bytes) : f.size + b.length ≤ (f.write f.size b).size := by
  change _ ≤ if b = [] then f.size else max f.size (f.size + b.length)
  split_ifs with hnil
  · rw [hnil, length_nil, Nat.add_zero]
  · exact Nat.le_max_right _ _

theorem Safe.present (h : s.Safe) : s.Present := by
  intro e he
  have hin := h.inside e he
  rw [File.read, Nat.min_eq_left (by omega)]
  exact h.kept e he

/-- The bytes go behind everything that was appended before. -/
theorem Safe.write (h : s.Safe) {i nwritten : Nat} (hstep : s.step (.write i nwritten) = .ok s') :
    s'.Safe := by
  rcases h.atEnd with hnil | ⟨buf, hone⟩
  · simp [step, hnil] at hstep
  cases i with
  | succ i => simp [step, hone] at hstep
  | zero =>
    simp only [step, hone, getElem?_cons_zero] at hstep
    split_ifs at hstep
    cases hstep
    have hgrows := le_size_write s.file (buf.take nwritten)
    refine ⟨forall_mem_cons.mpr ⟨hgrows, fun e he => ?_⟩,
      forall_mem_cons.mpr ⟨Storage.read_write_self .., fun e he => ?_⟩, .inl rfl⟩
    · have hin := h.inside e he
      dsimp only
      omega
    · exact (Storage.read_write_of_disjoint (.inl (h.inside e he))).trans (h.kept e he)

theorem Safe.step (h : s.Safe) {op : AppendOp} (halone : s.Alone op) (hstep : s.step op = .ok s') :
    s'.Safe := by
  cases op with
  | size known buf =>
    cases hstep
    obtain ⟨hknown, hnil⟩ := halone
    have hsize : s.size known = s.file.size := by
      unfold size
      rcases hknown with rfl | hattr
      · rfl
      · rw [hattr, ite_self]
    refine ⟨h.inside, h.kept, .inr ⟨buf, ?_⟩⟩
    rw [hsize, hnil]
  | write i nwritten => exact h.write hstep
  | fail i =>
    cases hstep
    refine ⟨h.inside, h.kept, ?_⟩
    rcases h.atEnd with hnil | ⟨buf, hone⟩
    · exact .inl (by rw [hnil]; rfl)
    · cases i with
      | zero => exact .inl (by rw [hone]; rfl)
      | succ i => exact .inr ⟨buf, by rw [hone]; rfl⟩
  | grow i known =>
    dsimp only [Appends.step] at hstep
    split at hstep <;> cases hstep
    exact ⟨h.inside, h.kept, h.atEnd⟩

/-- If one write at a time is between taking the size and writing, nothing that was appended is
overwritten. -/
theorem present_of_visits {file : File} {attrSize : Nat}
    (h : Visits Appends.step Alone (start file attrSize) s) : s.Present :=
  (h.invariant (I := Safe) ⟨nofun, nofun, .inl rfl⟩
    fun _ _ _ hs halone hstep => hs.step halone hstep).present

/-- An empty file. -/
def emptyFile : File := ⟨0, fun _ => 0, fun _ _ => rfl⟩

/-- Two descriptions append one after the other. -/
theorem present_twoAppends : ∃ s : Appends, s.appended = [(1, [8]), (0, [7])] ∧ s.Present := by
  have hone : Visits Appends.step Alone (start emptyFile 0) _ :=
    .next (.next .start (show Alone _ (.size true [7]) from ⟨.inl rfl, rfl⟩) rfl)
      (show Alone _ (.write 0 1) from trivial) rfl
  have htwo := Visits.next (.next hone (show Alone _ (.size true [8]) from ⟨.inl rfl, rfl⟩) rfl)
    (show Alone _ (.write 0 1) from trivial) rfl
  exact ⟨_, rfl, present_of_visits htwo⟩

/-- Both take the size before either writes, and the second write replaces the first. -/
theorem overwritten_append : ∃ s, run Appends.step (start emptyFile 0)
      [.size true [7], .size true [8], .write 1 1, .write 0 1] = .ok s ∧ ¬ s.Present :=
  ⟨_, rfl, fun hpresent => absurd (hpresent (0, [7]) (by decide)) (by decide)⟩

end Appends

end Petra.Fs
