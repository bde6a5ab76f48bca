import Petra.Base.Bytes
import Petra.Base.Run
import Petra.Base.SortedMap
import Petra.Vm.Abi

/-! # Mapped files

A mapping of a file keeps its own copy of each page, read when the page is first used. The file can
be written before the copy is put among the pages, and a read that fails leaves a page of zeroes. A
flush writes the copies back, whether they were changed or not.
-/

namespace Petra.Vm

open Base Function Storage

/-- A file: its size and its bytes, which are zero past the end. -/
@[ext] structure File where
  size : Nat
  data : Storage
  zero : ∀ i, size ≤ i → data i = 0

namespace File

/-- At most `len` bytes at `off`. -/
def read (f : File) (off len : Nat) : Bytes := f.data.read off (min len (f.size - off))

def write (f : File) (off : Nat) (b : Bytes) : File where
  size := if b = [] then f.size else max f.size (off + b.length)
  data := f.data.write off b
  zero := by
    intro i hi
    by_cases hb : b = []
    · subst hb
      simpa using f.zero i (by simpa using hi)
    · rw [if_neg hb] at hi
      rw [Storage.write_outside (Or.inr (by omega))]
      exact f.zero i (by omega)

/-- `set_size` to a larger size. -/
def grow (f : File) (size : Nat) : File where
  size := max f.size size
  data := f.data
  zero := fun i hi => f.zero i (by omega)

theorem size_le_write (f : File) (off : Nat) (b : Bytes) : f.size ≤ (f.write off b).size := by
  unfold write
  split_ifs
  · exact le_rfl
  · exact Nat.le_max_left _ _

/-- Bytes that are there already can be written again. -/
theorem write_read_self (f : File) {off len : Nat} (h : off + len ≤ f.size) :
    f.write off (f.data.read off len) = f := by
  refine File.ext ?_ (write_read _ _ _)
  unfold write
  dsimp only
  split_ifs
  · rfl
  · rw [length_read]
    omega

end File

structure FileBacking where
  size : Nat
  pages : SortedMap Nat Bytes
  /-- The page that is read and not yet inserted. Its reader has the lock of the pages. -/
  reading : Option (Nat × Bytes)

namespace FileBacking

variable {b b' : FileBacking} {f : File} {offset : Nat}

def newWithMinSize (f : File) (minSize : Nat) : Except Panic FileBacking := do
  let rounded ← addUsize (max f.size minSize) pageSize
  .ok ⟨(rounded - 1) / pageSize * pageSize, .empty, none⟩

/-- What a fresh page gets from the file if `fault_in` reads `got` bytes or up to the end of the
file, with zeroes after them. An error counts as 0 bytes. -/
def faultIn (f : File) (offset got : Nat) : Bytes :=
  let buf := f.read offset (min pageSize got)
  buf ++ List.replicate (pageSize - buf.length) 0

/-- The first part of `frame_at`: the page is there, or it is read. -/
def frameAt (b : FileBacking) (f : File) (offset got : Nat) : Except Errno (Bytes × FileBacking) :=
  if b.size ≤ offset then .error .EINVAL
  else
    match b.pages.get? offset with
    | some frame => .ok (frame, b)
    | none =>
      let frame := faultIn f offset got
      .ok (frame, { b with reading := some (offset, frame) })

/-- The second part: the page that was read is inserted. -/
def insertPage (b : FileBacking) : FileBacking :=
  match b.reading with
  | none => b
  | some page => { b with pages := b.pages.insert page.1 page.2, reading := none }

/-- Write one page back. -/
def flushPage (fileLen : Nat) (f : File) (page : Nat × Bytes) : File :=
  if fileLen ≤ page.1 then f
  else
    let writeLen := min pageSize (fileLen - page.1)
    if writeLen = 0 then f
    else
      let f := f.write page.1 (page.2.take writeLen)
      if f.size < page.1 + writeLen then f.grow (page.1 + writeLen) else f

/-- `BTreeMap::range` panics when the range is upside down. -/
def flush (b : FileBacking) (f : File) (start stop : Nat) : Except Panic File :=
  if stop < start then .error .assertion
  else
    let fileLen := max f.size b.size
    let pages := b.pages.entries.filter fun page => start ≤ page.1 && page.1 < stop
    .ok (pages.foldl (flushPage fileLen) f)

/-- `drop` flushes all pages. -/
def drop (b : FileBacking) (f : File) : Except Panic File := b.flush f 0 b.size

/-- The pages of a backing, with the one that is being read. -/
def copies (b : FileBacking) : List (Nat × Bytes) := b.reading.toList ++ b.pages.entries

/-- Every copy lies inside the file and is what the file has there. -/
def Current (b : FileBacking) (f : File) : Prop :=
  ∀ page ∈ b.copies,
    page.1 + pageSize ≤ f.size ∧ page.2 = f.data.read page.1 pageSize

theorem faultIn_eq {got : Nat} (h : offset + pageSize ≤ f.size) (hgot : pageSize ≤ got) :
    faultIn f offset got = f.data.read offset pageSize := by
  have hall : min pageSize got = pageSize := by omega
  have hwhole : min pageSize (f.size - offset) = pageSize := by omega
  simp [faultIn, File.read, hall, hwhole]

theorem flushPage_eq {fileLen : Nat} {page : Nat × Bytes} (hin : page.1 + pageSize ≤ f.size)
    (hsame : page.2 = f.data.read page.1 pageSize) : flushPage fileLen f page = f := by
  have htake : ∀ n ≤ pageSize, page.2.take n = f.data.read page.1 n := by
    intro n hn
    rw [hsame, take_read hn]
  unfold flushPage
  dsimp only
  split_ifs with hpast hzero hgrow
  · rfl
  · rfl
  · rw [htake _ (Nat.min_le_left _ _), f.write_read_self (by omega)] at hgrow
    omega
  · rw [htake _ (Nat.min_le_left _ _), f.write_read_self (by omega)]

/-- Flushing pages that are current leaves the file alone. -/
theorem Current.flush (h : b.Current f) {f' : File} {start stop : Nat}
    (hrun : b.flush f start stop = .ok f') : f' = f := by
  have hfold : ∀ (fileLen : Nat) (pages : List (Nat × Bytes)),
      (∀ page ∈ pages, page ∈ b.pages.entries) → pages.foldl (flushPage fileLen) f = f := by
    intro fileLen pages hpages
    induction pages with
    | nil => rfl
    | cons page pages ih =>
      obtain ⟨hin, hsame⟩ := h page (List.mem_append_right _ (hpages page (.head _)))
      rw [List.foldl_cons, flushPage_eq hin hsame]
      exact ih fun p hp => hpages p (.tail _ hp)
  unfold FileBacking.flush at hrun
  split_ifs at hrun
  cases hrun
  exact hfold _ _ fun page hpage => (List.mem_filter.mp hpage).1

/-- A page that is wholly read from inside the file is current. -/
theorem Current.frameAt (h : b.Current f) {frame : Bytes} {got : Nat}
    (hin : b.pages.get? offset = none → offset < b.size → offset + pageSize ≤ f.size ∧ pageSize ≤ got)
    (hrun : b.frameAt f offset got = .ok (frame, b')) : b'.Current f := by
  unfold FileBacking.frameAt at hrun
  split_ifs at hrun with hsize
  split at hrun
  · cases hrun
    exact h
  next hnew =>
    cases hrun
    obtain ⟨hin, hgot⟩ := hin hnew (by omega)
    intro page hpage
    rcases List.mem_cons.mp hpage with rfl | hold
    · exact ⟨hin, faultIn_eq hin hgot⟩
    · exact h page (List.mem_append_right _ hold)

theorem Current.insertPage (h : b.Current f) : b.insertPage.Current f := by
  unfold FileBacking.insertPage
  split
  · exact h
  next page hreading =>
    intro page' hpage'
    rcases SortedMap.mem_insert.mp hpage' with rfl | ⟨-, hold⟩
    · exact h page (List.mem_append_left _ (by rw [hreading]; exact .head _))
    · exact h page' (List.mem_append_right _ hold)

end FileBacking

/-! ### A file and its mappings -/

structure MappedFile where
  file : File
  backings : Nat → Option FileBacking
  /-- History: the file as the ordinary writes alone left it. -/
  left : File

/-- The steps. `got` is how much `fault_in` reads at a fault. -/
inductive MappedOp
  | map (id minSize : Nat)
  | fault (id offset got : Nat)
  | insert (id : Nat)
  | write (offset : Nat) (bytes : Bytes)
  | flush (id start stop : Nat)
  | drop (id : Nat)

namespace MappedFile

variable {sys sys' : MappedFile}

def setBacking (sys : MappedFile) (id : Nat) (b : Option FileBacking) : MappedFile :=
  { sys with backings := update sys.backings id b }

/-- Use a mapping that exists under the lock of its pages. While a page is being read, only the
reader does. -/
def withBacking (sys : MappedFile) (id : Nat) (reader : Bool)
    (use : FileBacking → Except Panic MappedFile) : Except Panic MappedFile :=
  match sys.backings id with
  | none => .ok sys
  | some b => if b.reading.isSome = reader then use b else .ok sys

def step (sys : MappedFile) : MappedOp → Except Panic MappedFile
  | .map id minSize => do
    .ok (sys.setBacking id (some (← FileBacking.newWithMinSize sys.file minSize)))
  | .fault id offset got =>
    sys.withBacking id false fun b =>
      match b.frameAt sys.file offset got with
      | .error _ => .ok sys
      | .ok (_, b) => .ok (sys.setBacking id (some b))
  | .insert id => sys.withBacking id true fun b => .ok (sys.setBacking id (some b.insertPage))
  | .write offset bytes =>
    .ok { sys with file := sys.file.write offset bytes, left := sys.left.write offset bytes }
  | .flush id start stop =>
    sys.withBacking id false fun b => do .ok { sys with file := ← b.flush sys.file start stop }
  | .drop id =>
    sys.withBacking id false fun b => do
      .ok (setBacking { sys with file := ← b.drop sys.file } id none)

def initial (f : File) : MappedFile := ⟨f, fun _ => none, f⟩

/-- Only pages wholly inside the file are faulted in, their reads do not fail, and ordinary writes
leave the bytes of the pages in use or being read as they are. -/
def Fixed (sys : MappedFile) : MappedOp → Prop
  | .fault id offset got => ∀ b, sys.backings id = some b → b.pages.get? offset = none →
      offset < b.size → offset + pageSize ≤ sys.file.size ∧ pageSize ≤ got
  | .write offset bytes => ∀ id b, sys.backings id = some b → ∀ page ∈ b.copies,
      (sys.file.write offset bytes).data.read page.1 pageSize =
        sys.file.data.read page.1 pageSize
  | _ => True

/-! ### The invariant -/

structure Sound (sys : MappedFile) : Prop where
  same : sys.file = sys.left
  current : ∀ id b, sys.backings id = some b → b.Current sys.file

theorem Sound.setBacking (h : sys.Sound) (id : Nat) {b : Option FileBacking}
    (hb : ∀ c, b = some c → c.Current sys.file) : (sys.setBacking id b).Sound := by
  refine ⟨h.same, ?_⟩
  intro id' c hc
  rcases update_eq_cases hc with ⟨-, hnew⟩ | ⟨-, hold⟩
  · exact hb c hnew
  · exact h.current id' c hold

theorem Sound.withBacking (h : sys.Sound) {id : Nat} {reader : Bool}
    {use : FileBacking → Except Panic MappedFile}
    (hrun : sys.withBacking id reader use = .ok sys')
    (huse : ∀ b, sys.backings id = some b → use b = .ok sys' → sys'.Sound) : sys'.Sound := by
  unfold MappedFile.withBacking at hrun
  split at hrun
  · cases hrun
    exact h
  next b hb =>
    split_ifs at hrun
    · exact huse b hb hrun
    · cases hrun
      exact h

/-- A page is read as the file has it, and writing it back changes nothing. -/
theorem Sound.step (h : sys.Sound) {op : MappedOp} (hop : sys.Fixed op)
    (hstep : sys.step op = .ok sys') : sys'.Sound := by
  cases op with
  | map id minSize =>
    obtain ⟨b, hnew, hstep⟩ := ok_of_bind hstep
    cases hstep
    refine h.setBacking id ?_
    intro c hc
    cases hc
    obtain ⟨rounded, -, hnew⟩ := ok_of_bind hnew
    cases hnew
    exact fun page hpage => (List.not_mem_nil hpage).elim
  | fault id offset got =>
    refine h.withBacking hstep fun b hb hrun => ?_
    split at hrun
    next e =>
      cases hrun
      exact h
    next out hframe =>
      cases hrun
      refine h.setBacking id ?_
      intro c hc
      cases hc
      exact (h.current id b hb).frameAt (hop b hb) hframe
  | insert id =>
    refine h.withBacking hstep fun b hb hrun => ?_
    cases hrun
    refine h.setBacking id ?_
    intro c hc
    cases hc
    exact (h.current id b hb).insertPage
  | write offset bytes =>
    cases hstep
    refine ⟨by rw [h.same], ?_⟩
    intro id b hb page hpage
    obtain ⟨hin, hsame⟩ := h.current id b hb page hpage
    refine ⟨hin.trans (File.size_le_write _ _ _), ?_⟩
    rw [hsame]
    exact (hop id b hb page hpage).symm
  | flush id start stop =>
    refine h.withBacking hstep fun b hb hrun => ?_
    obtain ⟨f, hflush, hrun⟩ := ok_of_bind hrun
    cases hrun
    rw [(h.current id b hb).flush hflush]
    exact h
  | drop id =>
    refine h.withBacking hstep fun b hb hrun => ?_
    obtain ⟨f, hflush, hrun⟩ := ok_of_bind hrun
    cases hrun
    rw [(h.current id b hb).flush hflush]
    exact h.setBacking id nofun

theorem sound_of_visits {f : File} (h : Visits step Fixed (initial f) sys) : sys.Sound :=
  h.invariant ⟨rfl, nofun⟩ fun _ _ _ hs hop hstep => hs.step hop hstep

/-- As long as the pages in use lie inside the file, are read without an error and keep their bytes,
the file is what the ordinary writes made it. -/
theorem file_eq_left_of_visits {f : File} (h : Visits step Fixed (initial f) sys) :
    sys.file = sys.left := (sound_of_visits h).same

/-- A file of zeroes. -/
def zeroes (size : Nat) : File := ⟨size, fun _ => 0, fun _ _ => rfl⟩

/-- A mapping can be used, and what the ordinary writes left stays. -/
theorem exists_withBacking {id : Nat} {reader : Bool} {use : FileBacking → Except Panic MappedFile}
    (huse : ∀ b, ∃ sys', use b = .ok sys' ∧ sys'.left = sys.left) :
    ∃ sys', sys.withBacking id reader use = .ok sys' ∧ sys'.left = sys.left := by
  unfold withBacking
  split
  · exact ⟨sys, rfl, rfl⟩
  next b hb =>
    split_ifs
    · exact huse b
    · exact ⟨sys, rfl, rfl⟩

/-- A page of a file is mapped and read, the file is made longer, and then the page is inserted
and the mapping dropped. -/
theorem file_eq_left_wholePage : ∃ sys, Visits step Fixed (initial (zeroes pageSize)) sys ∧
      sys.left.size = pageSize + 1 ∧ sys.file = sys.left := by
  have hnew : FileBacking.newWithMinSize (zeroes pageSize) 0 = .ok ⟨pageSize, .empty, none⟩ := by
    simp [FileBacking.newWithMinSize, addUsize, zeroes, pageSize, usizeLimit, bind, Except.bind]
  obtain ⟨mapped, hmapped⟩ : ∃ mapped : MappedFile, mapped =
      (initial (zeroes pageSize)).setBacking 0 (some ⟨pageSize, .empty, none⟩) := ⟨_, rfl⟩
  have hstart : Visits step Fixed (initial (zeroes pageSize)) mapped := by
    have hmap : Fixed (initial (zeroes pageSize)) (.map 0 0) := trivial
    refine .next .start hmap ?_
    simp only [step, initial, hnew, hmapped]
    rfl
  obtain ⟨faulted, hstep, hleft⟩ : ∃ faulted, mapped.step (.fault 0 0 pageSize) = .ok faulted ∧
      faulted.left.size = pageSize ∧ faulted.file.size = pageSize := by
    simp only [hmapped, step, withBacking, setBacking, update_self, pageSize]
    exact ⟨_, rfl, rfl, rfl⟩
  have hfault : Fixed mapped (.fault 0 0 pageSize) := by
    intro b _ _ _
    rw [hmapped]
    exact ⟨le_rfl, le_rfl⟩
  have hfaulted := Visits.next hstart hfault hstep
  have hwrite : Fixed faulted (.write pageSize [1]) := by
    intro id b hb page hpage
    obtain ⟨hin, -⟩ := (sound_of_visits hfaulted).current id b hb page hpage
    rw [hleft.2] at hin
    exact read_write_of_disjoint (.inl hin)
  have hwritten := Visits.next hfaulted hwrite rfl
  obtain ⟨inserted, hinsert, hsame⟩ : ∃ inserted, step { faulted with
      file := faulted.file.write pageSize [1]
      left := faulted.left.write pageSize [1] } (.insert 0) = .ok inserted ∧
        inserted.left = faulted.left.write pageSize [1] :=
    exists_withBacking fun _ => ⟨_, rfl, rfl⟩
  have hinserted := Visits.next hwritten (show Fixed _ (.insert 0) from trivial) hinsert
  obtain ⟨sys, hdrop, hsame'⟩ : ∃ sys, inserted.step (.drop 0) = .ok sys ∧
      sys.left = inserted.left := by
    refine exists_withBacking fun b => ?_
    unfold FileBacking.drop FileBacking.flush
    exact ⟨_, rfl, rfl⟩
  have hdropped := Visits.next hinserted (show Fixed _ (.drop 0) from trivial) hdrop
  refine ⟨sys, hdropped, ?_, file_eq_left_of_visits hdropped⟩
  rw [hsame', hsame]
  simp [File.write, hleft.1]

/-- The last page of a file of five bytes is mapped and the mapping is dropped: the file then
fills the page. -/
theorem file_ne_left_lastPage :
    ∃ sys, run step (initial (zeroes 5)) [.map 0 0, .fault 0 0 pageSize, .insert 0, .drop 0] =
      .ok sys ∧ sys.left.size = 5 ∧ sys.file.size = pageSize := by
  exact exists_ok _ _ (by decide +kernel)

end MappedFile

end Petra.Vm
