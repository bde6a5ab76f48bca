import Mathlib

/-! # Finite maps with ordered keys

A sorted map is the list of its entries in strictly ascending key order. The
order is a field, so two maps with the same bindings have the same entries and
every traversal meets the keys in order.
-/

namespace Base

/-- A finite map kept as its entries in strictly ascending key order. -/
structure SortedMap (κ ν : Type*) [LinearOrder κ] where
  entries : List (κ × ν)
  sorted : entries.Pairwise (fun a b => a.1 < b.1)

namespace SortedMap

variable {κ ν : Type*} [LinearOrder κ]

@[ext]
theorem ext {m n : SortedMap κ ν} (h : m.entries = n.entries) : m = n := by
  cases m
  cases n
  cases h
  rfl

instance [DecidableEq ν] : DecidableEq (SortedMap κ ν) := fun m n =>
  decidable_of_iff (m.entries = n.entries) ⟨ext, congrArg entries⟩

/-- The map without bindings. -/
def empty : SortedMap κ ν := ⟨[], List.Pairwise.nil⟩

/-- The value bound to a key. -/
def get? (m : SortedMap κ ν) (k : κ) : Option ν :=
  (m.entries.find? (fun e => e.1 = k)).map Prod.snd

def keys (m : SortedMap κ ν) : List κ := m.entries.map Prod.fst

def values (m : SortedMap κ ν) : List ν := m.entries.map Prod.snd

def length (m : SortedMap κ ν) : Nat := m.entries.length

/-- Bind a key in a list of entries, in front of the first larger key. -/
def insertEntry (k : κ) (v : ν) : List (κ × ν) → List (κ × ν)
  | [] => [(k, v)]
  | e :: rest =>
    if k < e.1 then (k, v) :: e :: rest
    else if k = e.1 then (k, v) :: rest
    else e :: insertEntry k v rest

variable {e : κ × ν} {k : κ} {v : ν} {l : List (κ × ν)}

theorem mem_insertEntry (he : e ∈ insertEntry k v l) : e = (k, v) ∨ e ∈ l := by
  induction l with
  | nil => simpa [insertEntry] using he
  | cons head rest ih =>
    unfold insertEntry at he
    split_ifs at he with hlt heq
    · simpa using he
    · rcases List.mem_cons.mp he with he | he
      · exact .inl he
      · exact .inr (.tail _ he)
    · rcases List.mem_cons.mp he with he | he
      · exact .inr (he ▸ (.head _))
      · exact (ih he).imp_right (List.mem_cons_of_mem _)

theorem insertEntry_sorted (k : κ) (v : ν) (h : l.Pairwise (fun a b => a.1 < b.1)) :
    (insertEntry k v l).Pairwise (fun a b => a.1 < b.1) := by
  induction l with
  | nil => simp [insertEntry]
  | cons head rest ih =>
    obtain ⟨hhead, hrest⟩ := List.pairwise_cons.mp h
    unfold insertEntry
    split_ifs with hlt heq
    · refine List.pairwise_cons.mpr ⟨?_, h⟩
      intro e he
      rcases List.mem_cons.mp he with rfl | he
      · exact hlt
      · exact hlt.trans (hhead e he)
    · refine List.pairwise_cons.mpr ⟨?_, hrest⟩
      intro e he
      exact heq ▸ hhead e he
    · refine List.pairwise_cons.mpr ⟨?_, ih hrest⟩
      intro e he
      rcases mem_insertEntry he with rfl | he
      · exact lt_of_le_of_ne (not_lt.mp hlt) (Ne.symm heq)
      · exact hhead e he

/-- Bind a key, replacing any earlier binding. -/
def insert (m : SortedMap κ ν) (k : κ) (v : ν) : SortedMap κ ν :=
  ⟨insertEntry k v m.entries, insertEntry_sorted k v m.sorted⟩

/-- Keep the bindings that satisfy a test. -/
def filter (m : SortedMap κ ν) (p : κ → ν → Bool) : SortedMap κ ν :=
  ⟨m.entries.filter (fun e => p e.1 e.2), m.sorted.filter _⟩

/-- Remove the binding of a key. -/
def erase (m : SortedMap κ ν) (k : κ) : SortedMap κ ν := m.filter (fun k' _ => k' ≠ k)

/-- Change every value, keeping the keys. -/
def mapValues {μ : Type*} (m : SortedMap κ ν) (f : κ → ν → μ) : SortedMap κ μ :=
  ⟨m.entries.map (fun e => (e.1, f e.1 e.2)), List.pairwise_map.mpr m.sorted⟩

/-- The entry with the smallest key. -/
def first? (m : SortedMap κ ν) : Option (κ × ν) := m.entries.head?

/-- The bindings of both maps. Where both bind a key, the second counts. -/
def union (m n : SortedMap κ ν) : SortedMap κ ν :=
  n.entries.foldl (fun m e => m.insert e.1 e.2) m

/-- The entry with the largest key below `k`. -/
def below? (m : SortedMap κ ν) (k : κ) : Option (κ × ν) :=
  (m.entries.filter (fun e => e.1 < k)).getLast?

/-- The entry with the largest key not above `k`. -/
def atMost? (m : SortedMap κ ν) (k : κ) : Option (κ × ν) :=
  (m.entries.filter (fun e => e.1 ≤ k)).getLast?

/-- The entry with the smallest key not below `k`. -/
def atLeast? (m : SortedMap κ ν) (k : κ) : Option (κ × ν) :=
  m.entries.find? (fun e => k ≤ e.1)

/-! ## Bindings as members -/

variable {m : SortedMap κ ν} {μ : Type*}

theorem eq_of_mem_of_key {a b : κ × ν} (ha : a ∈ m.entries)
    (hb : b ∈ m.entries) (hkey : a.1 = b.1) : a = b := by
  have hidx := List.pairwise_iff_getElem.mp m.sorted
  obtain ⟨i, hi, rfl⟩ := List.getElem_of_mem ha
  obtain ⟨j, hj, rfl⟩ := List.getElem_of_mem hb
  rcases lt_trichotomy i j with hij | hij | hij
  · exact absurd hkey (hidx i j hi hj hij).ne
  · subst hij
    rfl
  · exact absurd hkey (hidx j i hj hi hij).ne'

theorem get?_eq_some : m.get? k = some v ↔ (k, v) ∈ m.entries := by
  unfold get?
  constructor
  · intro h
    obtain ⟨e, he, rfl⟩ := Option.map_eq_some_iff.mp h
    have hkey : e.1 = k := by simpa using List.find?_some he
    exact hkey ▸ List.mem_of_find?_eq_some he
  intro h
  obtain ⟨e, he⟩ : ∃ e, m.entries.find? (fun e => e.1 = k) = some e := by
    rw [← Option.isSome_iff_exists, List.find?_isSome]
    exact ⟨_, h, by simp⟩
  have hkey : e.1 = k := by simpa using List.find?_some he
  rw [he, eq_of_mem_of_key (List.mem_of_find?_eq_some he) h hkey]
  rfl

theorem get?_eq_none : m.get? k = none ↔ ∀ e ∈ m.entries, e.1 ≠ k := by
  unfold get?
  simp [List.find?_eq_none]

theorem mem_insert : e ∈ (m.insert k v).entries ↔ e = (k, v) ∨ e.1 ≠ k ∧ e ∈ m.entries := by
  obtain ⟨l, hsorted⟩ := m
  change e ∈ insertEntry k v l ↔ e = (k, v) ∨ e.1 ≠ k ∧ e ∈ l
  induction l with
  | nil => simp [insertEntry]
  | cons head rest ih =>
    obtain ⟨hhead, hrest⟩ := List.pairwise_cons.mp hsorted
    unfold insertEntry
    split_ifs with hlt heq
    · -- every old key lies above `k`, so none of the bindings is replaced
      have hne : ∀ e ∈ head :: rest, e.1 ≠ k := by
        intro e he
        rcases List.mem_cons.mp he with rfl | he
        · exact hlt.ne'
        · exact (hlt.trans (hhead e he)).ne'
      rw [List.mem_cons]
      exact or_congr_right ⟨fun he => ⟨hne e he, he⟩, fun he => he.2⟩
    · have hne : ∀ e ∈ rest, e.1 ≠ k := fun e he => heq ▸ (hhead e he).ne'
      simp only [List.mem_cons]
      constructor
      · rintro (rfl | he)
        · exact .inl rfl
        · exact .inr ⟨hne e he, .inr he⟩
      · rintro (rfl | ⟨hkey, rfl | he⟩)
        · exact .inl rfl
        · exact absurd heq.symm hkey
        · exact .inr he
    · simp only [List.mem_cons, ih hrest]
      constructor
      · rintro (rfl | rfl | ⟨hkey, he⟩)
        · exact .inr ⟨Ne.symm heq, .inl rfl⟩
        · exact .inl rfl
        · exact .inr ⟨hkey, .inr he⟩
      · rintro (rfl | ⟨hkey, rfl | he⟩)
        · exact .inr (.inl rfl)
        · exact .inl rfl
        · exact .inr (.inr ⟨hkey, he⟩)

theorem mem_filter {p : κ → ν → Bool} :
    e ∈ (m.filter p).entries ↔ e ∈ m.entries ∧ p e.1 e.2 = true :=
  List.mem_filter

theorem mem_erase : e ∈ (m.erase k).entries ↔ e.1 ≠ k ∧ e ∈ m.entries := by
  simp [erase, mem_filter, and_comm]

theorem mem_mapValues {f : κ → ν → μ} {e : κ × μ} :
    e ∈ (m.mapValues f).entries ↔ ∃ v, (e.1, v) ∈ m.entries ∧ e.2 = f e.1 v := by
  simp only [mapValues, List.mem_map, Prod.exists]
  constructor
  · rintro ⟨k, v, hmem, rfl⟩
    exact ⟨v, hmem, rfl⟩
  · rintro ⟨v, hmem, heq⟩
    exact ⟨e.1, v, hmem, Prod.ext rfl heq.symm⟩

/-! ## Lookups -/

@[simp] theorem get?_empty (k : κ) : (empty : SortedMap κ ν).get? k = none := rfl

theorem get?_insert (m : SortedMap κ ν) (k k' : κ) (v : ν) :
    (m.insert k v).get? k' = if k' = k then some v else m.get? k' := by
  ext v'
  rw [get?_eq_some, mem_insert]
  split_ifs with hkey
  · subst hkey
    simp [eq_comm]
  · simp [hkey, get?_eq_some]

@[simp] theorem get?_insert_self (m : SortedMap κ ν) (k : κ) (v : ν) :
    (m.insert k v).get? k = some v := by
  rw [get?_insert, if_pos rfl]

theorem get?_insert_of_ne (m : SortedMap κ ν) {k k' : κ} (v : ν) (h : k' ≠ k) :
    (m.insert k v).get? k' = m.get? k' := by
  rw [get?_insert, if_neg h]

theorem get?_insert_cases {m : SortedMap κ ν} {k k' : κ} {v v' : ν}
    (h : (m.insert k v).get? k' = some v') : k' = k ∧ v' = v ∨ k' ≠ k ∧ m.get? k' = some v' := by
  rw [get?_insert] at h
  split_ifs at h with hkey
  · exact .inl ⟨hkey, (Option.some.inj h).symm⟩
  · exact .inr ⟨hkey, h⟩

theorem get?_erase (m : SortedMap κ ν) (k k' : κ) :
    (m.erase k).get? k' = if k' = k then none else m.get? k' := by
  ext v'
  rw [get?_eq_some, mem_erase]
  split_ifs with hkey
  · simp [hkey]
  · simp [hkey, get?_eq_some]

theorem get?_filter (m : SortedMap κ ν) (p : κ → ν → Bool) (k : κ) :
    (m.filter p).get? k = (m.get? k).filter (p k) := by
  ext v
  rw [get?_eq_some, mem_filter, ← get?_eq_some]
  simp [Option.filter_eq_some_iff]

theorem get?_mapValues (m : SortedMap κ ν) (f : κ → ν → μ) (k : κ) :
    (m.mapValues f).get? k = (m.get? k).map (f k) := by
  ext w
  rw [get?_eq_some, mem_mapValues, Option.map_eq_some_iff]
  simp only [get?_eq_some, @eq_comm _ w]

/-! ## Neighbours -/

theorem get?_union (m n : SortedMap κ ν) (k : κ) :
    (m.union n).get? k = (n.get? k).or (m.get? k) := by
  obtain ⟨l, hsorted⟩ := n
  unfold union get?
  induction l generalizing m with
  | nil => simp
  | cons e l ih =>
    obtain ⟨hfirst, hrest⟩ := List.pairwise_cons.mp hsorted
    rw [List.foldl_cons, ih _ hrest]
    by_cases hk : e.1 = k
    · have hnone : l.find? (fun e' => e'.1 = k) = none := by
        simp only [List.find?_eq_none, decide_eq_true_eq]
        intro e' he' heq
        exact (hfirst e' he').ne (hk.trans heq.symm)
      have hself := get?_insert_self m e.1 e.2
      unfold get? at hself
      subst hk
      simp [hnone, hself]
    · have hother := get?_insert_of_ne m e.2 (Ne.symm hk)
      unfold get? at hother
      simp [hk, hother]

theorem below?_eq_some (h : m.below? k = some e) : e ∈ m.entries ∧ e.1 < k := by
  have hmem := List.mem_of_getLast? h
  simpa using hmem

theorem atLeast?_eq_some (h : m.atLeast? k = some e) : e ∈ m.entries ∧ k ≤ e.1 :=
  ⟨List.mem_of_find?_eq_some h, by simpa using List.find?_some h⟩

theorem atMost?_eq_some (h : m.atMost? k = some e) : e ∈ m.entries ∧ e.1 ≤ k := by
  have hmem := List.mem_of_getLast? h
  simpa using hmem

variable {e' : κ × ν}

/-- The last entry of a filtered sorted list is above every other one. -/
theorem le_of_filter_getLast? {p : κ × ν → Bool}
    (h : (m.entries.filter p).getLast? = some e) (he' : e' ∈ m.entries)
    (hp : p e' = true) : e'.1 ≤ e.1 := by
  have hsorted := m.sorted.filter p
  obtain ⟨init, hinit⟩ := List.getLast?_eq_some_iff.mp h
  have hmem : e' ∈ m.entries.filter p := List.mem_filter.mpr ⟨he', hp⟩
  rw [hinit] at hmem hsorted
  rcases List.mem_append.mp hmem with hmem | hmem
  · exact ((List.pairwise_append.mp hsorted).2.2 e' hmem e (by simp)).le
  · rw [List.mem_singleton.mp hmem]

theorem le_atMost? (h : m.atMost? k = some e)
    (he' : e' ∈ m.entries) (hle : e'.1 ≤ k) : e'.1 ≤ e.1 :=
  le_of_filter_getLast? h he' (by simpa using hle)

theorem atLeast?_le (h : m.atLeast? k = some e)
    (he' : e' ∈ m.entries) (hle : k ≤ e'.1) : e.1 ≤ e'.1 := by
  obtain ⟨_, pre, post, heq, hpre⟩ := List.find?_eq_some_iff_append.mp h
  have hsorted := m.sorted
  rw [heq] at he' hsorted
  rcases List.mem_append.mp he' with hmem | hmem
  · have hfail := hpre e' hmem
    simp only [Bool.not_eq_true', decide_eq_false_iff_not] at hfail
    exact absurd hle hfail
  · rcases List.mem_cons.mp hmem with rfl | hmem
    · exact le_rfl
    · exact ((List.pairwise_cons.mp (List.pairwise_append.mp hsorted).2.1).1 e' hmem).le

theorem atMost?_eq_none (h : m.atMost? k = none) (he : e ∈ m.entries) : k < e.1 := by
  have hnil := List.getLast?_eq_none_iff.mp h
  have hfail := List.filter_eq_nil_iff.mp hnil e he
  simpa using hfail

/-! ## Rearranging the entries -/

theorem nodup (m : SortedMap κ ν) : m.entries.Nodup :=
  m.sorted.imp (fun hlt heq => absurd (congrArg Prod.fst heq) hlt.ne)

theorem nodup_cons_erase (m : SortedMap κ ν) (k : κ) (v : ν) :
    ((k, v) :: (m.erase k).entries).Nodup :=
  List.nodup_cons.mpr ⟨fun hmem => (mem_erase.mp hmem).1 rfl, nodup _⟩

/-- Binding a key moves its entry in front of the entries of the other keys. -/
theorem insert_perm (m : SortedMap κ ν) (k : κ) (v : ν) :
    (m.insert k v).entries.Perm ((k, v) :: (m.erase k).entries) := by
  refine (List.perm_ext_iff_of_nodup (nodup _) (nodup_cons_erase m k v)).mpr ?_
  intro e
  rw [mem_insert, List.mem_cons, mem_erase]

theorem perm_erase (h : m.get? k = some v) : m.entries.Perm ((k, v) :: (m.erase k).entries) := by
  have hmem := get?_eq_some.mp h
  refine (List.perm_ext_iff_of_nodup (nodup _) (nodup_cons_erase m k v)).mpr ?_
  intro e
  rw [List.mem_cons, mem_erase]
  constructor
  · intro he
    by_cases hkey : e.1 = k
    · exact .inl (eq_of_mem_of_key he hmem hkey)
    · exact .inr ⟨hkey, he⟩
  · rintro (rfl | ⟨_, he⟩)
    · exact hmem
    · exact he

theorem erase_of_get?_none (h : m.get? k = none) : m.erase k = m := by
  apply ext
  exact List.filter_eq_self.mpr (fun e he => by simpa using get?_eq_none.mp h e he)

end SortedMap

end Base
