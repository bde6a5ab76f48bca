import Petra.Ext4.Extents

/-! # The block map of an extent list

A list of extents that are sorted and do not overlap is a map from logical to physical blocks.
Insertion extends this map, and truncation restricts it unless it has to look at the end of an
extent that holds the last block number of its type.
-/

namespace Petra.Ext4

open Base List Option

/-- An extent whose logical blocks have numbers of their type. -/
structure Extent.Valid (e : Extent) : Prop where
  pos : 0 < e.len
  len : e.len ≤ maxExtentLen
  log : e.log + e.len ≤ 2 ^ 32
  phys : e.phys + e.len < usizeLimit

/-- The physical block of a logical block. -/
def Extent.at? (e : Extent) (k : Nat) : Option Nat :=
  if e.log ≤ k ∧ k < e.log + e.len then some (e.phys + (k - e.log)) else none

namespace Extents

structure Sorted (l : List Extent) : Prop where
  apart : l.Pairwise fun a b => a.log + a.len ≤ b.log
  valid : ∀ e ∈ l, e.Valid

/-- The physical block of a logical block. -/
def blockAt (l : List Extent) (k : Nat) : Option Nat := l.findSome? (·.at? k)

/-- The blocks of some ranges. -/
def blocksOf (ranges : List (Nat × Nat)) : List Nat := ranges.flatMap fun r => List.range' r.1 r.2

/-- The physical blocks of some extents. -/
def ranges (l : List Extent) : List (Nat × Nat) := l.map fun e => (e.phys, e.len)

variable {l before after rest : List Extent} {a b e : Extent} {k : Nat}

theorem blockAt_cons : blockAt (e :: l) k = (e.at? k).or (blockAt l k) := by
  unfold blockAt
  rw [findSome?_cons]
  cases e.at? k <;> rfl

theorem blockAt_append : blockAt (before ++ l) k = (blockAt before k).or (blockAt l k) :=
  findSome?_append

theorem blockAt_ne_none (he : e ∈ l) (hlow : e.log ≤ k) (hhigh : k < e.log + e.len) :
    blockAt l k ≠ none := by
  intro hnone
  have hat := findSome?_eq_none_iff.mp hnone e he
  rw [Extent.at?, if_pos ⟨hlow, hhigh⟩] at hat
  cases hat

theorem Sorted.tail (h : Sorted (e :: l)) : Sorted l :=
  ⟨(pairwise_cons.mp h.apart).2, fun x hx => h.valid x (.tail _ hx)⟩

/-! ### Merging -/

/-- Whether two extents can be one. -/
def Continues (a b : Extent) : Prop :=
  b.log = a.log + a.len ∧ a.phys + a.len = b.phys ∧ a.len + b.len ≤ maxExtentLen
deriving Decidable

/-- The end of an extent is a block number if another extent comes after it. -/
theorem mergeable_eq (ha : a.Valid) (hb : b.Valid) (hapart : a.log + a.len ≤ b.log) :
    mergeable a b = .ok (decide (Continues a b)) := by
  have hlog : a.log + a.len < 2 ^ 32 := by
    have := hb.log
    have := hb.pos
    omega
  have hlen : a.len + b.len < 2 ^ 32 := by
    have hmax : maxExtentLen + maxExtentLen < 2 ^ 32 := by decide
    have := ha.len
    have := hb.len
    omega
  unfold mergeable addU32 addUsize Continues
  rw [if_pos hlog, if_pos ha.phys, if_pos hlen]
  by_cases hlog : b.log = a.log + a.len
  · by_cases hphys : a.phys + a.len = b.phys <;>
      simp [bind, Except.bind, pure, Except.pure, hlog, hphys]
  · simp [bind, Except.bind, pure, Except.pure, hlog]

theorem at?_merge (h : Continues a b) : (merge a b).at? k = (a.at? k).or (b.at? k) := by
  obtain ⟨hlog, hphys, -⟩ := h
  unfold Extent.at? merge
  dsimp only
  by_cases ha : a.log ≤ k ∧ k < a.log + a.len
  · rw [if_pos ha, if_pos (by omega), some_or]
  rw [if_neg ha, none_or]
  by_cases hb : b.log ≤ k ∧ k < b.log + b.len
  · rw [if_pos hb, if_pos (by omega)]
    congr 1
    omega
  · rw [if_neg hb, if_neg (by omega)]

/-- Two neighbours become one, and the map stays. -/
theorem Sorted.merge (h : Sorted (before ++ a :: b :: rest)) (hab : Continues a b) :
    Sorted (before ++ merge a b :: rest) ∧
      ∀ k, blockAt (before ++ merge a b :: rest) k = blockAt (before ++ a :: b :: rest) k := by
  obtain ⟨hbefore, habrest, hcross⟩ := pairwise_append.mp h.apart
  obtain ⟨-, hbrest⟩ := pairwise_cons.mp habrest
  obtain ⟨hb, hrest⟩ := pairwise_cons.mp hbrest
  have hva := h.valid a (by simp)
  have hvb := h.valid b (by simp)
  have hlog := hab.1
  refine ⟨⟨pairwise_append.mpr ⟨hbefore, pairwise_cons.mpr ⟨?_, hrest⟩, ?_⟩, ?_⟩, ?_⟩
  · intro x hx
    have hbx := hb x hx
    change a.log + (a.len + b.len) ≤ x.log
    omega
  · intro x hx y hy
    rcases mem_cons.mp hy with rfl | hy
    · exact hcross x hx a (.head _)
    · exact hcross x hx y (by simp [hy])
  · intro x hx
    rcases mem_append.mp hx with hx | hx
    · exact h.valid x (by simp [hx])
    rcases mem_cons.mp hx with rfl | hx
    · have hphys := hab.2.1
      refine ⟨Nat.add_pos_left hva.pos _, hab.2.2, ?_, ?_⟩
      · have := hvb.log
        change a.log + (a.len + b.len) ≤ _
        omega
      · have := hvb.phys
        change a.phys + (a.len + b.len) < _
        omega
    · exact h.valid x (by simp [hx])
  · intro k
    rw [blockAt_append, blockAt_append, blockAt_cons, blockAt_cons, blockAt_cons, at?_merge hab,
      Option.or_assoc]

theorem mergeForward_spec (h : Sorted (before ++ a :: after)) :
    ∃ b rest, mergeForward a after = .ok (b :: rest) ∧ Sorted (before ++ b :: rest) ∧
      ∀ k, blockAt (before ++ b :: rest) k = blockAt (before ++ a :: after) k := by
  induction after generalizing a with
  | nil => exact ⟨a, [], rfl, h, fun _ => rfl⟩
  | cons b rest ih =>
    have hapart := (pairwise_cons.mp (pairwise_append.mp h.apart).2.1).1 b (.head _)
    rw [mergeForward, mergeable_eq (h.valid a (by simp)) (h.valid b (by simp)) hapart]
    by_cases hab : Continues a b
    · obtain ⟨hsorted, hmap⟩ := h.merge hab
      obtain ⟨c, rest', hmerged, hsorted', hmap'⟩ := ih hsorted
      exact ⟨c, rest', by simpa [bind, Except.bind, hab] using hmerged, hsorted',
        fun k => (hmap' k).trans (hmap k)⟩
    · exact ⟨a, b :: rest, by simp [bind, Except.bind, pure, Except.pure, hab], h, fun _ => rfl⟩

theorem mergeNeighbors_spec (h : Sorted (before ++ b :: rest)) :
    ∃ l, mergeNeighbors before (b :: rest) = .ok l ∧ Sorted l ∧
      ∀ k, blockAt l k = blockAt (before ++ b :: rest) k := by
  rcases eq_nil_or_concat before with rfl | ⟨init, a, hconcat⟩
  · exact ⟨b :: rest, rfl, h, fun _ => rfl⟩
  rw [concat_eq_append] at hconcat
  subst hconcat
  have hsplit : init ++ [a] ++ b :: rest = init ++ a :: b :: rest := by simp
  unfold mergeNeighbors
  rw [getLast?_concat]
  dsimp only
  have hapart := (pairwise_append.mp h.apart).2.2 a (by simp) b (.head _)
  rw [mergeable_eq (h.valid a (by simp)) (h.valid b (by simp)) hapart]
  rw [hsplit] at h ⊢
  by_cases hab : Continues a b
  · obtain ⟨hsorted, hmap⟩ := h.merge hab
    exact ⟨_, by simp [bind, Except.bind, pure, Except.pure, hab], hsorted, hmap⟩
  · exact ⟨_, by simp [bind, Except.bind, pure, Except.pure, hab], h, fun _ => rfl⟩

/-! ### Insertion and truncation -/

section

variable (h : Sorted l) (he : e.Valid)
  (hfree : ∀ k, e.log ≤ k → k < e.log + e.len → blockAt l k = none)

include h he hfree

/-- The place of a new extent is between those below and those above it. -/
theorem Sorted.place :
    Sorted (l.takeWhile (·.log < e.log) ++ e :: l.dropWhile (·.log < e.log)) := by
  have hsplit := takeWhile_append_dropWhile (p := fun x : Extent => x.log < e.log) (l := l)
  have happart := h.apart
  rw [← hsplit] at happart
  obtain ⟨hbefore, hafter, hcross⟩ := pairwise_append.mp happart
  have hlow : ∀ x ∈ l.takeWhile (·.log < e.log), x.log + x.len ≤ e.log := by
    intro x hx
    by_contra hover
    have hlt : x.log < e.log := by simpa using mem_takeWhile_imp hx
    exact blockAt_ne_none ((takeWhile_sublist _).subset hx) (by omega) (by omega)
      (hfree e.log le_rfl (Nat.lt_add_of_pos_right he.pos))
  have hhigh : ∀ y ∈ l.dropWhile (·.log < e.log), e.log + e.len ≤ y.log := by
    intro y hy
    have hmem := (dropWhile_sublist _).subset hy
    have hpos := (h.valid y hmem).pos
    by_contra hover
    have hge : e.log ≤ y.log := by
      cases hdrop : l.dropWhile (·.log < e.log) with
      | nil => simp [hdrop] at hy
      | cons z rest =>
        have hz : e.log ≤ z.log := by
          have hnot := head_dropWhile_not (fun x : Extent => decide (x.log < e.log))
            (l := l) (by simp [hdrop])
          simpa [hdrop] using hnot
        rw [hdrop] at hy hafter
        rcases mem_cons.mp hy with rfl | hy
        · exact hz
        · have := (pairwise_cons.mp hafter).1 y hy
          omega
    exact blockAt_ne_none hmem le_rfl (by omega) (hfree y.log hge (by omega))
  refine ⟨pairwise_append.mpr ⟨hbefore, pairwise_cons.mpr ⟨hhigh, hafter⟩, ?_⟩, ?_⟩
  · intro x hx y hy
    rcases mem_cons.mp hy with rfl | hy
    · exact hlow x hx
    · exact hcross x hx y hy
  intro x hx
  rcases mem_append.mp hx with hx | hx
  · exact h.valid x ((takeWhile_sublist _).subset hx)
  rcases mem_cons.mp hx with rfl | hx
  · exact he
  · exact h.valid x ((dropWhile_sublist _).subset hx)

theorem insert_spec :
    ∃ l', insert l e = .ok l' ∧ Sorted l' ∧ ∀ k, blockAt l' k = (e.at? k).or (blockAt l k) := by
  obtain ⟨b, rest, hforward, hsorted, hmap⟩ := mergeForward_spec (h.place he hfree)
  obtain ⟨l', hmerged, hsorted', hmap'⟩ := mergeNeighbors_spec hsorted
  refine ⟨l', by rw [insert, hforward]; exact hmerged, hsorted', fun k => ?_⟩
  have hsplit := takeWhile_append_dropWhile (p := fun x : Extent => x.log < e.log) (l := l)
  rw [hmap', hmap, blockAt_append, blockAt_cons]
  conv_rhs => rw [← hsplit, blockAt_append]
  by_cases hk : e.log ≤ k ∧ k < e.log + e.len
  · have hnone := hfree k hk.1 hk.2
    rw [← hsplit, blockAt_append, or_eq_none_iff] at hnone
    rw [hnone.1]
    rfl
  · rw [Extent.at?, if_neg hk]
    rfl

end

theorem blocksOf_cons (r : Nat × Nat) (rs : List (Nat × Nat)) :
    blocksOf (r :: rs) = range' r.1 r.2 ++ blocksOf rs := flatMap_cons

theorem ranges_cons : ranges (e :: l) = (e.phys, e.len) :: ranges l := rfl

/-- What is left of an extent that is cut. -/
theorem valid_cut {bound : Nat} (he : e.Valid) (hlow : e.log < bound)
    (hcut : bound < e.log + e.len) : ({ e with len := bound - e.log } : Extent).Valid := by
  obtain ⟨_, hlen, hlog, hphys⟩ := he
  constructor <;> dsimp only <;> omega

theorem at?_cut {bound : Nat} (hcut : bound ≤ e.log + e.len) :
    ({ e with len := bound - e.log } : Extent).at? k = if k < bound then e.at? k else none := by
  unfold Extent.at?
  dsimp only
  split_ifs <;> first | rfl | omega

/-- Truncation restricts the map, and the blocks that it keeps or frees are those there were. -/
theorem truncate_spec (bound : Nat) (h : Sorted l)
    (hends : ∀ e ∈ l, e.log < bound → e.log + e.len < 2 ^ 32) :
    ∃ kept freed, truncate bound l = .ok (kept, freed) ∧
    Sorted kept ∧ (∀ x ∈ kept, ∃ y ∈ l, y.log = x.log) ∧
    (∀ k, blockAt kept k = if k < bound then blockAt l k else none) ∧
    (blocksOf (ranges kept) ++ blocksOf freed).Perm (blocksOf (ranges l)) := by
  induction l with
  | nil => exact ⟨[], [], rfl, h, nofun, fun k => by simp [blockAt], .refl _⟩
  | cons e l ih =>
    obtain ⟨hend, hends⟩ := forall_mem_cons.mp hends
    obtain ⟨kept, freed, htrunc, hsorted, hfrom, hmap, hperm⟩ := ih h.tail hends
    have he := h.valid e (.head _)
    have hfirst := (pairwise_cons.mp h.apart).1
    have hfrom' : ∀ x ∈ kept, ∃ y ∈ e :: l, y.log = x.log := by
      intro x hx
      obtain ⟨y, hy, hlog⟩ := hfrom x hx
      exact ⟨y, .tail _ hy, hlog⟩
    -- An extent that is kept, whole or in part, is still below the others.
    have hkeep : ∀ e', e'.Valid → e'.log = e.log → e'.len ≤ e.len → Sorted (e' :: kept) := by
      intro e' he' hlog hlen
      refine ⟨pairwise_cons.mpr ⟨fun x hx => ?_, hsorted.apart⟩,
        forall_mem_cons.mpr ⟨he', hsorted.valid⟩⟩
      obtain ⟨y, hy, hxy⟩ := hfrom x hx
      have := hfirst y hy
      omega
    have hlogs : ∀ e' : Extent, e'.log = e.log → ∀ x ∈ e' :: kept, ∃ y ∈ e :: l, y.log = x.log :=
      fun e' hlog => forall_mem_cons.mpr ⟨⟨e, (.head _), hlog.symm⟩, hfrom'⟩
    rw [truncate]
    by_cases hall : bound ≤ e.log
    · refine ⟨kept, (e.phys, e.len) :: freed, by rw [if_pos hall, htrunc]; rfl, hsorted, hfrom',
        fun k => ?_, ?_⟩
      · rw [hmap, blockAt_cons]
        split_ifs with hk
        · rw [Extent.at?, if_neg (by omega), none_or]
        · rfl
      · exact (perm_append_comm_assoc ..).trans (hperm.append_left _)
    rw [if_neg hall, addU32, if_pos (hend (by omega))]
    by_cases hcut : bound < e.log + e.len
    · have hstart : e.phys + (bound - e.log) < usizeLimit := by
        have := he.phys
        omega
      let part : Extent := { e with len := bound - e.log }
      refine ⟨part :: kept, (e.phys + (bound - e.log), e.len - (bound - e.log)) :: freed, ?_,
        hkeep part (valid_cut he (by omega) hcut) rfl (by change bound - e.log ≤ _; omega),
        hlogs part rfl, fun k => ?_, ?_⟩
      · simp [bind, Except.bind, pure, Except.pure, hcut, addUsize, hstart, htrunc, part]
      · rw [blockAt_cons, hmap, blockAt_cons, at?_cut hcut.le]
        split_ifs <;> rfl
      · rw [blocksOf_cons, ranges_cons, ranges_cons, blocksOf_cons, blocksOf_cons]
        have hrange : range' e.phys e.len = range' e.phys (bound - e.log) ++
            range' (e.phys + (bound - e.log)) (e.len - (bound - e.log)) := by
          rw [range'_append_1]
          congr 1
          omega
        rw [hrange, append_assoc, append_assoc]
        exact ((perm_append_comm_assoc ..).trans (hperm.append_left _)).append_left _
    · refine ⟨e :: kept, freed, ?_, hkeep e he rfl le_rfl, hlogs e rfl, fun k => ?_, ?_⟩
      · simp [bind, Except.bind, pure, Except.pure, hcut, htrunc]
      · rw [blockAt_cons, hmap, blockAt_cons]
        by_cases hk : k < bound
        · rw [if_pos hk, if_pos hk]
        · rw [if_neg hk, if_neg hk, Extent.at?, if_neg (by omega)]
          rfl
      · rw [ranges_cons, ranges_cons, blocksOf_cons, append_assoc]
        exact hperm.append_left _

/-- Truncation computes the end of every extent that starts below the bound. -/
theorem ends_of_truncate {bound : Nat} {out : List Extent × List (Nat × Nat)}
    (h : truncate bound l = .ok out) : ∀ e ∈ l, e.log < bound → e.log + e.len < 2 ^ 32 := by
  induction l generalizing out with
  | nil => exact nofun
  | cons e l ih =>
    rw [truncate] at h
    split_ifs at h with hall
    · obtain ⟨_, hrest, -⟩ := ok_of_bind h
      exact forall_mem_cons.mpr ⟨fun hlt => absurd hlt (by omega), ih hrest⟩
    obtain ⟨stop, hstop, h⟩ := ok_of_bind h
    have hend : e.log + e.len < 2 ^ 32 := by
      unfold addU32 at hstop
      split_ifs at hstop with hlt
      exact hlt
    refine forall_mem_cons.mpr ⟨fun _ => hend, ?_⟩
    split_ifs at h
    · obtain ⟨_, -, h⟩ := ok_of_bind h
      obtain ⟨_, hrest, -⟩ := ok_of_bind h
      exact ih hrest
    · obtain ⟨_, hrest, -⟩ := ok_of_bind h
      exact ih hrest

/-- The insertion of an extent returns, and extends the map by just its range. -/
def Inserts (l : List Extent) (e : Extent) : Prop :=
  ∃ l', insert l e = .ok l' ∧ Sorted l' ∧ ∀ k, blockAt l' k = (e.at? k).or (blockAt l k)

/-- The truncation of a list returns, restricts the map, and frees just the blocks that it drops,
each once. -/
def Truncates (bound : Nat) (l : List Extent) : Prop :=
  ∃ kept freed, truncate bound l = .ok (kept, freed) ∧ Sorted kept ∧
    (∀ k, blockAt kept k = if k < bound then blockAt l k else none) ∧
    (blocksOf (ranges kept) ++ blocksOf freed).Perm (blocksOf (ranges l))

end Extents

end Petra.Ext4
