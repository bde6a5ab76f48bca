import Petra.Ext4.Dir

/-! # The two searches of a directory

Both searches go through the entries that the chains of the blocks lead to, in the same order, and
return the first that they take. Parsing cuts a name off at the end of its entry and decodes it.
The search of the blocks compares bytes, and takes no entry that does not end in the data.
-/

namespace Petra.Ext4.Dir

open Base List Option Nat

variable {data name : Bytes} {blockSize off i n : Nat}

/-- Where a chain ends. -/
abbrev Ends (data : Bytes) (off stop : Nat) : Prop :=
  isTail data off = true ∨ le16 data (off + 4) < 8 ∨ stop < off + le16 data (off + 4)

/-- The places of the entries from `off` on. -/
def chain (data : Bytes) (blockSize off : Nat) : List Nat :=
  if _hin : off + 8 ≤ data.length ∧ blockSize ≠ 0 then
    if _hends : Ends data off ((off / blockSize + 1) * blockSize) then
      chain data blockSize ((off / blockSize + 1) * blockSize)
    else off :: chain data blockSize (off + le16 data (off + 4))
  else []
termination_by data.length - off
decreasing_by
  · have := lt_blockEnd _hin.2 off
    omega
  · omega

/-- Where the bytes end that parsing takes for the name of an entry. -/
abbrev nameEnd (data : Bytes) (off : Nat) : Nat :=
  min (off + 8 + nameLen data off) (off + le16 data (off + 4))

/-- What a search returns of an entry. -/
def found (data : Bytes) (off : Nat) : Nat × Nat := (le32 data off, fileType data off)

/-- The search of the parsed entries takes the entry. -/
def takes (data name : Bytes) (off : Nat) : Bool :=
  le32 data off ≠ 0 ∧ fromUtf8Lossy (slice data (off + 8) (nameEnd data off - (off + 8))) = name

/-- The search of the blocks takes the entry. -/
def takesInBlock (data : Bytes) (blockSize : Nat) (name : Bytes) (off : Nat) : Bool :=
  off + le16 data (off + 4) ≤ data.length ∧ le32 data off ≠ 0 ∧ nameLen data off = name.length ∧
    off + 8 + nameLen data off ≤ min ((off / blockSize + 1) * blockSize) data.length ∧
    slice data (off + 8) (nameLen data off) = name

theorem chain_past (h : data.length < off + 8) : chain data blockSize off = [] := by
  rw [chain, dif_neg fun hin => by omega]

/-! ### Parsing -/

theorem find_cons (e : Dirent) (es : List Dirent) : find (e :: es) name =
    if e.ino ≠ 0 ∧ e.name = name then some (e.ino, e.fileType) else find es name := by
  unfold find
  by_cases h : e.ino ≠ 0 ∧ e.name = name
  · simp [h]
  · simp [h]

/-- Parsing returns if the names of all entries end in the data, and panics otherwise. -/
theorem parseFrom_eq (data name : Bytes) (hsize : blockSize ≠ 0) (off : Nat) (prev : Option Nat) :
    (∃ es, parseFrom data blockSize off prev = .ok es ∧
      find es name = ((chain data blockSize off).find? (takes data name)).map (found data)) ∧
        (∀ o ∈ chain data blockSize off, nameEnd data o ≤ data.length) ∨
      parseFrom data blockSize off prev = .error .assertion ∧
        ∃ o ∈ chain data blockSize off, data.length < nameEnd data o := by
  induction off using chain.induct data blockSize generalizing prev with
  | case1 off hin hends ih =>
    rw [parseFrom, chain, dif_pos hin.1, dif_neg hsize, dif_pos hin, dif_pos hends]
    by_cases htail : isTail data off = true
    · rw [if_pos htail]
      exact ih none
    · rw [if_neg htail, dif_pos (hends.resolve_left htail)]
      exact ih none
  | case2 off hin hends ih =>
    rw [parseFrom, chain, dif_pos hin.1, dif_neg hsize, dif_pos hin, dif_neg hends]
    rw [not_or] at hends
    rw [if_neg hends.1, dif_neg hends.2]
    by_cases hname : data.length < nameEnd data off
    · exact .inr ⟨if_pos hname, off, mem_cons_self .., hname⟩
    rw [if_neg hname, forall_mem_cons]
    rcases ih (some off) with ⟨⟨es, hes, hfind⟩, hall⟩ | ⟨hpanic, o, ho, hover⟩
    · refine .inl ⟨⟨_, by rw [hes]; rfl, ?_⟩, not_lt.mp hname, hall⟩
      rw [find_cons, hfind]
      by_cases htake : takes data name off = true
      · rw [find?_cons_of_pos htake, if_pos (by simpa [takes] using htake)]
        rfl
      · rw [find?_cons_of_neg htake, if_neg (by simpa [takes] using htake)]
    · exact .inr ⟨by rw [hpanic]; rfl, o, mem_cons_of_mem _ ho, hover⟩
  | case3 off hin =>
    rw [parseFrom, chain, dif_neg hin, dif_neg fun h => hin ⟨h, hsize⟩]
    exact .inl ⟨⟨[], rfl, rfl⟩, nofun⟩

/-! ### The blocks -/

theorem length_blockOf :
    (blockOf data blockSize i).length = min blockSize (data.length - i * blockSize) := by
  rw [blockOf, slice, length_take, length_drop]

theorem findFrom_ends {block : Bytes} (h : block.length < off + 8 ∨ Ends block off block.length) :
    findFrom block name off = none := by
  rw [findFrom]
  refine dif_neg fun hin => ?_
  rcases h with h | htail | h
  · omega
  · exact hin.2.1 htail
  · omega

/-- An entry has the same fields in its block as in the data. -/
theorem fields_blockOf {rel : Nat} (hoff : i * blockSize + rel = off) (hrel : rel + 8 ≤ blockSize) :
    le32 (blockOf data blockSize i) rel = le32 data off ∧
    le16 (blockOf data blockSize i) (rel + 4) = le16 data (off + 4) ∧
    nameLen (blockOf data blockSize i) rel = nameLen data off ∧
    fileType (blockOf data blockSize i) rel = fileType data off ∧
    isTail (blockOf data blockSize i) rel = isTail data off := by
  subst hoff
  have hino : le32 (blockOf data blockSize i) rel = le32 data (i * blockSize + rel) :=
    leAt_slice (by omega)
  have htype : (blockOf data blockSize i).getD (rel + 7) 0 =
      data.getD (i * blockSize + rel + 7) 0 := getD_slice (by omega)
  refine ⟨hino, leAt_slice (by omega), ?_, congrArg UInt8.toNat htype, ?_⟩
  · exact congrArg UInt8.toNat (getD_slice (by omega))
  · have hin : rel + 8 ≤ (blockOf data blockSize i).length ↔
        i * blockSize + rel + 8 ≤ data.length := by
      rw [length_blockOf]
      omega
    unfold isTail
    rw [hino, htype, decide_eq_decide.mpr hin]

/-- What the search finds in the blocks from `i` on. -/
def later (data : Bytes) (blockSize : Nat) (name : Bytes) (n i : Nat) : Option (Nat × Nat) :=
  (List.range' i (n - i)).findSome? fun j => findInBlock (blockOf data blockSize j) name

theorem later_past (h : data.length < i * blockSize + 8) :
    later data blockSize name n i = none := by
  refine findSome?_eq_none_iff.mpr fun j hj => findFrom_ends (.inl ?_)
  have hle := mul_le_mul_right blockSize (mem_range'_1.mp hj).1
  rw [length_blockOf]
  omega

/-- What the search finds from a place on. -/
def rest (data : Bytes) (blockSize : Nat) (name : Bytes) (n off : Nat) : Option (Nat × Nat) :=
  (findFrom (blockOf data blockSize (off / blockSize)) name (off % blockSize)).or
    (later data blockSize name n (off / blockSize + 1))

theorem rest_block (hsize : 0 < blockSize) (hn : data.length ≤ n * blockSize) :
    rest data blockSize name n (i * blockSize) = later data blockSize name n i := by
  rw [rest, Nat.mul_div_cancel _ hsize, mul_mod_left]
  by_cases hi : i < n
  · rw [later, later, show n - i = n - (i + 1) + 1 by omega, range'_succ, findSome?_cons, findInBlock]
    cases findFrom (blockOf data blockSize i) name 0 <;> rfl
  · have hle := mul_le_mul_right blockSize (not_lt.mp hi)
    rw [later_past (by rw [Nat.add_mul]; omega), later_past (by omega), findFrom_ends (.inl ?_)]
    · rfl
    · rw [length_blockOf]
      omega

theorem rest_next {recLen : Nat} (hsize : 8 ≤ blockSize) (hn : data.length ≤ n * blockSize)
    (hfits : off % blockSize + recLen ≤ blockSize) : rest data blockSize name n (off + recLen) =
      (findFrom (blockOf data blockSize (off / blockSize)) name (off % blockSize + recLen)).or
        (later data blockSize name n (off / blockSize + 1)) := by
  have hoff := Nat.div_add_mod' off blockSize
  rcases Nat.lt_or_eq_of_le hfits with hlt | hlast
  · have hsame : (off + recLen) / blockSize = off / blockSize ∧
        (off + recLen) % blockSize = off % blockSize + recLen :=
      (Nat.div_mod_unique (by omega)).mpr ⟨by rw [Nat.mul_comm]; omega, hlt⟩
    rw [rest, hsame.1, hsame.2]
  · have hnext : off + recLen = (off / blockSize + 1) * blockSize := by
      rw [Nat.add_mul]
      omega
    rw [hnext, rest_block (by omega) hn, findFrom_ends (.inl ?_)]
    · rfl
    · rw [length_blockOf]
      omega

/-- The search of the blocks returns the first entry that it takes. -/
theorem find_chain (hsize : 8 ≤ blockSize) (hn : data.length ≤ n * blockSize) :
    ((chain data blockSize off).find? (takesInBlock data blockSize name)).map (found data) =
      rest data blockSize name n off := by
  have hplace : ∀ off, off / blockSize * blockSize + off % blockSize = off ∧
      off % blockSize < blockSize ∧
      (off / blockSize + 1) * blockSize = off / blockSize * blockSize + blockSize := fun off =>
    ⟨Nat.div_add_mod' off blockSize, Nat.mod_lt _ (by omega), Nat.succ_mul ..⟩
  induction off using chain.induct data blockSize with
  | case1 off hin hends ih =>
    obtain ⟨hoff, hrel, hend⟩ := hplace off
    rw [chain, dif_pos hin, dif_pos hends, ih, rest_block (by omega) hn, rest, findFrom_ends]
    · rfl
    by_cases hfit : off % blockSize + 8 ≤ blockSize
    · obtain ⟨-, hrec, -, -, htail⟩ := fields_blockOf hoff hfit
      refine .inr ?_
      rw [Ends, htail, hrec, length_blockOf]
      exact hends.imp_right (Or.imp_right fun hover => by omega)
    · rw [length_blockOf]
      omega
  | case2 off hin hends ih =>
    obtain ⟨hoff, hrel, hend⟩ := hplace off
    rw [chain, dif_pos hin, dif_neg hends]
    simp only [not_or, not_lt, Bool.not_eq_true] at hends
    obtain ⟨htail, hrec, hfits⟩ := hends
    obtain ⟨hino, hrec', hname, htype, htail'⟩ := fields_blockOf hoff
      (show off % blockSize + 8 ≤ blockSize by omega)
    by_cases hwhole : off + le16 data (off + 4) ≤ data.length
    · have htake : takesInBlock data blockSize name off = true ↔ le32 data off ≠ 0 ∧
          nameLen data off = name.length ∧ off % blockSize + 8 + nameLen data off ≤
            (blockOf data blockSize (off / blockSize)).length ∧
          slice (blockOf data blockSize (off / blockSize)) (off % blockSize + 8)
            (nameLen data off) = name := by
        simp only [takesInBlock, hwhole, true_and, decide_eq_true_eq, length_blockOf]
        refine and_congr_right fun _ => and_congr_right fun _ => ?_
        rw [show off + 8 + nameLen data off ≤ min ((off / blockSize + 1) * blockSize) data.length ↔
          off % blockSize + 8 + nameLen data off ≤
            min blockSize (data.length - off / blockSize * blockSize) by omega]
        refine and_congr_right fun hroom => ?_
        rw [blockOf, slice_slice (by omega), ← Nat.add_assoc, hoff]
      rw [rest, findFrom, htail', htail, hrec', dif_pos ⟨by rw [length_blockOf]; omega,
        Bool.false_ne_true, hrec, by rw [length_blockOf]; omega⟩, hino, hname, htype]
      by_cases h : takesInBlock data blockSize name off = true
      · rw [find?_cons_of_pos h, if_pos (htake.mp h)]
        rfl
      · rw [find?_cons_of_neg h, if_neg (htake.not.mp h), ih, rest_next hsize hn (by omega)]
    · have hskip : ¬takesInBlock data blockSize name off = true := by simp [takesInBlock, hwhole]
      rw [find?_cons_of_neg hskip, chain_past (by omega), rest, later_past (by omega),
        findFrom_ends (.inr (.inr (.inr ?_)))]
      · rfl
      · rw [hrec', length_blockOf]
        omega
  | case3 off hin =>
    obtain ⟨hoff, hrel, hend⟩ := hplace off
    rw [chain, dif_neg hin, rest, later_past (by omega), findFrom_ends (.inl ?_)]
    · rfl
    · rw [length_blockOf]
      omega

/-! ### Both searches -/

section

variable {α β : Type} {l : List α} {p q : α → Bool} {f : α → β}

/-- Two searches agree if both take the first element that one of them takes. -/
theorem find?_eq_of_first (h : (l.find? fun a => p a || q a).all (fun a => p a && q a) = true) :
    l.find? p = l.find? q := by
  induction l with
  | nil => rfl
  | cons a l ih => cases hp : p a <;> cases hq : q a <;> simp_all

/-- If one search takes an element and the other does not, the other returns something else where
no later element looks the same. -/
theorem first_of_find?_eq (hl : l.Pairwise fun a b => (p a || q a) = true → f a ≠ f b)
    (h : (l.find? p).map f = (l.find? q).map f) :
    (l.find? fun a => p a || q a).all (fun a => p a && q a) = true := by
  have hlater : ∀ {r : α → Bool} {a l}, (∀ b ∈ l, f a ≠ f b) → some (f a) ≠ (find? r l).map f := by
    intro r a l hne heq
    obtain ⟨b, hb, hsame⟩ := Option.map_eq_some_iff.mp heq.symm
    exact hne b (mem_of_find?_eq_some hb) hsame.symm
  induction l with
  | nil => rfl
  | cons a l ih =>
    obtain ⟨ha, hl⟩ := pairwise_cons.mp hl
    cases hp : p a with
    | false =>
      cases hq : q a with
      | false => simpa [find?_cons, hp, hq] using ih hl (by simpa [find?_cons, hp, hq] using h)
      | true =>
        rw [find?_cons_of_neg (by simp [hp]), find?_cons_of_pos hq] at h
        exact absurd h.symm (hlater fun b hb => ha b hb (by simp [hq]))
    | true =>
      cases hq : q a with
      | false =>
        rw [find?_cons_of_pos hp, find?_cons_of_neg (by simp [hq])] at h
        exact absurd h (hlater fun b hb => ha b hb (by simp [hp]))
      | true => simp [hp, hq]

end

/-- Parsing does not panic, and both searches return the same. -/
def Agree (data : Bytes) (blockSize : Nat) (name : Bytes) : Prop :=
  ∃ es, parseAll data blockSize = .ok es ∧ find es name = findInData data blockSize name

/-- The names of all entries end in the data, and the first entry that one of the searches takes,
both take. -/
def TakeFirst (data : Bytes) (blockSize : Nat) (name : Bytes) : Prop :=
  (∀ off ∈ chain data blockSize 0, nameEnd data off ≤ data.length) ∧
    ((chain data blockSize 0).find? fun off =>
      takes data name off || takesInBlock data blockSize name off).all
        (fun off => takes data name off && takesInBlock data blockSize name off) = true

/-- No entry in use has the inode and the type of a later one. -/
def Distinct (data : Bytes) (blockSize : Nat) : Prop :=
  (chain data blockSize 0).Pairwise fun a b => le32 data a ≠ 0 → found data a ≠ found data b

/-- Data that ends in the middle of a block, with the entry `a` of inode 7 and an entry of inode 8
whose name is not UTF-8. -/
def twoEntries : Bytes :=
  [7, 0, 0, 0, 12, 0, 1, 1, 97, 0, 0, 0, 8, 0, 0, 0, 12, 0, 1, 1, 0xFF, 0, 0, 0]

end Petra.Ext4.Dir
