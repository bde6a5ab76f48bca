import Petra.Ext4.JournalFormat

/-! # Replay recovers plain logs

A log of transactions with one descriptor block each, which does not reach the end of the
journal, is replayed as it has to be.
-/

namespace Petra.Ext4.Journal

open Base List Nat

variable {log : Nat → Bytes} {blockSize maxlen seq cur p : Nat} {csumV3 b64 : Bool} {hdr : Bytes}
  {tags : List (Nat × Nat)} {stored blocks : List Bytes} {pos : Nat}

/-! ### Tags -/

theorem withUuid_eq {target flags size : Nat}
    (h : pos + (size + if hasAny flags tagf.sameUuid then 0 else 16) ≤ hdr.length) :
    withUuid hdr pos target flags size =
      .ok (target, flags, size + if hasAny flags tagf.sameUuid then 0 else 16) := by
  unfold withUuid
  split_ifs at h ⊢ with huuid hroom
  · rfl
  · omega
  · rfl

theorem parseTag_eq (h : pos + tagSize csumV3 b64 (tagFlags csumV3 hdr pos) ≤ hdr.length) :
    parseTag hdr pos csumV3 b64 = .ok (tagTarget b64 hdr pos, tagFlags csumV3 hdr pos,
      tagSize csumV3 b64 (tagFlags csumV3 hdr pos)) := by
  unfold parseTag tagSize at *
  cases csumV3 with
  | true =>
    simp only [if_true] at h ⊢
    rw [if_neg (by omega), if_neg (by omega)]
    exact withUuid_eq h
  | false =>
    cases b64 with
    | true =>
      simp only [if_true, Bool.false_eq_true, if_false] at h ⊢
      rw [if_neg (by omega), if_neg (by omega)]
      exact withUuid_eq h
    | false =>
      have htarget : tagTarget false hdr pos = be32 hdr pos := by simp [tagTarget, joinHalves]
      simp only [Bool.false_eq_true, if_false] at h ⊢
      rw [if_neg (by omega), htarget]
      exact withUuid_eq h

theorem tagSize_pos (csumV3 b64 : Bool) (flags : Nat) : 0 < tagSize csumV3 b64 flags := by
  unfold tagSize
  split_ifs <;> omega

theorem readTags_eq {rounds : Nat} (h : Tags csumV3 b64 hdr pos tags)
    (hrounds : hdr.length ≤ pos + rounds) : readTags hdr csumV3 b64 rounds pos = .ok tags := by
  induction h generalizing rounds with
  | @last pos hfits hlast =>
    have hsize := tagSize_pos csumV3 b64 (tagFlags csumV3 hdr pos)
    cases rounds with
    | zero => omega
    | succ rounds =>
      rw [readTags, parseTag_eq hfits]
      simp [bind, Except.bind, hlast]
  | @more pos tags hfits hlast _ ih =>
    have hsize := tagSize_pos csumV3 b64 (tagFlags csumV3 hdr pos)
    cases rounds with
    | zero => omega
    | succ rounds =>
      have hrest : readTags hdr csumV3 b64 rounds
          (pos + tagSize csumV3 b64 (tagFlags csumV3 hdr pos)) = .ok tags := ih (by omega)
      rw [readTags, parseTag_eq hfits]
      simp [bind, Except.bind, hlast, hrest]

/-! ### Data -/

/-- The blocks stand in the journal, one after the other, from `p` on. -/
def StoredAt (log : Nat → Bytes) (p : Nat) : List Bytes → Prop
  | [] => True
  | block :: blocks => log p = block ∧ StoredAt log (p + 1) blocks

theorem StoredAt.append {blocks' : List Bytes} (h : StoredAt log p (blocks ++ blocks')) :
    StoredAt log p blocks ∧ StoredAt log (p + blocks.length) blocks' := by
  induction blocks generalizing p with
  | nil => exact ⟨trivial, h⟩
  | cons block blocks ih =>
    obtain ⟨hhead, htail⟩ := h
    obtain ⟨hfirst, hsecond⟩ := ih htail
    refine ⟨⟨hhead, hfirst⟩, ?_⟩
    rwa [length_cons, Nat.add_comm blocks.length, ← Nat.add_assoc]

/-- Data blocks before the end of the journal are found. -/
theorem readData_eq (hsized : ∀ b, 4 ≤ (log b).length) (hlen : stored.length = tags.length)
    (hstored : StoredAt log p stored) (hcur : cur < p) (hend : p + stored.length < maxlen) :
    readData (fun b => .ok (log b)) maxlen cur tags p =
      .ok (zipWith contents tags stored, p + stored.length, false) := by
  induction tags generalizing p stored with
  | nil =>
    cases stored with
    | nil => rfl
    | cons block stored => simp at hlen
  | cons tag tags ih =>
    cases stored with
    | nil => simp at hlen
    | cons block stored =>
      obtain ⟨hblock, hrest⟩ := hstored
      simp only [length_cons, Nat.add_right_cancel_iff] at hlen hend
      have hnext : (p + 1) % maxlen = p + 1 := Nat.mod_eq_of_lt (by omega)
      have hback : p + 1 ≠ cur := by omega
      have hdata : (if hasAny tag.2 tagf.escape = true then unescape (log p) else log p) =
          (contents tag block).2 := by
        rw [contents, unescape, if_pos (hsized p), hblock]
      have hrec := ih hlen hrest (by omega) (by omega)
      simp only [readData, bind, Except.bind, hnext, if_neg hback, hrec, hdata,
        zipWith_cons_cons, length_cons]
      rw [Nat.add_right_comm, Nat.add_assoc]
      rfl

/-! ### Transactions -/

theorem isBlock_iff (h : 12 ≤ hdr.length) : isBlock hdr = true ↔ slice hdr 0 4 = magic := by
  simp [isBlock, h]

theorem isCommit_iff (h : 12 ≤ hdr.length) : isCommit hdr seq = true ↔ IsHeader hdr bt.commit seq := by
  simp [isCommit, isBlock, IsHeader, h]

theorem readTransaction_eq (seq : Nat) (hsized : ∀ b, 4 ≤ (log b).length)
    (htags : Tags csumV3 b64 (log cur) 12 tags) (hlen : stored.length = tags.length)
    (hstored : StoredAt log (cur + 1) stored) (hend : cur + 1 + stored.length < maxlen) :
    readTransaction (fun b => .ok (log b)) maxlen csumV3 b64 (log cur) cur seq =
      .ok (if isCommit (log (cur + 1 + stored.length)) seq then
        some (zipWith contents tags stored, cur + 1 + stored.length) else none) := by
  have hnext : (cur + 1) % maxlen = cur + 1 := mod_eq_of_lt (by omega)
  rw [readTransaction, readTags_eq htags (by omega), hnext]
  simp only [bind, Except.bind, readData_eq hsized hlen hstored (lt_succ_self cur) hend]
  rfl

variable {steps : Nat}

/-- A committed transaction is collected, and the search goes on after its commit block. -/
theorem scan_descriptor (hsized : ∀ b, 12 ≤ (log b).length)
    (hhdr : IsHeader (log cur) bt.descriptor seq) (htags : Tags csumV3 b64 (log cur) 12 tags)
    (hlen : stored.length = tags.length) (hstored : StoredAt log (cur + 1) stored)
    (hend : cur + 1 + stored.length < maxlen) :
    scan (fun b => .ok (log b)) maxlen csumV3 b64 blockSize (steps + 1) cur seq =
      if IsHeader (log (cur + 1 + stored.length)) bt.commit seq then do
        let txs ← scan (fun b => .ok (log b)) maxlen csumV3 b64 blockSize steps
          ((cur + 1 + stored.length + 1) % maxlen) ((seq + 1) % 2 ^ 32)
        .ok (⟨seq, zipWith contents tags stored, []⟩ :: txs)
      else .ok [] := by
  obtain ⟨hmagic, htype, hseq⟩ := hhdr
  have hblock := (isBlock_iff (hsized cur)).mpr hmagic
  have hfour : ∀ b, 4 ≤ (log b).length := fun b => le_trans (by omega) (hsized b)
  have htx := readTransaction_eq seq hfour htags hlen hstored hend
  simp only [isCommit_iff (hsized _)] at htx
  rw [scan]
  simp only [bind, Except.bind, hblock, hseq, htype, htx]
  by_cases hcommit : IsHeader (log (cur + 1 + stored.length)) bt.commit seq <;> simp [hcommit]

/-- The search ends at a block that opens nothing. -/
theorem scan_stop (hsized : ∀ b, 12 ≤ (log b).length)
    (hdata : ¬ IsHeader (log cur) bt.descriptor seq) (hrevoke : ¬ IsHeader (log cur) bt.revoke seq) :
    scan (fun b => .ok (log b)) maxlen csumV3 b64 blockSize steps cur seq = .ok [] := by
  cases steps with
  | zero => rfl
  | succ steps =>
    rw [scan]
    simp only [bind, Except.bind]
    by_cases hother : isBlock (log cur) = false ∨ be32 (log cur) 8 ≠ seq
    · rw [if_pos hother]
    · obtain ⟨hblock, hseq⟩ := not_or.mp hother
      have hmagic := (isBlock_iff (hsized cur)).mp (Bool.not_eq_false _ ▸ hblock)
      have htype : be32 (log cur) 4 ≠ bt.descriptor := fun h => hdata ⟨hmagic, h, not_not.mp hseq⟩
      have htype' : be32 (log cur) 4 ≠ bt.revoke := fun h => hrevoke ⟨hmagic, h, not_not.mp hseq⟩
      rw [if_neg hother, if_neg htype, if_neg htype']

/-! ### Whole logs -/

variable {blocks : List Bytes} {txs : List Transaction} {committed : List Bytes} {tx : Transaction}

/-- A transaction of one descriptor block is stored as that block, its data and a commit block. -/
theorem single_blocks {writes : List (Nat × Bytes)}
    (h : TxBlocks csumV3 b64 seq [.data writes] blocks) :
    ∃ hdr tags stored commit, blocks = hdr :: stored ++ [commit] ∧
      IsHeader hdr bt.descriptor seq ∧ Tags csumV3 b64 hdr 12 tags ∧
      stored.length = tags.length ∧ writes = zipWith contents tags stored ∧
      IsHeader commit bt.commit seq := by
  cases h with
  | record hrecord hrest =>
    cases hrecord with
    | data hhdr htags hlen =>
      cases hrest with
      | commit hcommit => exact ⟨_, _, _, _, rfl, hhdr, htags, hlen, rfl, hcommit⟩

theorem scan_log (h : LogBlocks csumV3 b64 seq txs committed)
    (hsingle : ∀ tx ∈ txs, ∃ writes, tx = [.data writes]) (hsized : ∀ b, 12 ≤ (log b).length)
    (hstored : StoredAt log p committed) (hend : p + committed.length ≤ maxlen)
    (hseq : seq < 2 ^ 32) (hsteps : txs.length < steps)
    (hstop : ∀ steps, scan (fun b => .ok (log b)) maxlen csumV3 b64 blockSize steps
      ((p + committed.length) % maxlen) ((seq + txs.length) % 2 ^ 32) = .ok []) :
    ∃ found, scan (fun b => .ok (log b)) maxlen csumV3 b64 blockSize steps (p % maxlen) seq =
      .ok found ∧ found.flatMap Tx.writes = txs.flatMap logged := by
  induction h generalizing p steps with
  | nil =>
    have hhere := hstop steps
    simp only [length_nil, Nat.add_zero, Nat.mod_eq_of_lt hseq] at hhere
    exact ⟨[], hhere, rfl⟩
  | @cons seq tx txs blocks blocks' htx _ ih =>
    obtain ⟨writes, rfl⟩ := hsingle tx (.head _)
    obtain ⟨hdr, tags, stored, commit, rfl, hhdr, htags, hlen, rfl, hcommit⟩ := single_blocks htx
    obtain ⟨hfirst, hrest⟩ := hstored.append
    obtain ⟨⟨rfl, hdata⟩, rfl, -⟩ := hfirst.append
    simp only [length_append, length_cons, length_nil] at *
    cases steps with
    | zero => omega
    | succ steps =>
      have hcommit' : p + (stored.length + 1) = p + 1 + stored.length := by omega
      have hnext : p + (stored.length + 1 + (0 + 1)) = p + 1 + stored.length + 1 := by omega
      rw [hcommit'] at hcommit
      rw [hnext] at hrest
      have hseq' : (seq + 1) % 2 ^ 32 < 2 ^ 32 := Nat.mod_lt _ (by omega)
      have hstop' : ∀ steps, scan (fun b => .ok (log b)) maxlen csumV3 b64 blockSize steps
          ((p + 1 + stored.length + 1 + blocks'.length) % maxlen)
          (((seq + 1) % 2 ^ 32 + txs.length) % 2 ^ 32) = .ok [] := by
        intro steps
        rw [Nat.mod_add_mod, ← hnext, Nat.add_assoc p, Nat.add_assoc seq, Nat.add_comm 1]
        exact hstop steps
      have hless : txs.length < steps := by omega
      obtain ⟨found, hfound, hwrites⟩ := ih (fun tx htx => hsingle tx (.tail _ htx))
        hrest (by omega) hseq' hless hstop'
      refine ⟨⟨seq, zipWith contents tags stored, []⟩ :: found, ?_, ?_⟩
      · rw [Nat.mod_eq_of_lt (by omega),
          scan_descriptor hsized hhdr htags hlen hdata (by omega), if_pos hcommit, hfound]
        rfl
      · rw [flatMap_cons, flatMap_cons, hwrites]
        simp [logged]

/-- A transaction starts with a journal block. -/
theorem exists_head (h : TxBlocks csumV3 b64 seq tx blocks) :
    ∃ hdr rest, blocks = hdr :: rest ∧ slice hdr 0 4 = magic := by
  cases h with
  | commit hhdr => exact ⟨_, [], rfl, hhdr.1⟩
  | record hrecord _ =>
    cases hrecord with
    | data hhdr _ _ | revoke hhdr => exact ⟨_, _, rfl, hhdr.1⟩

theorem length_le_of_logBlocks (h : LogBlocks csumV3 b64 seq txs committed) :
    txs.length ≤ committed.length := by
  induction h with
  | nil => exact le_rfl
  | cons htx _ ih =>
    obtain ⟨hdr, rest, rfl, _⟩ := exists_head htx
    rw [length_cons, length_append, length_cons]
    omega

theorem applyWrites_eq (revoked : List Nat) (writes : List (Nat × Bytes)) :
    (applyWrites revoked writes).2 = writes := by
  induction writes generalizing revoked with
  | nil => rfl
  | cons w writes ih =>
    rw [applyWrites]
    simp [ih]

/-- Every write is made, whatever was revoked. -/
theorem applyTxs_eq (revoked : List Nat) (txs : List Tx) :
    applyTxs revoked txs = txs.flatMap Tx.writes := by
  induction txs generalizing revoked with
  | nil => rfl
  | cons tx txs ih =>
    rw [applyTxs, flatMap_cons]
    simp only [applyWrites_eq, ih]

/-! ### The blocks before the end of the journal -/

variable {jsb : JournalSb} {txs : List Transaction} {committed tail : List Bytes}

theorem storedAt_of_getElem (h : ∀ i < blocks.length, blocks[i]? = some (log (p + i))) :
    StoredAt log p blocks := by
  induction blocks generalizing p with
  | nil => trivial
  | cons block blocks ih =>
    constructor
    · have hhead := h 0 (by simp)
      simpa using hhead.symm
    · apply ih
      intro i hi
      have hnext := h (i + 1) (by simpa using hi)
      rw [getElem?_cons_succ] at hnext
      rw [hnext, Nat.add_assoc, Nat.add_comm 1]

/-- Up to the end of the journal, the log is stored in order. -/
theorem storedAt_ring (log : Nat → Bytes) (hfirst : jsb.first ≤ jsb.start) :
    StoredAt log jsb.start ((ring jsb log).take (jsb.maxlen - jsb.start)) := by
  apply storedAt_of_getElem
  intro i hi
  rw [length_take, ring, length_map, length_range] at hi
  rw [getElem?_take_of_lt (by omega), ring, getElem?_map, getElem?_range (by omega)]
  simp only [Option.map_some]
  rw [Nat.mod_eq_of_lt (by omega), ← Nat.add_assoc, Nat.add_sub_cancel' hfirst]

section

variable (h : Holds log blockSize jsb txs committed tail)

include h

theorem Holds.length_ring : committed.length + tail.length = jsb.maxlen - jsb.first := by
  have hlen := congrArg length h.around
  rw [ring, length_map, length_range, length_append] at hlen
  exact hlen.symm

theorem Holds.storedAt (hend : jsb.start + committed.length ≤ jsb.maxlen) :
    StoredAt log jsb.start committed ∧ StoredAt log (jsb.start + committed.length)
      (tail.take (jsb.maxlen - jsb.start - committed.length)) := by
  have hring := storedAt_ring log h.first_le
  rw [h.around, take_append, take_of_length_le (by omega)] at hring
  exact hring.append

/-! ### Replay -/

/-- Every transaction has one descriptor block, the committed blocks end before the journal
does, and what follows them is neither a revoke block nor the start of a transaction that
runs past the end or whose tags do not fit their block. -/
structure Plain (jsb : JournalSb) (txs : List Transaction) (committed tail : List Bytes) :
    Prop where
  single : ∀ tx ∈ txs, ∃ writes, tx = [.data writes]
  straight : jsb.start + committed.length ≤ jsb.maxlen
  noRevoke : jsb.start + committed.length < jsb.maxlen → ∀ hdr ∈ tail.head?,
    ¬ IsHeader hdr bt.revoke (nextSeq jsb txs)
  wholeTags : jsb.start + committed.length < jsb.maxlen → ∀ hdr ∈ tail.head?,
    IsHeader hdr bt.descriptor (nextSeq jsb txs) →
      ∃ tags, Tags jsb.csumV3 jsb.b64 hdr 12 tags ∧
        jsb.start + committed.length + 1 + tags.length < jsb.maxlen

theorem Holds.fields : be32 (log 0) 4 = jsb.blockType ∧ jsb.sequence < 2 ^ 32 := by
  have hparsed := h.parsed
  unfold JournalSb.parse at hparsed
  split_ifs at hparsed
  cases hparsed
  exact ⟨rfl, beAt_lt _ _ 4⟩

theorem Holds.header_le (b : Nat) : 12 ≤ (log b).length := by
  rw [h.sized b]
  exact le_trans (by omega) h.blockSize_ge

/-- The journal's own superblock opens nothing. -/
theorem Holds.superblock_stops :
    ¬ IsHeader (log 0) bt.descriptor seq ∧ ¬ IsHeader (log 0) bt.revoke seq := by
  have htype := h.fields.1
  have hsuper := h.isSuperblock
  unfold IsHeader bt.descriptor bt.revoke
  unfold bt.superblockV1 bt.superblockV2 at hsuper
  rw [htype]
  omega

theorem Holds.scan_tail (hplain : Plain jsb txs committed tail) (steps : Nat) :
    scan (fun b => .ok (log b)) jsb.maxlen jsb.csumV3 jsb.b64 blockSize steps
      ((jsb.start + committed.length) % jsb.maxlen) (nextSeq jsb txs) = .ok [] := by
  have hsized := h.header_le
  have hlen := h.length_ring
  have hfirst := h.first_le
  obtain ⟨_, hstored⟩ := h.storedAt hplain.straight
  by_cases hend : jsb.start + committed.length = jsb.maxlen
  · rw [hend, mod_self]
    exact scan_stop hsized h.superblock_stops.1 h.superblock_stops.2
  have hbefore : jsb.start + committed.length < jsb.maxlen :=
    lt_of_le_of_ne hplain.straight hend
  rw [mod_eq_of_lt hbefore]
  cases tail with
  | nil =>
    simp only [length_nil] at hlen
    omega
  | cons hdr rest =>
    have hnoRevoke := hplain.noRevoke hbefore hdr rfl
    rw [show jsb.maxlen - jsb.start - committed.length =
      (jsb.maxlen - jsb.start - committed.length - 1) + 1 by omega, take_succ_cons] at hstored
    obtain ⟨hhere, hafter⟩ := hstored
    by_cases hhdr : IsHeader hdr bt.descriptor (nextSeq jsb txs)
    · obtain ⟨tags, htags, hroom⟩ := hplain.wholeTags hbefore hdr rfl hhdr
      obtain ⟨stored, block, more, rfl, hstored⟩ : ∃ stored block more,
          rest = stored ++ block :: more ∧ stored.length = tags.length := by
        simp only [length_cons] at hlen
        refine ⟨rest.take tags.length, rest[tags.length], rest.drop (tags.length + 1), ?_, ?_⟩
        · rw [getElem_cons_drop, take_append_drop]
        · rw [length_take]
          omega
      rw [take_append, take_of_length_le (by omega),
        show jsb.maxlen - jsb.start - committed.length - 1 - stored.length =
          (jsb.maxlen - jsb.start - committed.length - 2 - stored.length) + 1 by omega,
        take_succ_cons] at hafter
      obtain ⟨hdata, hblock, -⟩ := hafter.append
      have huncommitted : ¬ IsHeader block bt.commit (nextSeq jsb txs) := by
        intro hcommit
        apply h.uncommitted [.data (zipWith contents tags stored)] (hdr :: stored ++ [block])
          more (by simp)
        exact .record (.data hhdr htags hstored) (.commit hcommit)
      rw [← hhere] at hhdr htags
      rw [← hblock] at huncommitted
      cases steps with
      | zero => rfl
      | succ steps =>
        rw [scan_descriptor hsized hhdr htags hstored hdata (by omega), if_neg huncommitted]
    · rw [← hhere] at hhdr hnoRevoke
      exact scan_stop hsized hhdr hnoRevoke

/-- Of a plain log, exactly the logged data are written, in order. -/
theorem replay_eq (hplain : Plain jsb txs committed tail) :
    ∃ had, replay jsb (fun b => .ok (log b)) blockSize = .ok (had, txs.flatMap logged) := by
  have hsized := h.header_le
  have hseq := h.fields.2
  have hstart : jsb.start ≠ 0 := by
    have hfirst := h.first_pos
    have hle := h.first_le
    omega
  have hmaxlen : jsb.maxlen ≠ 0 := by
    have hlt := h.start_lt
    omega
  have hsteps : txs.length < jsb.maxlen + 2 := by
    have hlen := length_le_of_logBlocks h.encodes
    have hend := hplain.straight
    omega
  obtain ⟨found, hfound, hwrites⟩ := scan_log h.encodes hplain.single hsized
    (h.storedAt hplain.straight).1 hplain.straight hseq hsteps (h.scan_tail hplain)
  refine ⟨!found.isEmpty, ?_⟩
  rw [replay, if_neg (by simp [h.magicOk]), if_neg (by simp [hstart, hmaxlen])]
  simp only [JournalSb.csumV3, JournalSb.b64] at hfound
  rw [hfound]
  simp only [bind, Except.bind, applyTxs_eq, hwrites]

end

/-! ### Recovery without revocations -/

theorem lastWrite_append (writes writes' : List (Nat × Bytes)) (b : Nat) :
    lastWrite (writes ++ writes') b = match lastWrite writes' b with
      | some data => some data
      | none => lastWrite writes b := by
  unfold lastWrite
  rw [reverse_append, find?_append]
  cases writes'.reverse.find? (fun w => w.1 = b) with
  | none => rfl
  | some w => rfl

theorem lastLogged_eq (txs : List Transaction) (b : Nat) :
    (lastLogged txs b).map Prod.fst = lastWrite (txs.flatMap logged) b := by
  induction txs with
  | nil => rfl
  | cons tx txs ih =>
    rw [lastLogged, flatMap_cons, lastWrite_append, ← ih]
    cases lastLogged txs b with
    | none =>
      cases lastWrite (logged tx) b with
      | none => rfl
      | some data => rfl
    | some found => rfl

theorem mem_of_lastLogged {b : Nat} {data : Bytes} {later : List Transaction}
    (h : lastLogged txs b = some (data, later)) : ∀ tx ∈ later, tx ∈ txs := by
  induction txs with
  | nil => cases h
  | cons tx txs ih =>
    rw [lastLogged] at h
    split at h
    next found hrest =>
      cases h
      exact fun tx' htx' => .tail _ (ih hrest tx' htx')
    · cases hhere : lastWrite (logged tx) b with
      | none =>
        rw [hhere] at h
        cases h
      | some data' =>
        rw [hhere] at h
        cases h
        exact fun tx' htx' => htx'

/-- When nothing is revoked, all the logged data have to be written. -/
theorem recovers_logged (hnone : ∀ tx ∈ txs, revoked tx = []) :
    Recovers txs (txs.flatMap logged) := by
  constructor
  · intro b
    rw [← lastLogged_eq, recovered]
    cases hlast : lastLogged txs b with
    | none => rfl
    | some found =>
      obtain ⟨data, later⟩ := found
      have hkept : ¬ ∃ tx ∈ later, b ∈ revoked tx := by
        rintro ⟨tx, htx, hb⟩
        rw [hnone tx (mem_of_lastLogged hlast tx htx)] at hb
        cases hb
      dsimp only
      rw [if_neg hkept]
      rfl
  · intro w hw
    obtain ⟨tx, htx, hlogged⟩ := mem_flatMap.mp hw
    obtain ⟨earlier, later, rfl⟩ := append_of_mem htx
    refine ⟨earlier, tx, later, rfl, hlogged, ?_⟩
    intro tx' htx'
    rw [hnone tx' (mem_append_right _ htx')]
    exact not_mem_nil

/-- Replaying a plain log writes to each block the data of the last transaction that logged
it, and nothing that was revoked. -/
theorem replay_recovers (h : Holds log blockSize jsb txs committed tail)
    (hplain : Plain jsb txs committed tail) :
    ∃ had writes, replay jsb (fun b => .ok (log b)) blockSize = .ok (had, writes) ∧
      Recovers txs writes := by
  obtain ⟨had, hreplay⟩ := replay_eq h hplain
  refine ⟨had, _, hreplay, recovers_logged ?_⟩
  intro tx htx
  obtain ⟨writes, rfl⟩ := hplain.single tx htx
  rfl

/-! ### Two transactions, and a later one that revokes their block -/

/-- A block that starts with the given bytes. -/
def blockOf (bytes : Bytes) : Bytes := bytes ++ List.replicate (1024 - bytes.length) 0

/-- A journal of sixteen blocks whose log starts at block 1 with sequence number 1. -/
def smallSb : JournalSb := ⟨true, bt.superblockV2, 16, 1, 1, 1, 0⟩

def smallSbBlock : Bytes :=
  blockOf (magic ++ [0, 0, 0, 4, 0, 0, 0, 0, 0, 0, 4, 0, 0, 0, 0, 16, 0, 0, 0, 1, 0, 0, 0, 1,
    0, 0, 0, 1])

/-- A descriptor block of a transaction with a tag for block 100. -/
def tagBlock (seq : UInt8) : Bytes :=
  blockOf (magic ++ [0, 0, 0, 1, 0, 0, 0, seq, 0, 0, 0, 100, 0, 0, 0, 10])

def dataBlock (byte : UInt8) : Bytes := List.replicate 1024 byte

def commitBlock (seq : UInt8) : Bytes := blockOf (magic ++ [0, 0, 0, 2, 0, 0, 0, seq])

/-- A revoke block of transaction 3 for block 100. -/
def revokeBlock : Bytes :=
  blockOf (magic ++ [0, 0, 0, 5, 0, 0, 0, 3, 0, 0, 0, 20, 0, 0, 0, 100])

/-- A journal whose log begins with some blocks. -/
def logOf (blocks : List Bytes) : Nat → Bytes
  | 0 => smallSbBlock
  | b + 1 => blocks.getD b (blockOf [])

/-- Two transactions log block 100. -/
def twiceLogged : List Bytes :=
  [tagBlock 1, dataBlock 7, commitBlock 1] ++ [tagBlock 2, dataBlock 8, commitBlock 2]

/-- A third one revokes it. -/
def thenRevoked : List Bytes := twiceLogged ++ [revokeBlock, commitBlock 3]

theorem logged_blocks (seq : UInt8) (hseq : seq ∈ [1, 2]) (byte : UInt8) :
    TxBlocks false false seq.toNat [.data [(100, dataBlock byte)]]
      [tagBlock seq, dataBlock byte, commitBlock seq] := by
  have htag : tagTarget false (tagBlock seq) 12 = 100 ∧ tagFlags false (tagBlock seq) 12 = 10 ∧
      IsHeader (tagBlock seq) bt.descriptor seq.toNat ∧
      IsHeader (commitBlock seq) bt.commit seq.toNat ∧ (tagBlock seq).length = 1024 := by
    revert seq
    decide +kernel
  obtain ⟨htarget, hflags, hhdr, hcommit, hlen⟩ := htag
  have htags : Tags false false (tagBlock seq) 12
      [(tagTarget false (tagBlock seq) 12, tagFlags false (tagBlock seq) 12)] :=
    .last (by rw [hflags, hlen]; decide) (by rw [hflags]; decide)
  rw [htarget, hflags] at htags
  have hdata : RecordBlocks false false seq.toNat
      (.data (zipWith contents [(100, 10)] [dataBlock byte])) (tagBlock seq :: [dataBlock byte]) :=
    .data hhdr htags rfl
  exact .record hdata (.commit hcommit)

theorem twiceLogged_blocks {rest : List Bytes} (h : LogBlocks false false 3 txs rest) :
    LogBlocks false false 1 ([.data [(100, dataBlock 7)]] :: [.data [(100, dataBlock 8)]] :: txs)
      (twiceLogged ++ rest) := by
  have hfirst := logged_blocks 1 (by decide) 7
  have hsecond := logged_blocks 2 (by decide) 8
  rw [twiceLogged, append_assoc]
  exact .cons hfirst (.cons hsecond h)

theorem not_txBlocks_empty {rest tail : List Bytes}
    (h : blockOf [] :: tail = blocks ++ rest) : ¬ TxBlocks csumV3 b64 seq tx blocks := by
  intro htx
  obtain ⟨hdr, rest', rfl, hmagic⟩ := exists_head htx
  rw [cons_append] at h
  rw [← (cons.inj h).1] at hmagic
  exact absurd hmagic (by decide)

theorem logOf_holds (n : Nat) (hsized : ∀ b ∈ committed, b.length = 1024)
    (haround : ring smallSb (logOf committed) = committed ++ replicate (n + 1) (blockOf []))
    (hencodes : LogBlocks false false 1 txs committed) :
    Holds (logOf committed) 1024 smallSb txs committed (replicate (n + 1) (blockOf [])) where
  sized b := by
    cases b with
    | zero => exact (by decide +kernel : smallSbBlock.length = 1024)
    | succ b =>
      change (committed.getD b (blockOf [])).length = 1024
      rw [getD_eq_getElem?_getD]
      cases hb : committed[b]? with
      | none => decide +kernel
      | some blk => exact hsized blk (mem_of_getElem? hb)
  blockSize_ge := le_rfl
  parsed := (by decide +kernel : JournalSb.parse smallSbBlock = .ok smallSb)
  magicOk := rfl
  isSuperblock := .inr rfl
  first_pos := by decide
  first_le := by decide
  start_lt := by decide
  around := haround
  encodes := hencodes
  uncommitted _ _ _ h := not_txBlocks_empty h

/-- The data of the second transaction are recovered. -/
theorem replay_twiceLogged :
    ∃ had writes, replay smallSb (fun b => .ok (logOf twiceLogged b)) 1024 = .ok (had, writes) ∧
      Recovers [[.data [(100, dataBlock 7)]], [.data [(100, dataBlock 8)]]] writes := by
  refine replay_recovers (logOf_holds 8 (by decide +kernel) rfl (twiceLogged_blocks .nil))
    ⟨?_, by decide, ?_, ?_⟩
  · rintro tx htx
    rcases mem_pair.mp htx with rfl | rfl <;> exact ⟨_, rfl⟩
  · intro _ hdr hhdr
    cases hhdr
    decide
  · intro _ hdr hhdr hother
    cases hhdr
    exact absurd hother (by decide)

theorem thenRevoked_holds : Holds (logOf thenRevoked) 1024 smallSb
    [[.data [(100, dataBlock 7)]], [.data [(100, dataBlock 8)]], [.revoke [100]]] thenRevoked
    (replicate 7 (blockOf [])) := by
  have hlist : revokeList false revokeBlock = [100] := by decide
  have hrevoke : RecordBlocks false false 3 (.revoke (revokeList false revokeBlock)) [revokeBlock] :=
    .revoke (by decide)
  rw [hlist] at hrevoke
  have hthird : TxBlocks false false 3 [.revoke [100]] [revokeBlock, commitBlock 3] :=
    .record hrevoke (.commit (by decide))
  exact logOf_holds 6 (by decide +kernel) rfl (twiceLogged_blocks (.cons hthird .nil))

/-- The data of the second transaction are written, although the third revokes the block. -/
theorem replay_thenRevoked :
    ¬ ∀ (log : Nat → Bytes) (blockSize : Nat) (jsb : JournalSb) (txs : List Transaction)
      (committed tail : List Bytes), Holds log blockSize jsb txs committed tail →
      ∃ had writes, replay jsb (fun b => .ok (log b)) blockSize = .ok (had, writes) ∧
        Recovers txs writes := by
  intro hall
  obtain ⟨had, writes, hreplay, hrecovers⟩ := hall _ _ _ _ _ _ thenRevoked_holds
  have hwritten : (replay smallSb (fun b => .ok (logOf thenRevoked b)) 1024).map
      (fun r => (lastWrite r.2 100).isSome) = .ok true := by decide +kernel
  rw [hreplay] at hwritten
  have hsome : (lastWrite writes 100).isSome = true := Except.ok.inj hwritten
  rw [hrecovers.contents] at hsome
  exact absurd hsome (by decide)

end Petra.Ext4.Journal
