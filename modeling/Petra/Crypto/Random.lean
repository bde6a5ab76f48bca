import Petra.Crypto.Chacha20

/-! # The random number generator

Every request mixes fresh samples into the key and the nonce by exclusive or, puts the block
counter back to zero and then answers from one block after the other. The samples of two reseedings
cancel if they are equal, so a later request can meet a state that has answered before. It does
not as long as the samples in between do not cancel.
-/

namespace Petra.Crypto

open Nat Function

/-- Mix a word into one place of a state. -/
def xorAt (state : Words) (i : Nat) (w : UInt32) (hi : i < 16 := by decide) : Words :=
  state.set i (state[i] ^^^ w)

theorem getElem_xorAt (state : Words) (i j : Nat) (w : UInt32) (hi : i < 16) (hj : j < 16) :
    (xorAt state i w hi)[j] = if i = j then state[j] ^^^ w else state[j] := by
  unfold xorAt
  rw [Vector.getElem_set]
  split_ifs with h
  · subst h
    rfl
  · rfl

/-- What a reseeding reads from the entropy sources and the clocks. -/
structure Samples where
  harvested : UInt64
  nanos : UInt64
  schedTicks : UInt64
  deriving DecidableEq, Repr

/-- The generator. `blocks` is a record of the states that blocks have been made from, the
oldest first. -/
structure ChaChaRng where
  state : Words
  buffer : Vector UInt8 64
  bufIdx : Nat
  blocks : List Words

namespace ChaChaRng

/-- Mix entropy into key and nonce. -/
def reseed (rng : ChaChaRng) (extraEntropy : UInt64) (samples : Samples) : ChaChaRng :=
  let harvested := samples.harvested ^^^ extraEntropy
  let state := xorAt rng.state 4 samples.nanos.toUInt32
  let state := xorAt state 5 (samples.nanos >>> 32).toUInt32
  let state := xorAt state 6 samples.schedTicks.toUInt32
  let state := xorAt state 7 (samples.schedTicks >>> 32).toUInt32
  let state := xorAt state 8 harvested.toUInt32
  let state := xorAt state 9 (harvested >>> 32).toUInt32
  let state := xorAt state 10 0x5a5a5a5a
  let state := xorAt state 11 0xa5a5a5a5
  let state := state.set 12 0
  let state := state.set 13 0
  let state := xorAt state 14 0x12345678
  let state := xorAt state 15 0x9abcdef0
  { rng with state, bufIdx := 64 }

/-- The 64-bit block counter, one higher. -/
def bump (state : Words) : Words :=
  let state := state.set 12 (state[12] + 1)
  if state[12] = 0 then state.set 13 (state[13] + 1) else state

/-- Make the next block. -/
def refill (rng : ChaChaRng) : ChaChaRng :=
  { state := bump rng.state, buffer := chacha20Block rng.state, bufIdx := 0,
    blocks := rng.blocks ++ [rng.state] }

/-- The generator with something left in its buffer. -/
def ready (rng : ChaChaRng) : ChaChaRng := if 64 ≤ rng.bufIdx then rng.refill else rng

theorem ready_bufIdx_lt (rng : ChaChaRng) : rng.ready.bufIdx < 64 := by
  unfold ready
  split_ifs with hfull
  · exact zero_lt_succ 63
  · exact Nat.lt_of_not_le hfull

/-- The bytes of a request, and the generator afterwards. -/
def fillBytes (rng : ChaChaRng) (len : Nat) : List UInt8 × ChaChaRng :=
  if len = 0 then ([], rng)
  else
    let ready := rng.ready
    let take := min len (64 - ready.bufIdx)
    let rest := fillBytes { ready with bufIdx := ready.bufIdx + take } (len - take)
    ((ready.buffer.toList.drop ready.bufIdx).take take ++ rest.1, rest.2)
termination_by len
decreasing_by
  have hidx := ready_bufIdx_lt rng
  change len - min len (64 - rng.ready.bufIdx) < len
  omega

end ChaChaRng

/-- The global generator as it is linked into the kernel. -/
def csprng : ChaChaRng where
  state := #v[0x61707865, 0x3320646e, 0x79622d32, 0x6b206574, 0x12345678, 0x9abcdef0, 0x0fedcba9,
    0x87654321, 0xdeadbeef, 0xcafebabe, 0x5a5a5a5a, 0xa5a5a5a5, 0, 0, 0x33333333, 0x77777777]
  buffer := Vector.replicate 64 0
  bufIdx := 64
  blocks := []

/-- The calls on the generator, with what each reads from the outside. -/
inductive RandomOp
  | getRandomBytes (jitter : UInt64) (samples : Samples) (len : Nat)
  | addEntropy (data : List UInt8)
  | reseed (extraEntropy : UInt64) (samples : Samples)
  deriving DecidableEq, Repr

section Calls

variable (digest : List UInt8 → Vector UInt8 32)

/-- A little-endian word of a digest. -/
def digestWord (d : Vector UInt8 32) (i : Fin 4) : UInt32 :=
  d[4 * i.val].toUInt32 ||| (d[4 * i.val + 1].toUInt32 <<< 8) |||
    (d[4 * i.val + 2].toUInt32 <<< 16) ||| (d[4 * i.val + 3].toUInt32 <<< 24)

/-- Mix the digest of some data into the second half of the key. -/
def addEntropy (rng : ChaChaRng) (data : List UInt8) : ChaChaRng :=
  if data.isEmpty then rng
  else
    let d := digest data
    let state := xorAt rng.state 8 (digestWord d 0)
    let state := xorAt state 9 (digestWord d 1)
    let state := xorAt state 10 (digestWord d 2)
    let state := xorAt state 11 (digestWord d 3)
    { rng with state, bufIdx := 64 }

def randomStep (rng : ChaChaRng) : RandomOp → ChaChaRng
  | .getRandomBytes jitter samples len => ((rng.reseed jitter samples).fillBytes len).2
  | .addEntropy data => addEntropy digest rng data
  | .reseed extraEntropy samples => rng.reseed extraEntropy samples

/-- The generator after a sequence of calls. -/
def randomRun (rng : ChaChaRng) (ops : List RandomOp) : ChaChaRng :=
  ops.foldl (randomStep digest) rng

end Calls

/-! ### The words that tell states apart -/

/-- A word of the key. -/
def keyWord (state : Words) (i : Fin 8) : UInt32 := state[4 + i.val]

/-- The word of the nonce that every reseeding turns over. -/
def turnWord (state : Words) : UInt32 := state[14]

/-- The block counter. -/
def counter (state : Words) : Nat := state[12].toNat + 2 ^ 32 * state[13].toNat

/-- What the samples of a reseeding do to the key. -/
def seedWords (samples : Samples) (extraEntropy : UInt64) : Vector UInt32 8 :=
  let harvested := samples.harvested ^^^ extraEntropy
  #v[samples.nanos.toUInt32, (samples.nanos >>> 32).toUInt32, samples.schedTicks.toUInt32,
    (samples.schedTicks >>> 32).toUInt32, harvested.toUInt32, (harvested >>> 32).toUInt32, 0, 0]

/-- What a reseeding does to the key whatever the samples are. -/
def turnWords : Vector UInt32 8 := #v[0, 0, 0, 0, 0, 0, 0x5a5a5a5a, 0xa5a5a5a5]

namespace ChaChaRng

section

variable (rng : ChaChaRng) (extraEntropy : UInt64) (samples : Samples)

theorem reseed_keyWord (i : Fin 8) : keyWord (rng.reseed extraEntropy samples).state i =
      keyWord rng.state i ^^^ (seedWords samples extraEntropy)[i] ^^^ turnWords[i] := by
  unfold keyWord reseed seedWords turnWords
  fin_cases i <;> simp [getElem_xorAt]

theorem reseed_turnWord :
    turnWord (rng.reseed extraEntropy samples).state = turnWord rng.state ^^^ 0x12345678 := by
  simp [turnWord, reseed, getElem_xorAt]

theorem reseed_counter : counter (rng.reseed extraEntropy samples).state = 0 := by
  simp [counter, reseed, getElem_xorAt]

end

section

variable (state : Words)

theorem bump_keyWord (i : Fin 8) : keyWord (bump state) i = keyWord state i := by
  have hne : ∀ j, j = 12 ∨ j = 13 → j ≠ 4 + i.val := by omega
  unfold keyWord bump
  dsimp only
  split_ifs <;> simp [hne]

theorem bump_turnWord : turnWord (bump state) = turnWord state := by
  unfold turnWord bump
  dsimp only
  split_ifs <;> simp

theorem bump_counter (h : counter state + 1 < 2 ^ 64) :
    counter (bump state) = counter state + 1 := by
  have hlow := state[12].toNat_lt
  have hnext : (state[12] + 1).toNat = (state[12].toNat + 1) % 2 ^ 32 := by simp
  unfold counter at h ⊢
  unfold bump
  by_cases hzero : state[12] + 1 = 0
  · -- the low word wraps around
    have hlast : (state[12].toNat + 1) % 2 ^ 32 = 0 := by rw [← hnext, hzero]; rfl
    simp [hzero]
    omega
  · have hpos : (state[12] + 1).toNat ≠ 0 := fun h0 => hzero (UInt32.toNat_inj.mp h0)
    simp [hzero]
    omega

theorem bumps_keyWord (n : Nat) (i : Fin 8) : keyWord (bump^[n] state) i = keyWord state i := by
  induction n generalizing state with
  | zero => rfl
  | succ n ih => rw [iterate_succ_apply, ih, bump_keyWord]

theorem bumps_turnWord (n : Nat) : turnWord (bump^[n] state) = turnWord state := by
  induction n generalizing state with
  | zero => rfl
  | succ n ih => rw [iterate_succ_apply, ih, bump_turnWord]

theorem bumps_counter (n : Nat) (h : counter state + n < 2 ^ 64) :
    counter (bump^[n] state) = counter state + n := by
  induction n generalizing state with
  | zero => rfl
  | succ n ih =>
    have hbump := bump_counter state (by omega)
    rw [iterate_succ_apply, ih _ (by omega)]
    omega

end

/-- A request makes blocks from consecutive states, no more of them than it has bytes. -/
theorem fillBytes_blocks (rng : ChaChaRng) (len : Nat) : ∃ n ≤ len,
    (rng.fillBytes len).2.blocks = rng.blocks ++ (List.range n).map (fun k => bump^[k] rng.state) ∧
      (rng.fillBytes len).2.state = bump^[n] rng.state := by
  fun_induction fillBytes rng len with
  | case1 rng => exact ⟨0, le_rfl, by simp, rfl⟩
  | case2 rng len hlen ready take rest ih =>
    have hidx := ready_bufIdx_lt rng
    obtain ⟨n, hn, hblocks, hstate⟩ := ih
    have htake : len - take + 1 ≤ len := by
      change len - min len (64 - rng.ready.bufIdx) + 1 ≤ len
      omega
    replace hblocks : rest.2.blocks =
      ready.blocks ++ (List.range n).map (fun k => bump^[k] ready.state) := hblocks
    replace hstate : rest.2.state = bump^[n] ready.state := hstate
    by_cases hfull : 64 ≤ rng.bufIdx
    · have hready : ready = rng.refill := if_pos hfull
      refine ⟨n + 1, by omega, ?_, by rw [hstate, hready]; rfl⟩
      rw [hblocks, hready, refill, List.append_assoc, List.range_succ_eq_map, List.map_cons,
        List.map_map]
      rfl
    · have hready : ready = rng := if_neg hfull
      exact ⟨n, by omega, by rw [hblocks, hready], by rw [hstate, hready]⟩

end ChaChaRng

/-! ### What the calls add up to -/

namespace RandomOp

/-- Whether the call reseeds the generator. -/
def reseeds : RandomOp → Bool
  | getRandomBytes _ _ _ => true
  | addEntropy _ => false
  | reseed _ _ => true

/-- How many bytes the call asks for. -/
def asked : RandomOp → Nat
  | getRandomBytes _ _ len => len
  | _ => 0

end RandomOp

/-- A word that is there after an odd number of turns. -/
def turned (n : Nat) (w : UInt32) : UInt32 := if n % 2 = 1 then w else 0

theorem turned_add (m n : Nat) (w : UInt32) : turned (m + n) w = turned m w ^^^ turned n w := by
  unfold turned
  rcases mod_two_eq_zero_or_one m with hm | hm <;>
    rcases mod_two_eq_zero_or_one n with hn | hn <;> simp [add_mod, hm, hn]

theorem eq_zero_of_xor_eq_self {a b : UInt32} (h : a ^^^ b = a) : b = 0 := by
  rw [← UInt32.zero_xor (a := b), ← UInt32.xor_self (a := a), UInt32.xor_assoc, h]

section Sums

variable (digest : List UInt8 → Vector UInt8 32)

/-- What the samples and the data of a call do to the key. -/
def sampled : RandomOp → Vector UInt32 8
  | .getRandomBytes jitter samples _ => seedWords samples jitter
  | .addEntropy data =>
    if data.isEmpty then Vector.replicate 8 0
    else
      let d := digest data
      #v[0, 0, 0, 0, digestWord d 0, digestWord d 1, digestWord d 2, digestWord d 3]
  | .reseed extraEntropy samples => seedWords samples extraEntropy

/-- What the samples and the data of several calls do to a word of the key. -/
def mixed (i : Fin 8) (ops : List RandomOp) : UInt32 :=
  ops.foldr (fun op w => (sampled digest op)[i] ^^^ w) 0

/-- How often the calls reseed. -/
def turns (ops : List RandomOp) : Nat := ops.countP RandomOp.reseeds

theorem turns_append (ops ops' : List RandomOp) : turns (ops ++ ops') = turns ops + turns ops' :=
  List.countP_append

theorem mixed_append (i : Fin 8) (ops ops' : List RandomOp) :
    mixed digest i (ops ++ ops') = mixed digest i ops ^^^ mixed digest i ops' := by
  induction ops with
  | nil => exact (UInt32.zero_xor).symm
  | cons op rest ih =>
    change _ ^^^ mixed digest i (rest ++ ops') = (_ ^^^ mixed digest i rest) ^^^ _
    rw [ih, UInt32.xor_assoc]

section

variable (rng : ChaChaRng)

theorem addEntropy_keyWord (data : List UInt8) (i : Fin 8) :
    keyWord (addEntropy digest rng data).state i =
      keyWord rng.state i ^^^ (sampled digest (.addEntropy data))[i] := by
  unfold addEntropy sampled
  dsimp only
  split_ifs
  · simp
  · unfold keyWord
    fin_cases i <;> simp [getElem_xorAt]

theorem step_keyWord (op : RandomOp) (i : Fin 8) : keyWord (randomStep digest rng op).state i =
      keyWord rng.state i ^^^ (mixed digest i [op] ^^^ turned (turns [op]) turnWords[i]) := by
  cases op with
  | getRandomBytes jitter samples len =>
    obtain ⟨n, _, _, hstate⟩ := (rng.reseed jitter samples).fillBytes_blocks len
    change keyWord ((rng.reseed jitter samples).fillBytes len).2.state i = _
    rw [hstate, ChaChaRng.bumps_keyWord, ChaChaRng.reseed_keyWord]
    simp [mixed, sampled, turns, turned, RandomOp.reseeds, UInt32.xor_assoc]
  | addEntropy data =>
    change keyWord (addEntropy digest rng data).state i = _
    rw [addEntropy_keyWord]
    simp [mixed, turns, turned, RandomOp.reseeds]
  | reseed extraEntropy samples =>
    change keyWord (rng.reseed extraEntropy samples).state i = _
    rw [ChaChaRng.reseed_keyWord]
    simp [mixed, sampled, turns, turned, RandomOp.reseeds, UInt32.xor_assoc]

theorem step_turnWord (op : RandomOp) : turnWord (randomStep digest rng op).state =
      turnWord rng.state ^^^ turned (turns [op]) 0x12345678 := by
  cases op with
  | getRandomBytes jitter samples len =>
    obtain ⟨n, _, _, hstate⟩ := (rng.reseed jitter samples).fillBytes_blocks len
    change turnWord ((rng.reseed jitter samples).fillBytes len).2.state = _
    rw [hstate, ChaChaRng.bumps_turnWord, ChaChaRng.reseed_turnWord]
    simp [turns, turned, RandomOp.reseeds]
  | addEntropy data =>
    have hnone : turned (turns [.addEntropy data]) 0x12345678 = 0 := rfl
    rw [hnone, UInt32.xor_zero]
    unfold randomStep addEntropy
    dsimp only
    split_ifs
    · rfl
    · simp [turnWord, getElem_xorAt]
  | reseed extraEntropy samples =>
    change turnWord (rng.reseed extraEntropy samples).state = _
    rw [ChaChaRng.reseed_turnWord]
    simp [turns, turned, RandomOp.reseeds]

theorem run_keyWord (ops : List RandomOp) (i : Fin 8) : keyWord (randomRun digest rng ops).state i =
      keyWord rng.state i ^^^ (mixed digest i ops ^^^ turned (turns ops) turnWords[i]) := by
  induction ops generalizing rng with
  | nil => simp [randomRun, mixed, turns, turned]
  | cons op rest ih =>
    have hturns := turns_append [op] rest
    rw [List.singleton_append] at hturns
    have hmixed := mixed_append digest i [op] rest
    rw [List.singleton_append] at hmixed
    change keyWord (randomRun digest (randomStep digest rng op) rest).state i = _
    rw [ih, step_keyWord, hmixed, hturns, turned_add]
    ac_rfl

theorem run_turnWord (ops : List RandomOp) : turnWord (randomRun digest rng ops).state =
      turnWord rng.state ^^^ turned (turns ops) 0x12345678 := by
  induction ops generalizing rng with
  | nil => simp [randomRun, turns, turned]
  | cons op rest ih =>
    have hturns := turns_append [op] rest
    rw [List.singleton_append] at hturns
    change turnWord (randomRun digest (randomStep digest rng op) rest).state = _
    rw [ih, step_turnWord, hturns, turned_add, UInt32.xor_assoc]

end

/-! ### No state answers twice -/

/-- The blocks of one call come from different states, which differ from the state the call
leaves only in the counter. -/
theorem step_blocks (rng : ChaChaRng) {op : RandomOp} (hlen : op.asked < 2 ^ 63) :
    ∃ new, (randomStep digest rng op).blocks = rng.blocks ++ new ∧ new.Nodup ∧
      ∀ b ∈ new, 0 < op.asked ∧ (∀ i, keyWord b i = keyWord (randomStep digest rng op).state i) ∧
        turnWord b = turnWord (randomStep digest rng op).state := by
  cases op with
  | getRandomBytes jitter samples len =>
    obtain ⟨n, hn, hblocks, hstate⟩ := (rng.reseed jitter samples).fillBytes_blocks len
    have hzero := rng.reseed_counter jitter samples
    refine ⟨_, hblocks, ?_, ?_⟩
    · refine List.Nodup.map_on ?_ List.nodup_range
      intro j hj k hk hsame
      have hjn := List.mem_range.mp hj
      have hkn := List.mem_range.mp hk
      change len < 2 ^ 63 at hlen
      have hcount := congrArg counter hsame
      rw [ChaChaRng.bumps_counter _ _ (by omega), ChaChaRng.bumps_counter _ _ (by omega)] at hcount
      omega
    · intro b hb
      obtain ⟨k, hk, rfl⟩ := List.mem_map.mp hb
      have hkn := List.mem_range.mp hk
      refine ⟨by change 0 < len; omega, ?_, ?_⟩
      · intro i
        change _ = keyWord ((rng.reseed jitter samples).fillBytes len).2.state i
        rw [hstate, ChaChaRng.bumps_keyWord, ChaChaRng.bumps_keyWord]
      · change _ = turnWord ((rng.reseed jitter samples).fillBytes len).2.state
        rw [hstate, ChaChaRng.bumps_turnWord, ChaChaRng.bumps_turnWord]
  | addEntropy data =>
    refine ⟨[], ?_, List.nodup_nil, by simp⟩
    simp only [randomStep, addEntropy]
    split_ifs <;> simp
  | reseed extraEntropy samples => exact ⟨[], by simp [randomStep, ChaChaRng.reseed], by simp⟩

/-- From one request to a later one, the samples and the data mixed in do not cancel out over an
even number of reseedings. -/
def NeverCancels (ops : List RandomOp) : Prop :=
  ∀ before first between second after,
    ops = before ++ first :: (between ++ second :: after) → 0 < first.asked → 0 < second.asked →
      turns (between ++ [second]) % 2 = 1 ∨ ∃ i, mixed digest i (between ++ [second]) ≠ 0

variable {digest} {ops : List RandomOp}

theorem NeverCancels.of_append {ops ops' : List RandomOp} (h : NeverCancels digest (ops ++ ops')) :
    NeverCancels digest ops := by
  intro before first between second after hops hfirst hsecond
  refine h before first between second (after ++ ops') ?_ hfirst hsecond
  rw [hops]
  simp

/-- A block was made from the key words that some request left. -/
theorem exists_request_of_mem (hlen : ∀ op ∈ ops, op.asked < 2 ^ 63)
    {b : Words} (hb : b ∈ (randomRun digest csprng ops).blocks) :
    ∃ before op after, ops = before ++ op :: after ∧ 0 < op.asked ∧
      (∀ i, keyWord b i = keyWord (randomRun digest csprng (before ++ [op])).state i) ∧
      turnWord b = turnWord (randomRun digest csprng (before ++ [op])).state := by
  induction ops using List.reverseRecOn with
  | nil => cases hb
  | append_singleton ops op ih =>
    obtain ⟨new, hblocks, _, hnew⟩ := step_blocks digest (randomRun digest csprng ops)
      (hlen op (by simp))
    have hrun : randomRun digest csprng (ops ++ [op]) =
        randomStep digest (randomRun digest csprng ops) op := List.foldl_concat ..
    rw [hrun, hblocks] at hb
    rcases List.mem_append.mp hb with hold | hb
    · obtain ⟨before, first, after, rfl, hasked, hkey⟩ :=
        ih (fun op hop => hlen op (by simp [hop])) hold
      exact ⟨before, first, after ++ [op], by simp, hasked, hkey⟩
    · obtain ⟨hasked, hkey⟩ := hnew b hb
      exact ⟨ops, op, [], rfl, hasked, hrun ▸ hkey⟩

/-- The keys two requests left are the same only if everything mixed in between cancels out. -/
theorem cancels_of_same_key {rng rng' : ChaChaRng} (hrun : rng' = randomRun digest rng ops)
    (hkey : ∀ i, keyWord rng'.state i = keyWord rng.state i)
    (hturn : turnWord rng'.state = turnWord rng.state) :
    turns ops % 2 ≠ 1 ∧ ∀ i, mixed digest i ops = 0 := by
  subst hrun
  have hodd : turns ops % 2 ≠ 1 := by
    intro hodd
    rw [run_turnWord, turned, if_pos hodd] at hturn
    exact absurd (eq_zero_of_xor_eq_self hturn) (by decide)
  refine ⟨hodd, ?_⟩
  intro i
  have hi := hkey i
  rw [run_keyWord, turned, if_neg hodd, UInt32.xor_zero] at hi
  exact eq_zero_of_xor_eq_self hi

/-- No two blocks are made from the same state, in whatever order requests, reseedings and
entropy come and whatever the samples are, unless the samples cancel out. -/
theorem blocks_nodup {ops : List RandomOp} (hlen : ∀ op ∈ ops, op.asked < 2 ^ 63)
    (hsamples : NeverCancels digest ops) : (randomRun digest csprng ops).blocks.Nodup := by
  induction ops using List.reverseRecOn with
  | nil => exact List.nodup_nil
  | append_singleton ops op ih =>
    obtain ⟨new, hblocks, hnodup, hnew⟩ := step_blocks digest (randomRun digest csprng ops)
      (hlen op (by simp))
    have hrun : randomRun digest csprng (ops ++ [op]) =
        randomStep digest (randomRun digest csprng ops) op := List.foldl_concat ..
    have hlen' : ∀ op ∈ ops, op.asked < 2 ^ 63 := fun op hop => hlen op (by simp [hop])
    rw [hrun, hblocks, List.nodup_append]
    refine ⟨ih hlen' hsamples.of_append, hnodup, ?_⟩
    rintro b hold _ hb rfl
    obtain ⟨hasked, hkey, hturn⟩ := hnew b hb
    obtain ⟨before, first, between, rfl, hfirst, hkey', hturn'⟩ := exists_request_of_mem hlen' hold
    -- the same state has answered an earlier request
    have hlater : randomStep digest (randomRun digest csprng (before ++ first :: between)) op =
        randomRun digest (randomRun digest csprng (before ++ [first])) (between ++ [op]) := by
      simp [randomRun]
    obtain ⟨hodd, hzero⟩ := cancels_of_same_key hlater
      (fun i => (hkey i).symm.trans (hkey' i)) (hturn.symm.trans hturn')
    rcases hsamples before first between op [] (by simp) hfirst hasked with hturns | ⟨i, hi⟩
    · exact hodd hturns
    · exact hi (hzero i)

end Sums

/-- Three requests between which the clocks move on. -/
theorem blocks_nodup_of_ticking : ∃ ops, ops.length = 3 ∧ (∀ op ∈ ops, op.asked = 64) ∧
    (randomRun (fun _ => Vector.replicate 32 0) csprng ops).blocks.Nodup := by
  refine ⟨[.getRandomBytes 1 ⟨5, 1000000, 1⟩ 64, .getRandomBytes 2 ⟨5, 2000000, 2⟩ 64,
    .getRandomBytes 3 ⟨5, 3000000, 3⟩ 64], rfl, by decide, ?_⟩
  refine blocks_nodup (by decide) ?_
  intro before first between second after hops hfirst hsecond
  have hlength := congrArg List.length hops
  have hmem : second ∈ before ++ first :: (between ++ second :: after) := by simp
  rw [← hops] at hmem
  cases between with
  | nil =>
    left
    simp only [List.mem_cons, List.not_mem_nil, or_false] at hmem
    rcases hmem with rfl | rfl | rfl <;> rfl
  | cons middle between =>
    simp only [List.length_cons, List.length_append, List.length_nil] at hlength
    obtain rfl := List.eq_nil_of_length_eq_zero (show before.length = 0 by omega)
    obtain rfl := List.eq_nil_of_length_eq_zero (show between.length = 0 by omega)
    obtain ⟨rfl, rfl, rfl, -⟩ := hops
    exact .inr ⟨0, by decide⟩

/-- Three requests within one tick of every clock: the third is answered from the same state as the
first. -/
theorem not_nodup_of_equal_samples : ¬ ∀ (digest : List UInt8 → Vector UInt8 32)
    (ops : List RandomOp), (∀ op ∈ ops, op.asked < 2 ^ 63) →
      (randomRun digest csprng ops).blocks.Nodup := by
  intro hall
  have h := hall (fun _ => Vector.replicate 32 0)
    (List.replicate 3 (.getRandomBytes 1 ⟨5, 1000000, 1⟩ 64)) (by decide)
  revert h
  decide +kernel

end Petra.Crypto
