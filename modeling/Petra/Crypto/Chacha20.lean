import Mathlib

/-! # The ChaCha20 block function

Sixteen words are mixed in twenty rounds and added to what they were before.
-/

namespace Petra.Crypto

/-- The words of a block: constants, key, counter and nonce. -/
abbrev Words : Type := Vector UInt32 16

def rotateLeft (w : UInt32) (n : UInt32) : UInt32 := (w <<< n) ||| (w >>> (32 - n))

def quarterRound (state : Words) (a b c d : Fin 16) : Words :=
  let state := state.set a (state[a] + state[b])
  let state := state.set d (rotateLeft (state[d] ^^^ state[a]) 16)
  let state := state.set c (state[c] + state[d])
  let state := state.set b (rotateLeft (state[b] ^^^ state[c]) 12)
  let state := state.set a (state[a] + state[b])
  let state := state.set d (rotateLeft (state[d] ^^^ state[a]) 8)
  let state := state.set c (state[c] + state[d])
  state.set b (rotateLeft (state[b] ^^^ state[c]) 7)

/-- A round over the columns and one over the diagonals. -/
def doubleRound (working : Words) : Words :=
  let working := quarterRound working 0 4 8 12
  let working := quarterRound working 1 5 9 13
  let working := quarterRound working 2 6 10 14
  let working := quarterRound working 3 7 11 15
  let working := quarterRound working 0 5 10 15
  let working := quarterRound working 1 6 11 12
  let working := quarterRound working 2 7 8 13
  quarterRound working 3 4 9 14

/-- The byte of a word that stands at a place of its little-endian encoding. -/
def leByte (w : UInt32) (place : Nat) : UInt8 := (w >>> (8 * place.toUInt32)).toUInt8

/-- The 64 bytes made from a state. -/
def chacha20Block (state : Words) : Vector UInt8 64 :=
  let working := doubleRound^[10] state
  Vector.ofFn (fun i => leByte (working[i.val / 4] + state[i.val / 4]) (i.val % 4))

end Petra.Crypto
