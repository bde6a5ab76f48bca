import Petra.Base.Bytes

/-! # CRC-32C and CRC-16 -/

namespace Petra.Crypto

open Base

/-- The reflected Castagnoli polynomial. -/
def crc32cPoly : UInt32 := 0x82F63B78

def crc16Poly : UInt16 := 0x1021

/-- One bit of a CRC-32C table entry. -/
def crc32cShift (c : UInt32) : UInt32 :=
  if c &&& 1 ≠ 0 then crc32cPoly ^^^ (c >>> 1) else c >>> 1

/-- The table entry of a byte. -/
def crc32cTable (i : UInt32) : UInt32 := crc32cShift^[8] i

/-- Feed bytes into a running CRC-32C state. -/
def crc32c (state : UInt32) (data : Bytes) : UInt32 :=
  data.foldl (fun state b => (state >>> 8) ^^^ crc32cTable ((state ^^^ b.toUInt32) &&& 0xFF)) state

def crc16Shift (state : UInt16) : UInt16 :=
  if state &&& 0x8000 ≠ 0 then (state <<< (1 : UInt16)) ^^^ crc16Poly else state <<< (1 : UInt16)

/-- Feed bytes into a running CRC-16 state, most significant bit first. -/
def crc16 (state : UInt16) (data : Bytes) : UInt16 :=
  data.foldl (fun state b => crc16Shift^[8] (state ^^^ (b.toUInt16 <<< (8 : UInt16)))) state

end Petra.Crypto
