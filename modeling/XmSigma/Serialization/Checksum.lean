import Mathlib.Logic.Function.Iterate

/-!
# Checksums

The integrity checks of `checksum.hpp`. The data, given there as a pointer and a length, are the
list of the bytes. A byte is exclusive-ored into the register and eight rounds follow, one for
each of its bits.
-/

namespace XmSigma

namespace Serialization

/-! ### `crc8_maxim` -/

/-- One round of the inner loop. -/
def crc8Round (crc : UInt8) : UInt8 :=
  if crc &&& 0x01 ≠ 0 then (crc >>> 1) ^^^ 0x8C else crc >>> 1

/-- One round of the outer loop. -/
def crc8Byte (crc data : UInt8) : UInt8 := crc8Round^[8] (crc ^^^ data)

/-- `crc8_maxim`. -/
def crc8Maxim (data : List UInt8) : UInt8 := data.foldl crc8Byte 0x00

/-! ### `crc16_xmodem` -/

/-- One round of the inner loop. -/
def crc16Round (crc : UInt16) : UInt16 :=
  if crc &&& 0x8000 ≠ 0 then (crc <<< 1) ^^^ 0x1021 else crc <<< 1

/-- One round of the outer loop. -/
def crc16Byte (crc : UInt16) (data : UInt8) : UInt16 :=
  crc16Round^[8] (crc ^^^ (data.toUInt16 <<< 8))

/-- `crc16_xmodem`. -/
def crc16Xmodem (data : List UInt8) : UInt16 := data.foldl crc16Byte 0x0000

/-! ### `checksum_inverted_sum` -/

/-- `checksum_inverted_sum`. -/
def checksumInvertedSum (data : List UInt8) : UInt8 :=
  ~~~data.foldl (fun sum d => sum + d) 0

end Serialization

end XmSigma
