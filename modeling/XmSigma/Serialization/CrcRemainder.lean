import XmSigma.Lib.ShiftRegister
import XmSigma.Serialization.ByteOrder
import XmSigma.Serialization.Checksum

/-!
# The two CRCs are polynomial remainders

A round of either inner loop is a shift of the register: `crc16_xmodem` drops the highest bit of
its word first, `crc8_maxim` the lowest. Eight rounds therefore take in a byte, and the loops
compute the check of their data modulo the generators their constants stand for.

## Main definitions

* `xmodem`, `maxim`: the two generators
* `frame16`, `frame8`: a message and its check

## Main results

* `crc16Xmodem_computes`, `crc8Maxim_computes`: the loops compute checks
* `crc16Xmodem_remainder`, `crc8Maxim_remainder`: what that says of polynomials
* `residue_iff_comparison`: checking by residue and checking by comparison
-/

namespace XmSigma

namespace Serialization

open Polynomial BitString

/-! ### `crc16_xmodem` -/

/-- The generator of `crc16_xmodem`. -/
def xmodem : Generator := ⟨Order.msb.bits 0x1021#16, by decide⟩

theorem xmodem_poly : xmodem.poly = X ^ 16 + X ^ 12 + X ^ 5 + 1 := by
  have htaps : xmodem.taps = [false, false, false, true, false, false, false, false, false, false,
      true, false, false, false, false, true] := by decide
  rw [Generator.poly, Generator.width, htaps]
  simp [BitString.poly, coef, add_assoc]

/-- The test of a round looks at the bit it drops. -/
theorem crc16Round_test (crc : UInt16) :
    crc &&& 0x8000 ≠ 0 ↔ Order.msb.first crc.toBitVec = true := by
  have hmask : (crc &&& 0x8000).toBitVec =
      if crc.toBitVec.getLsbD 15 then BitVec.twoPow 16 15 else 0#16 :=
    BitVec.and_twoPow crc.toBitVec 15
  rw [Ne, ← UInt16.toBitVec_inj, hmask, Order.first, BitVec.getMsbD_eq_getLsbD]
  cases crc.toBitVec.getLsbD 15 <;> decide

theorem crc16Round_bits (crc : UInt16) :
    Order.msb.bits (crc16Round crc).toBitVec = xmodem.shift (Order.msb.bits crc.toBitVec) := by
  have hround : (crc16Round crc).toBitVec = if Order.msb.first crc.toBitVec then
      Order.msb.drop crc.toBitVec ^^^ 0x1021#16 else Order.msb.drop crc.toBitVec := by
    rw [crc16Round]
    by_cases hfirst : Order.msb.first crc.toBitVec = true
    · rw [if_pos ((crc16Round_test crc).mpr hfirst), if_pos hfirst]
      rfl
    · rw [if_neg (mt (crc16Round_test crc).mp hfirst), if_neg hfirst]
      rfl
  exact (congrArg Order.msb.bits hround).trans (xmodem.shift_bits (o := .msb) rfl _).symm

/-- The byte is taken in at the top of the register, and moved on by its rounds. -/
theorem crc16Byte_residue (crc : UInt16) (d : UInt8) :
    xmodem.residue (Order.msb.bits (crc16Byte crc d).toBitVec) =
      AdjoinRoot.root xmodem.poly ^ 8 * xmodem.residue (Order.msb.bits crc.toBitVec) +
      AdjoinRoot.root xmodem.poly ^ 16 * xmodem.residue (Order.msb.bits d.toBitVec) := by
  have hword : (d.toUInt16 <<< 8).toBitVec = d.toBitVec ++ 0#8 := by
    simpa using toBitVec_be16 d 0
  have hbyte : xmodem.residue (Order.msb.bits (d.toUInt16 <<< 8).toBitVec) =
      AdjoinRoot.root xmodem.poly ^ 8 * xmodem.residue (Order.msb.bits d.toBitVec) := by
    have hzero : BitString.poly (Order.msb.bits 0#8) = 0 := poly_eq_zero_iff.mpr (by decide)
    rw [hword, msb_bits_append, Generator.residue, poly_append, hzero, add_zero, map_mul, map_pow,
      AdjoinRoot.mk_X, mul_comm]
    rfl
  have hrounds := xmodem.residue_rounds (fun c : UInt16 => length_bits c.toBitVec) crc16Round_bits 8
    (crc ^^^ (d.toUInt16 <<< 8))
  rw [crc16Byte, hrounds, UInt16.toBitVec_xor, bits_xor, xmodem.residue_xor (by simp), hbyte]
  ring

theorem crc16Xmodem_computes :
    xmodem.Computes (fun crc : UInt16 => Order.msb.bits crc.toBitVec) .msb crc16Xmodem :=
  Generator.Computes.of_foldl xmodem (fun crc => length_bits crc.toBitVec)
    (fun _ _ h => UInt16.toBitVec_inj.mp (bits_injective h)) (by decide) crc16Byte_residue

/-- **`crc16_xmodem` is the remainder** of the message, moved up by sixteen, modulo
`x¹⁶ + x¹² + x⁵ + 1`. -/
theorem crc16Xmodem_remainder (data : List UInt8) :
    BitString.poly (Order.msb.bits (crc16Xmodem data).toBitVec) =
        (BitString.poly (Order.msb.bytes data) * X ^ 16) %ₘ (X ^ 16 + X ^ 12 + X ^ 5 + 1) ∧
      (BitString.poly (Order.msb.bits (crc16Xmodem data).toBitVec)).degree < 16 := by
  rw [← xmodem_poly]
  exact ⟨crc16Xmodem_computes.poly_bits data, degree_poly_lt _⟩

-- The catalogue's check value, of the digits one to nine.
example : crc16Xmodem [0x31, 0x32, 0x33, 0x34, 0x35, 0x36, 0x37, 0x38, 0x39] = 0x31C3 := by
  decide +kernel

/-! ### `crc8_maxim` -/

/-- The generator of `crc8_maxim`. Its constant is the reversed one, like its register. -/
def maxim : Generator := ⟨Order.lsb.bits 0x8C#8, by decide⟩

theorem maxim_poly : maxim.poly = X ^ 8 + X ^ 5 + X ^ 4 + 1 := by
  have htaps : maxim.taps = [false, false, true, true, false, false, false, true] := by decide
  rw [Generator.poly, Generator.width, htaps]
  simp [BitString.poly, coef, add_assoc]

theorem crc8Round_test (crc : UInt8) : crc &&& 0x01 ≠ 0 ↔ Order.lsb.first crc.toBitVec = true := by
  have hmask : (crc &&& 0x01).toBitVec =
      if crc.toBitVec.getLsbD 0 then BitVec.twoPow 8 0 else 0#8 :=
    BitVec.and_twoPow crc.toBitVec 0
  rw [Ne, ← UInt8.toBitVec_inj, hmask, Order.first]
  cases crc.toBitVec.getLsbD 0 <;> decide

theorem crc8Round_bits (crc : UInt8) :
    Order.lsb.bits (crc8Round crc).toBitVec = maxim.shift (Order.lsb.bits crc.toBitVec) := by
  have hround : (crc8Round crc).toBitVec = if Order.lsb.first crc.toBitVec then
      Order.lsb.drop crc.toBitVec ^^^ 0x8C#8 else Order.lsb.drop crc.toBitVec := by
    rw [crc8Round]
    by_cases hfirst : Order.lsb.first crc.toBitVec = true
    · rw [if_pos ((crc8Round_test crc).mpr hfirst), if_pos hfirst]
      rfl
    · rw [if_neg (mt (crc8Round_test crc).mp hfirst), if_neg hfirst]
      rfl
  exact (congrArg Order.lsb.bits hround).trans (maxim.shift_bits (o := .lsb) rfl _).symm

/-- The byte fills the register. -/
theorem crc8Byte_residue (crc d : UInt8) :
    maxim.residue (Order.lsb.bits (crc8Byte crc d).toBitVec) =
      AdjoinRoot.root maxim.poly ^ 8 * maxim.residue (Order.lsb.bits crc.toBitVec) +
      AdjoinRoot.root maxim.poly ^ 8 * maxim.residue (Order.lsb.bits d.toBitVec) := by
  have hrounds := maxim.residue_rounds (fun c : UInt8 => length_bits c.toBitVec) crc8Round_bits 8
    (crc ^^^ d)
  rw [crc8Byte, hrounds, UInt8.toBitVec_xor, bits_xor, maxim.residue_xor (by simp), mul_add]

theorem crc8Maxim_computes :
    maxim.Computes (fun crc : UInt8 => Order.lsb.bits crc.toBitVec) .lsb crc8Maxim :=
  Generator.Computes.of_foldl maxim (fun crc => length_bits crc.toBitVec)
    (fun _ _ h => UInt8.toBitVec_inj.mp (bits_injective h)) (by decide) crc8Byte_residue

/-- **`crc8_maxim` is the reflected remainder**: the reversed word is the remainder of the
message, lowest bits first and moved up by eight, modulo `x⁸ + x⁵ + x⁴ + 1`. -/
theorem crc8Maxim_remainder (data : List UInt8) :
    BitString.poly (Order.msb.bits (crc8Maxim data).toBitVec.reverse) =
        (BitString.poly (Order.lsb.bytes data) * X ^ 8) %ₘ (X ^ 8 + X ^ 5 + X ^ 4 + 1) ∧
      (BitString.poly (Order.msb.bits (crc8Maxim data).toBitVec.reverse)).degree < 8 := by
  rw [← maxim_poly, msb_bits_reverse]
  refine ⟨crc8Maxim_computes.poly_bits data, ?_⟩
  have hdeg := degree_poly_lt (Order.lsb.bits (crc8Maxim data).toBitVec)
  rwa [length_bits] at hdeg

example : crc8Maxim [0x31, 0x32, 0x33, 0x34, 0x35, 0x36, 0x37, 0x38, 0x39] = 0xA1 := by
  decide +kernel

/-! ### Residue and comparison -/

theorem crc8Maxim_append_eq_zero_iff (m : List UInt8) (b : UInt8) :
    crc8Maxim (m ++ [b]) = 0 ↔ b = crc8Maxim m :=
  crc8Maxim_computes.append_eq_zero_iff (by decide) (by simp [Order.bytes])

theorem crc16Xmodem_append_eq_zero_iff (m : List UInt8) (b0 b1 : UInt8) :
    crc16Xmodem (m ++ [b0, b1]) = 0 ↔ (b0.toUInt16 <<< 8) ||| b1.toUInt16 = crc16Xmodem m := by
  have hbits : Order.msb.bytes [b0, b1] =
      Order.msb.bits ((b0.toUInt16 <<< 8) ||| b1.toUInt16).toBitVec := by
    rw [toBitVec_be16, msb_bits_append]
    simp [Order.bytes]
  exact crc16Xmodem_computes.append_eq_zero_iff (by decide) hbits

/-- The complement of a sum is zero when what was added last is the complement of the rest. -/
theorem checksumInvertedSum_append_eq_zero_iff (m : List UInt8) (b : UInt8) :
    checksumInvertedSum (m ++ [b]) = 0 ↔ b = checksumInvertedSum m := by
  rw [checksumInvertedSum, checksumInvertedSum, List.foldl_append, List.foldl_cons, List.foldl_nil]
  simp only [UInt8.not_eq_neg_sub]
  grind

/-- A message and its `crc8_maxim` behind it. -/
def frame8 (m : List UInt8) : List UInt8 := m ++ [crc8Maxim m]

/-- A message and its `crc16_xmodem` behind it, in the bytes that `store_be16` writes. -/
def frame16 (m : List UInt8) : List UInt8 :=
  m ++ [(crc16Xmodem m >>> 8).toUInt8, (crc16Xmodem m).toUInt8]

theorem crc8Maxim_frame8 (m : List UInt8) : crc8Maxim (frame8 m) = 0 :=
  (crc8Maxim_append_eq_zero_iff m _).mpr rfl

theorem crc16Xmodem_frame16 (m : List UInt8) : crc16Xmodem (frame16 m) = 0 :=
  (crc16Xmodem_append_eq_zero_iff m _ _).mpr (be16_bytes (crc16Xmodem m))

theorem storeBe16_frame16 (m : List UInt8) (b0 b1 : UInt8) :
    storeBe16 (m ++ [b0, b1]) m.length (crc16Xmodem m) = some (frame16 m) := by
  simp [storeBe16, put, frame16]

/-- **Checking by residue is checking by comparison**, for all three checks: a message followed by
check bytes has the check zero when the bytes are the check of the message, those of
`crc16_xmodem` in big-endian order; and so a message verifies with its check stored behind it. -/
theorem residue_iff_comparison (m : List UInt8) :
    (∀ b, crc8Maxim (m ++ [b]) = 0 ↔ b = crc8Maxim m) ∧
    (∀ b0 b1, crc16Xmodem (m ++ [b0, b1]) = 0 ↔
      loadBe16 [b0, b1] 0 = some (crc16Xmodem m)) ∧
    (∀ b0 b1, (storeBe16 (m ++ [b0, b1]) m.length (crc16Xmodem m)).map crc16Xmodem = some 0) ∧
    ∀ b, checksumInvertedSum (m ++ [b]) = 0 ↔ b = checksumInvertedSum m := by
  refine ⟨crc8Maxim_append_eq_zero_iff m, fun b0 b1 => ?_, fun b0 b1 => ?_,
    checksumInvertedSum_append_eq_zero_iff m⟩
  · exact (crc16Xmodem_append_eq_zero_iff m b0 b1).trans Option.some_inj.symm
  · rw [storeBe16_frame16, Option.map_some, crc16Xmodem_frame16]

end Serialization

end XmSigma
