import Mathlib.Tactic.NormNum.Prime
import XmSigma.Serialization.CrcRemainder

/-!
# What the two CRCs detect

An error changes a CRC when its generator does not divide the error. So a burst within the width
of the register is detected, and an odd number of errors, since both generators have the root one;
and two errors are detected unless their distance is a multiple of the order of the variable,
32767 for `crc16_xmodem` and 127 for `crc8_maxim`.

## Main results

* `burst_detected`, `double_error_iff`, `odd_error_detected`
* `orderOf_xmodem`, `orderOf_maxim`: the orders of the variable
-/

namespace XmSigma

namespace Serialization

open Polynomial BitString

/-! ### Bursts -/

/-- The set bits of a byte string lie within `n` consecutive positions. -/
def Burst (o : Order) (n : ℕ) (e : List UInt8) : Prop :=
  ∃ k, ∀ i, (o.bytes e)[i]? = some true → k ≤ i ∧ i < k + n

/-- **Bursts are detected**: a nonzero error confined to sixteen bits changes `crc16_xmodem`, one
confined to eight bits, in the order of its register, `crc8_maxim`; and frames with such errors are
rejected. -/
theorem burst_detected {c e : List UInt8} (hlen : c.length = e.length) (hne : ∃ b ∈ e, b ≠ 0) :
    (Burst .msb 16 e → crc16Xmodem (xorBytes c e) ≠ crc16Xmodem c ∧
      ∀ m, c = frame16 m → crc16Xmodem (xorBytes c e) ≠ 0) ∧
    (Burst .lsb 8 e → crc8Maxim (xorBytes c e) ≠ crc8Maxim c ∧
      ∀ m, c = frame8 m → crc8Maxim (xorBytes c e) ≠ 0) := by
  constructor
  · rintro ⟨k, hburst⟩
    have hchange := crc16Xmodem_computes.burst hlen (true_mem_bytes.mpr hne) hburst
    refine ⟨hchange, ?_⟩
    rintro m rfl
    rwa [crc16Xmodem_frame16] at hchange
  · rintro ⟨k, hburst⟩
    have hchange := crc8Maxim_computes.burst hlen (true_mem_bytes.mpr hne) hburst
    refine ⟨hchange, ?_⟩
    rintro m rfl
    rwa [crc8Maxim_frame8] at hchange

/-- Two adjacent bits, on the two sides of a byte boundary. -/
theorem burst_detected_small :
    crc16Xmodem (xorBytes [1, 2, 3] [0, 1, 128]) ≠ crc16Xmodem [1, 2, 3] := by
  have hburst : Burst .msb 16 [0, 1, 128] := by
    have hall : ∀ i < 24, (Order.msb.bytes [0, 1, 128])[i]? = some true → 15 ≤ i ∧ i < 15 + 16 := by
      decide
    exact ⟨15, fun i hi => hall i (List.getElem?_eq_some_iff.mp hi).1 hi⟩
  exact ((burst_detected (c := [1, 2, 3]) (e := [0, 1, 128]) rfl
    ⟨1, by decide, by decide⟩).1 hburst).1

/-! ### Two errors -/

/-- A power of the variable is seen in a register by the binary digits of its exponent. -/
theorem xmodem_pow_ne_one {n : ℕ} (ds : List Bool) (hn : Generator.value ds = n)
    (hpow : xmodem.power ds ≠ xmodem.one) : AdjoinRoot.root xmodem.poly ^ n ≠ 1 := by
  rw [← hn]
  exact mt (xmodem.root_pow_eq_one_iff ds).mp hpow

/-- The variable has order `32767 = 7 * 31 * 151` modulo the generator of `crc16_xmodem`. -/
theorem orderOf_xmodem : orderOf (AdjoinRoot.root xmodem.poly) = 32767 := by
  have hone : AdjoinRoot.root xmodem.poly ^ 32767 = 1 :=
    (xmodem.root_pow_eq_one_iff (List.replicate 15 true)).mpr (by decide +kernel)
  refine orderOf_eq_of_pow_and_pow_div_prime (by decide) hone fun p hp hdvd => ?_
  have hprod : p ∣ 7 * 31 * 151 := hdvd
  rw [hp.dvd_mul, hp.dvd_mul, Nat.prime_dvd_prime_iff_eq hp (by norm_num),
    Nat.prime_dvd_prime_iff_eq hp (by norm_num),
    Nat.prime_dvd_prime_iff_eq hp (by norm_num)] at hprod
  obtain (rfl | rfl) | rfl := hprod
  · exact xmodem_pow_ne_one (Order.msb.bits 4681#13) (by decide +kernel) (by decide +kernel)
  · exact xmodem_pow_ne_one (Order.msb.bits 1057#11) (by decide +kernel) (by decide +kernel)
  · exact xmodem_pow_ne_one (Order.msb.bits 217#8) (by decide +kernel) (by decide +kernel)

/-- The variable has the prime order 127 modulo the generator of `crc8_maxim`. -/
theorem orderOf_maxim : orderOf (AdjoinRoot.root maxim.poly) = 127 := by
  have : Fact (Nat.Prime 127) := ⟨by norm_num⟩
  have hone : AdjoinRoot.root maxim.poly ^ 127 = 1 :=
    (maxim.root_pow_eq_one_iff (List.replicate 7 true)).mpr (by decide +kernel)
  have hne : AdjoinRoot.root maxim.poly ^ 1 ≠ 1 :=
    mt (maxim.root_pow_eq_one_iff [true]).mp (by decide +kernel)
  exact orderOf_eq_prime hone (by rwa [pow_one] at hne)

/-- **Two errors**, at distinct positions, go unnoticed when their distance is a multiple of the
order: so never in a frame of up to 4095 bytes under `crc16_xmodem`, or of up to 15 bytes under
`crc8_maxim`. -/
theorem double_error_iff {data : List UInt8} {i j : ℕ} (hi : i < 8 * data.length)
    (hj : j < 8 * data.length) (hne : i ≠ j) :
    (crc16Xmodem (Order.msb.flip i (Order.msb.flip j data)) = crc16Xmodem data ↔
      32767 ∣ i.dist j) ∧
    (crc8Maxim (Order.lsb.flip i (Order.lsb.flip j data)) = crc8Maxim data ↔ 127 ∣ i.dist j) ∧
    (data.length ≤ 4095 →
      crc16Xmodem (Order.msb.flip i (Order.msb.flip j data)) ≠ crc16Xmodem data) ∧
    (data.length ≤ 15 →
      crc8Maxim (Order.lsb.flip i (Order.lsb.flip j data)) ≠ crc8Maxim data) := by
  have h16 := crc16Xmodem_computes.flip_flip_iff hi hj
  have h8 := crc8Maxim_computes.flip_flip_iff hi hj
  rw [orderOf_xmodem] at h16
  rw [orderOf_maxim] at h8
  have hpos : 0 < i.dist j := Nat.dist_pos_of_ne hne
  have hlt : i.dist j < 8 * data.length := by
    rw [Nat.dist]
    omega
  refine ⟨h16, h8, fun hlen heq => ?_, fun hlen heq => ?_⟩
  · have hle := Nat.le_of_dvd hpos (h16.mp heq)
    omega
  · have hle := Nat.le_of_dvd hpos (h8.mp heq)
    omega

/-- In a frame of sixteen bytes the first bit and the last are at the distance 127. -/
theorem double_error_iff_small :
    crc8Maxim (Order.lsb.flip 0 (Order.lsb.flip 127 (List.replicate 16 0))) =
      crc8Maxim (List.replicate 16 0) :=
  (double_error_iff (show 0 < 8 * (List.replicate 16 (0 : UInt8)).length by decide)
    (show 127 < 8 * (List.replicate 16 (0 : UInt8)).length by decide)
    (by decide)).2.1.mpr (by decide)

/-! ### Odd numbers of errors -/

theorem xmodem_root : xmodem.poly.eval 1 = 0 := by
  rw [xmodem_poly]
  simp
  decide

theorem maxim_root : maxim.poly.eval 1 = 0 := by
  rw [maxim_poly]
  simp
  decide

/-- The ones of both checks have the parity of the ones of the message. -/
theorem crc_parity (data : List UInt8) :
    (Order.msb.bits (crc16Xmodem data).toBitVec).count true % 2 =
        (Order.msb.bytes data).count true % 2 ∧
      (Order.msb.bits (crc8Maxim data).toBitVec).count true % 2 =
        (Order.msb.bytes data).count true % 2 := by
  refine ⟨crc16Xmodem_computes.parity xmodem_root data, ?_⟩
  have hparity := crc8Maxim_computes.parity maxim_root data
  rwa [count_bits, count_bytes] at hparity

/-- **Odd numbers of errors** are detected, wherever they are; and the ones of both checks have the
parity of the ones of the message. -/
theorem odd_error_detected :
    (∀ c e : List UInt8, c.length = e.length → (Order.msb.bytes e).count true % 2 = 1 →
      crc16Xmodem (xorBytes c e) ≠ crc16Xmodem c ∧ crc8Maxim (xorBytes c e) ≠ crc8Maxim c) ∧
    ∀ data, (Order.msb.bits (crc16Xmodem data).toBitVec).count true % 2 =
        (Order.msb.bytes data).count true % 2 ∧
      (Order.msb.bits (crc8Maxim data).toBitVec).count true % 2 =
        (Order.msb.bytes data).count true % 2 := by
  refine ⟨fun c e hlen hodd => ?_, crc_parity⟩
  have hodd' : (Order.lsb.bytes e).count true % 2 = 1 := by rwa [count_bytes]
  exact ⟨crc16Xmodem_computes.odd xmodem_root hlen hodd,
    crc8Maxim_computes.odd maxim_root hlen hodd'⟩

theorem odd_error_detected_small : crc16Xmodem (xorBytes [1, 2] [0, 1]) ≠ crc16Xmodem [1, 2] :=
  (odd_error_detected.1 [1, 2] [0, 1] rfl (by decide)).1

end Serialization

end XmSigma
