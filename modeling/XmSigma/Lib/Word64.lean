import Mathlib.Order.Interval.Finset.Nat
import Mathlib.Tactic.Ring

/-!
# Free-running 64-bit indices and power-of-two masks

A ring that masks its indices only on access keeps two counters that run freely through the
64-bit words and wrap. What such a ring relies on is collected here, with no ring in sight.

A counter is followed by the natural number of increments it has had: the word is
`UInt64.ofNat n`, wrapped or not, and every lemma below turns a comparison or a difference of two
words into the same statement about the two numbers behind them.

## Main definitions

* `Pow2Size`: a size that is a power of two, with its mask
* `Pow2Size.slot`: the slot of an index, by masking
* `signedDiff`: the difference of two words read as signed

## Main results

* `Pow2Size.slot_ofNat`: masking is the remainder, also across the wrap
* `Pow2Size.slot_inj`: two indices of one window in the same slot are equal
* `ofNat_inj_of_le`: words tell apart counts that are less than `2 ^ 64` steps apart
* `toInt_signedDiff`: the signed difference is the difference of the counts, as long as it fits
-/

namespace XmSigma

/-! ### Counts behind words -/

theorem toNat_ofNat_of_lt {n : ℕ} (h : n < 2 ^ 64) : (UInt64.ofNat n).toNat = n := by
  rw [UInt64.toNat_ofNat', Nat.mod_eq_of_lt h]

/-- Words tell apart two counts that are less than a full turn apart. -/
theorem ofNat_inj_of_le {m n : ℕ} (hle : m ≤ n) (hlt : n - m < 2 ^ 64) :
    UInt64.ofNat m = UInt64.ofNat n ↔ m = n := by
  refine ⟨fun h => ?_, fun h => by rw [h]⟩
  have hzero : UInt64.ofNat (n - m) = UInt64.ofNat 0 := by
    rw [UInt64.ofNat_sub hle, h, UInt64.sub_self]
    rfl
  have := congrArg UInt64.toNat hzero
  rw [toNat_ofNat_of_lt hlt, toNat_ofNat_of_lt (by norm_num)] at this
  omega

/-- The difference of two words is the number of steps between them. -/
theorem toNat_ofNat_sub {m n : ℕ} (hle : m ≤ n) (hlt : n - m < 2 ^ 64) :
    (UInt64.ofNat n - UInt64.ofNat m).toNat = n - m := by
  rw [← UInt64.ofNat_sub hle, toNat_ofNat_of_lt hlt]

theorem toNat_add_of_lt {a b : UInt64} (h : a.toNat + b.toNat < 2 ^ 64) :
    (a + b).toNat = a.toNat + b.toNat := by
  rw [UInt64.toNat_add, Nat.mod_eq_of_lt h]

theorem toNat_add_one {a : UInt64} (h : a.toNat < 2 ^ 63) : (a + 1).toNat = a.toNat + 1 :=
  toNat_add_of_lt (by change a.toNat + 1 < _; omega)

/-! ### Signed differences -/

/-- The difference of two words after both are read as signed, in two's complement. -/
def signedDiff (a b : UInt64) : Int64 := a.toInt64 - b.toInt64

/-- The signed difference of two words is the difference of the counts behind them, whether or
not the words wrapped in between, as long as it fits in 63 bits. -/
theorem toInt_signedDiff {a b : ℕ} (hlo : -2 ^ 63 ≤ (a : ℤ) - b) (hhi : (a : ℤ) - b < 2 ^ 63) :
    (signedDiff (UInt64.ofNat a) (UInt64.ofNat b)).toInt = (a : ℤ) - b := by
  rw [signedDiff, UInt64.toInt64_ofNat', UInt64.toInt64_ofNat', Int64.toInt_sub,
    Int64.toInt_ofNat', Int64.toInt_ofNat',
    show Int64.size = 2 ^ 64 from rfl, Int.bmod_sub_bmod, Int.sub_bmod_bmod]
  exact Int.bmod_eq_of_le (by omega) (by omega)

/-- The signed difference tells any two words apart. -/
theorem signedDiff_eq_zero_iff {a b : UInt64} : signedDiff a b = 0 ↔ a = b := by
  refine ⟨fun h => ?_, fun h => by rw [h, signedDiff, Int64.sub_self]⟩
  have hab := Int64.sub_add_cancel a.toInt64 b.toInt64
  rw [← signedDiff, h, Int64.zero_add] at hab
  exact (congrArg Int64.toUInt64 hab).symm

theorem signedDiff_neg_iff {a b : ℕ} (hlo : -2 ^ 63 ≤ (a : ℤ) - b) (hhi : (a : ℤ) - b < 2 ^ 63) :
    signedDiff (UInt64.ofNat a) (UInt64.ofNat b) < 0 ↔ a < b := by
  rw [Int64.lt_iff_toInt_lt, toInt_signedDiff hlo hhi, Int64.toInt_zero]
  omega

/-- Below `2 ^ 63` the sign of the difference compares the words. -/
theorem signedDiff_neg_iff_toNat_lt {a b : UInt64} (ha : a.toNat < 2 ^ 63)
    (hb : b.toNat < 2 ^ 63) : signedDiff a b < 0 ↔ a.toNat < b.toNat := by
  have h := signedDiff_neg_iff (a := a.toNat) (b := b.toNat) (by omega) (by omega)
  rwa [UInt64.ofNat_toNat, UInt64.ofNat_toNat] at h

/-! ### Power-of-two sizes -/

/-- A size that is a power of two and fits in a word. -/
structure Pow2Size where
  /-- The size as the word that holds it. -/
  size : UInt64
  /-- Its binary logarithm. -/
  log : ℕ
  log_lt : log < 64
  toNat_size : size.toNat = 2 ^ log

namespace Pow2Size

/-- The smallest size that is not a single cell. -/
def two : Pow2Size := ⟨2, 1, by decide, rfl⟩

/-- The word determines the logarithm. -/
theorem eq_of_size {z z' : Pow2Size} (h : z.size = z'.size) : z = z' := by
  have hlog : z.log = z'.log :=
    Nat.pow_right_injective le_rfl (z.toNat_size.symm.trans (h ▸ z'.toNat_size))
  cases z
  cases z'
  cases h
  cases hlog
  rfl

variable (z : Pow2Size)

/-- The mask that keeps an index below the size. -/
def mask : UInt64 := z.size - 1

/-- The slot of a free-running index. -/
def slot (i : UInt64) : ℕ := (i &&& z.mask).toNat

/-- The size as a number. -/
def card : ℕ := z.size.toNat

theorem card_eq : z.card = 2 ^ z.log := z.toNat_size

theorem card_pos : 0 < z.card := by
  rw [card_eq]
  exact Nat.two_pow_pos _

theorem card_le : z.card ≤ 2 ^ 63 := by
  rw [card_eq]
  exact Nat.pow_le_pow_right (by norm_num) (by have := z.log_lt; omega)

theorem card_dvd : z.card ∣ 2 ^ 64 := by
  rw [card_eq]
  exact pow_dvd_pow 2 z.log_lt.le

theorem ofNat_card : UInt64.ofNat z.card = z.size := UInt64.ofNat_toNat

theorem toNat_mask : z.mask.toNat = 2 ^ z.log - 1 := by
  have h1 : (1 : UInt64) ≤ z.size := by
    rw [UInt64.le_iff_toNat_le, z.toNat_size]
    exact Nat.two_pow_pos _
  rw [mask, UInt64.toNat_sub_of_le _ _ h1, z.toNat_size]
  rfl

theorem mask_add_one : z.mask + 1 = z.size := by rw [mask, UInt64.sub_add_cancel]

/-- Masking with the mask of a power of two is the remainder. -/
theorem toNat_and_mask (w : UInt64) : (w &&& z.mask).toNat = w.toNat % z.card := by
  rw [UInt64.toNat_and, toNat_mask, card_eq, Nat.and_two_pow_sub_one_eq_mod]

theorem slot_eq (i : UInt64) : z.slot i = i.toNat % z.card := z.toNat_and_mask i

/-- The test with which C++ code asks for a power of two. -/
theorem exists_iff (N : UInt64) : (∃ z : Pow2Size, z.size = N) ↔ N ≠ 0 ∧ N &&& (N - 1) = 0 := by
  have htest : N ≠ 0 ∧ N &&& (N - 1) = 0 ↔ N.toNat.isPowerOfTwo := by
    rw [← Nat.ne_zero_and_sub_one_eq_zero_iff_isPowerOfTwo, Ne, ← UInt64.toNat_inj]
    refine and_congr_right fun hne => ?_
    have hone : (1 : UInt64) ≤ N := UInt64.le_iff_toNat_le.mpr (Nat.one_le_iff_ne_zero.mpr hne)
    rw [← UInt64.toNat_inj, UInt64.toNat_and, UInt64.toNat_sub_of_le _ _ hone]
    rfl
  rw [htest]
  constructor
  · rintro ⟨z, rfl⟩
    exact ⟨z.log, z.toNat_size⟩
  · rintro ⟨k, hk⟩
    refine ⟨⟨N, k, ?_, hk⟩, rfl⟩
    by_contra hge
    have := Nat.pow_le_pow_right Nat.two_pos (Nat.not_lt.mp hge)
    have := N.toNat_lt
    omega

/-- Masking a counter is taking the remainder of its count: the size divides `2 ^ 64`, so the
wrap of the word does not show. -/
@[simp] theorem slot_ofNat (n : ℕ) : z.slot (UInt64.ofNat n) = n % z.card := by
  rw [slot_eq, UInt64.toNat_ofNat', Nat.mod_mod_of_dvd _ z.card_dvd]

theorem slot_lt (i : UInt64) : z.slot i < z.card := by
  rw [slot_eq]
  exact Nat.mod_lt _ z.card_pos

/-- Two masked indices agree exactly when the counts agree modulo the size. -/
theorem and_mask_eq_iff (a b : ℕ) :
    UInt64.ofNat a &&& z.mask = UInt64.ofNat b &&& z.mask ↔ a % z.card = b % z.card := by
  rw [← UInt64.toNat_inj]
  exact ⟨fun h => by simpa [slot] using (z.slot_ofNat a).symm.trans (h.trans (z.slot_ofNat b)),
    fun h => (z.slot_ofNat a).trans (h.trans (z.slot_ofNat b).symm)⟩

/-- Within one window no slot is used twice. -/
theorem slot_inj {lo a b : ℕ} (ha : lo ≤ a) (ha' : a < lo + z.card) (hb : lo ≤ b)
    (hb' : b < lo + z.card) (h : a % z.card = b % z.card) : a = b :=
  Nat.mod_injOn_Ico lo z.card (by simpa using ⟨ha, ha'⟩) (by simpa using ⟨hb, hb'⟩) h

end Pow2Size

end XmSigma
