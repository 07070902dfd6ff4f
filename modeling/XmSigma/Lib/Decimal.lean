import Mathlib.Data.Nat.Digits.Defs

/-!
# Decimal text

An integer as text: its decimal digits, highest first and without leading zeros, behind a minus
sign if it is negative. A reader of such texts takes leading zeros too.

## Main definitions

* `Decimal.ofNat`, `Decimal.ofInt`: the text of a number
* `Decimal.value`: the number that digits are
* `Decimal.toInt?`: the number that a text is

## Main results

* `Decimal.notMem_ofInt`: there is nothing but digits and the sign in it
* `Decimal.toInt?_ofInt`: the text of a number is read as that number
-/

namespace XmSigma

namespace Decimal

/-- `'0'`. -/
def zero : UInt8 := 48

/-- `'-'`. -/
def minus : UInt8 := 45

/-- The digits of a natural number. -/
def ofNat (n : ℕ) : List UInt8 :=
  if n = 0 then [zero] else ((Nat.digits 10 n).map fun d => zero + UInt8.ofNat d).reverse

/-- The digits of an integer, behind its sign. -/
def ofInt (v : ℤ) : List UInt8 := if v < 0 then minus :: ofNat v.natAbs else ofNat v.natAbs

theorem ofNat_ne_nil (n : ℕ) : ofNat n ≠ [] := by
  rw [ofNat]
  split
  · exact List.cons_ne_nil _ _
  · next hn => simpa using Nat.digits_ne_nil_iff_ne_zero.mpr hn

theorem ofInt_ne_nil (v : ℤ) : ofInt v ≠ [] := by
  rw [ofInt]
  split
  · exact List.cons_ne_nil _ _
  · exact ofNat_ne_nil _

theorem mem_ofNat {n : ℕ} {b : UInt8} (hb : b ∈ ofNat n) : ∃ d < 10, b = zero + UInt8.ofNat d := by
  rw [ofNat] at hb
  split at hb
  · exact ⟨0, by decide, List.mem_singleton.mp hb⟩
  · obtain ⟨d, hd, rfl⟩ := List.mem_map.mp (List.mem_reverse.mp hb)
    exact ⟨d, Nat.digits_lt_base (by decide) hd, rfl⟩

/-- A byte that is neither a digit nor the sign is not in the text. -/
theorem notMem_ofInt {b : UInt8} (hminus : b ≠ minus) (hdigit : ∀ d < 10, b ≠ zero + UInt8.ofNat d)
    (v : ℤ) : b ∉ ofInt v := by
  have hnat : b ∉ ofNat v.natAbs := fun hb => by
    obtain ⟨d, hd, heq⟩ := mem_ofNat hb
    exact hdigit d hd heq
  rw [ofInt]
  split
  · exact fun hb => (List.mem_cons.mp hb).elim hminus hnat
  · exact hnat

/-! ### Reading -/

/-- `'0'` to `'9'`. -/
def isDigit (b : UInt8) : Bool := decide (zero ≤ b ∧ b ≤ zero + 9)

/-- The number that a digit is. -/
def digit (b : UInt8) : ℕ := (b - zero).toNat

/-- The number that digits are, the highest one first. -/
def value (digits : List UInt8) : ℕ := Nat.ofDigits 10 (digits.reverse.map digit)

/-- Read a text of digits. -/
def toNat? (text : List UInt8) : Option ℕ :=
  if !text.isEmpty && text.all isDigit then some (value text) else none

/-- Read a text of digits that may have a minus sign in front. -/
def toInt? : List UInt8 → Option ℤ
  | [] => none
  | b :: text =>
    if b = minus then (toNat? text).map fun n : ℕ => -(n : ℤ)
    else (toNat? (b :: text)).map fun n : ℕ => (n : ℤ)

theorem isDigit_ofNat : ∀ d < 10, isDigit (zero + UInt8.ofNat d) := by decide

theorem digit_ofNat : ∀ d < 10, digit (zero + UInt8.ofNat d) = d := by decide

theorem isDigit_of_mem {n : ℕ} {b : UInt8} (hb : b ∈ ofNat n) : isDigit b := by
  obtain ⟨d, hd, rfl⟩ := mem_ofNat hb
  exact isDigit_ofNat d hd

theorem value_ofNat (n : ℕ) : value (ofNat n) = n := by
  rw [ofNat]
  split
  · next hn =>
    rw [hn]
    rfl
  · have hdigits : ((Nat.digits 10 n).map fun d => zero + UInt8.ofNat d).map digit =
        Nat.digits 10 n := by
      rw [List.map_map]
      refine (List.map_congr_left fun d hd => ?_).trans (List.map_id _)
      exact digit_ofNat d (Nat.digits_lt_base (by decide) hd)
    rw [value, List.reverse_reverse, hdigits, Nat.ofDigits_digits]

theorem toNat?_ofNat (n : ℕ) : toNat? (ofNat n) = some n := by
  have hdigits : (ofNat n).all isDigit := List.all_eq_true.mpr fun b => isDigit_of_mem
  rw [toNat?, if_pos (by simp [ofNat_ne_nil n, hdigits]), value_ofNat]

/-- **The text of a number is read as that number.** -/
theorem toInt?_ofInt (v : ℤ) : toInt? (ofInt v) = some v := by
  rw [ofInt]
  split
  · next hneg =>
    rw [toInt?, if_pos rfl, toNat?_ofNat, Option.map_some, Int.ofNat_natAbs_of_nonpos hneg.le,
      neg_neg]
  · next hnonneg =>
    cases htext : ofNat v.natAbs with
    | nil => exact absurd htext (ofNat_ne_nil _)
    | cons b text =>
      have hminus : b ≠ minus := by
        rintro rfl
        have hdigit : isDigit minus := isDigit_of_mem (htext ▸ List.mem_cons_self)
        exact absurd hdigit (by decide)
      rw [toInt?, if_neg hminus, ← htext, toNat?_ofNat, Option.map_some,
        Int.natAbs_of_nonneg (by omega)]

end Decimal

end XmSigma
