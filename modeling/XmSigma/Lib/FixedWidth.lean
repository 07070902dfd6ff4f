import Mathlib.Algebra.Order.Ring.Nat
import Mathlib.Data.List.Lex
import Mathlib.Data.UInt
import Mathlib.Tactic.Tauto
import XmSigma.Lib.Decimal

/-!
# Fixed-width fields

Texts are compared byte by byte, and so do not sort as the numbers in them, unless these are written
with leading zeros to one width: then the first field that differs decides.

A template is a sequence of such fields with fixed text between them. Its instances sort as the
sequences of their numbers.

## Main definitions

* `FixedWidth.pad`: a number in so many decimal digits
* `FixedWidth.Item`, `FixedWidth.fill`: a template, and its text

## Main results

* `pad_lt_iff`, `fill_lt_iff`: texts sort as numbers
* `fill_inj`: and determine them
-/

namespace XmSigma

namespace FixedWidth

/-! ### Comparing texts -/

section
variable {α : Type*} [LT α] {a b s t : List α}

/-- The first of two parts decides, if it differs. -/
theorem append_lt_append_iff (h : a.length = b.length) :
    a ++ s < b ++ t ↔ a < b ∨ a = b ∧ s < t := by
  induction a generalizing b with
  | nil =>
    obtain rfl : b = [] := List.eq_nil_of_length_eq_zero h.symm
    simp
  | cons x a ih =>
    cases b with
    | nil => cases h
    | cons y b =>
      rw [List.cons_append, List.cons_append, List.cons_lt_cons_iff, List.cons_lt_cons_iff,
        ih (Nat.succ_inj.mp h), List.cons.injEq]
      tauto

variable [Std.Irrefl fun x y : α => x < y]

theorem append_left_lt_iff : a ++ s < a ++ t ↔ s < t := by
  rw [append_lt_append_iff rfl]
  simp

theorem append_right_lt_iff (h : a.length = b.length) : a ++ s < b ++ s ↔ a < b := by
  rw [append_lt_append_iff h]
  simp

end

/-! ### Numbers -/

/-- The last `w` decimal digits, with leading zeros. -/
def pad : ℕ → ℕ → List UInt8
  | 0, _ => []
  | w + 1, n => pad w (n / 10) ++ [Decimal.zero + UInt8.ofNat (n % 10)]

variable {w n m : ℕ}

@[simp] theorem length_pad (w n : ℕ) : (pad w n).length = w := by
  induction w generalizing n with
  | zero => rfl
  | succ w ih => rw [pad, List.length_append, ih, List.length_singleton]

theorem toNat_digit : ∀ d < 10, (Decimal.zero + UInt8.ofNat d).toNat = 48 + d := by decide

/-- Digits sort as numbers. -/
theorem digit_lt_iff {d e : ℕ} (hd : d < 10) (he : e < 10) :
    [Decimal.zero + UInt8.ofNat d] < [Decimal.zero + UInt8.ofNat e] ↔ d < e := by
  rw [List.cons_lt_cons_iff, UInt8.lt_iff_toNat_lt, toNat_digit d hd, toNat_digit e he]
  simp

theorem digit_inj {d e : ℕ} (hd : d < 10) (he : e < 10) :
    Decimal.zero + UInt8.ofNat d = Decimal.zero + UInt8.ofNat e ↔ d = e := by
  rw [← UInt8.toNat_inj, toNat_digit d hd, toNat_digit e he, Nat.add_left_cancel_iff]

theorem pad_inj (hn : n < 10 ^ w) (hm : m < 10 ^ w) : pad w n = pad w m ↔ n = m := by
  induction w generalizing n m with
  | zero =>
    obtain rfl : n = 0 := Nat.lt_one_iff.mp hn
    obtain rfl : m = 0 := Nat.lt_one_iff.mp hm
    exact iff_of_true rfl rfl
  | succ w ih =>
    rw [Nat.pow_succ] at hn hm
    rw [pad, pad, List.append_eq_append_iff_of_size_eq_left (by simp), ih (by omega) (by omega),
      List.singleton_inj, digit_inj (Nat.mod_lt _ (by decide)) (Nat.mod_lt _ (by decide))]
    omega

/-- **Padded numbers sort as numbers.** -/
theorem pad_lt_iff (hn : n < 10 ^ w) (hm : m < 10 ^ w) : pad w n < pad w m ↔ n < m := by
  induction w generalizing n m with
  | zero =>
    obtain rfl : n = 0 := Nat.lt_one_iff.mp hn
    obtain rfl : m = 0 := Nat.lt_one_iff.mp hm
    simp
  | succ w ih =>
    rw [Nat.pow_succ] at hn hm
    rw [pad, pad, append_lt_append_iff (by simp), ih (by omega) (by omega),
      pad_inj (by omega) (by omega),
      digit_lt_iff (Nat.mod_lt _ (by decide)) (Nat.mod_lt _ (by decide))]
    omega

/-- A number whose digits fill the width needs no zeros. -/
theorem pad_eq_ofNat (hle : 10 ^ w ≤ n) (hlt : n < 10 ^ (w + 1)) :
    pad (w + 1) n = Decimal.ofNat n := by
  induction w generalizing n with
  | zero =>
    have hpos : n ≠ 0 := by
      rintro rfl
      cases hle
    have hmod : n % 10 = n := Nat.mod_eq_of_lt hlt
    rw [Decimal.ofNat, if_neg hpos, Nat.digits_of_lt 10 n hpos hlt, pad, pad, hmod]
    rfl
  | succ w ih =>
    rw [Nat.pow_succ] at hle hlt
    have hten : 10 ≤ n := by
      have := Nat.one_le_pow w 10 (by decide)
      omega
    rw [pad, ih (by omega) (by omega), Decimal.ofNat, Decimal.ofNat, if_neg (by omega),
      if_neg (by omega), Nat.digits_def' (by decide) (show 0 < n by omega)]
    simp

/-! ### Templates -/

/-- A part of a template for values of type `τ`. -/
inductive Item (τ : Type*)
  | text (bytes : List UInt8)
  | number (w : ℕ) (f : τ → ℕ)

section
variable {τ : Type*} {x y : τ} {item : Item τ} {items : List (Item τ)}

/-- The text of one part. -/
def Item.fill : Item τ → τ → List UInt8
  | text bytes, _ => bytes
  | number w f, x => pad w (f x)

/-- The number of one part; fixed text has the same for all values. -/
def Item.key : Item τ → τ → ℕ
  | text _, _ => 0
  | number _ f, x => f x

/-- The number has room. -/
def Item.Fits : Item τ → τ → Prop
  | text _, _ => True
  | number w f, x => f x < 10 ^ w

/-- The text of a template. -/
def fill (items : List (Item τ)) (x : τ) : List UInt8 := items.flatMap fun item => item.fill x

/-- The numbers in it. -/
def keys (items : List (Item τ)) (x : τ) : List ℕ := items.map fun item => item.key x

theorem Item.length_fill (item : Item τ) (x y : τ) :
    (item.fill x).length = (item.fill y).length := by
  cases item with
  | text bytes => rfl
  | number w f => rw [fill, fill, length_pad, length_pad]

theorem Item.fill_inj (hx : item.Fits x) (hy : item.Fits y) :
    item.fill x = item.fill y ↔ item.key x = item.key y := by
  cases item with
  | text bytes => exact iff_of_true rfl rfl
  | number w f => exact pad_inj hx hy

theorem Item.fill_lt_iff (hx : item.Fits x) (hy : item.Fits y) :
    item.fill x < item.fill y ↔ item.key x < item.key y := by
  cases item with
  | text bytes => simp [fill, key]
  | number w f => exact pad_lt_iff hx hy

theorem length_fill (items : List (Item τ)) (x y : τ) :
    (fill items x).length = (fill items y).length := by
  simp only [fill, List.length_flatMap, fun item : Item τ => item.length_fill x y]

/-- **The text of a template determines its numbers.** -/
theorem fill_inj (hx : ∀ item ∈ items, item.Fits x) (hy : ∀ item ∈ items, item.Fits y) :
    fill items x = fill items y ↔ keys items x = keys items y := by
  induction items with
  | nil => exact iff_of_true rfl rfl
  | cons item items ih =>
    rw [List.forall_mem_cons] at hx hy
    rw [fill, fill, List.flatMap_cons, List.flatMap_cons,
      List.append_eq_append_iff_of_size_eq_left (item.length_fill x y), Item.fill_inj hx.1 hy.1,
      keys, keys, List.map_cons, List.map_cons, List.cons.injEq]
    exact and_congr_right' (ih hx.2 hy.2)

/-- **The texts of a template sort as its numbers.** -/
theorem fill_lt_iff (hx : ∀ item ∈ items, item.Fits x) (hy : ∀ item ∈ items, item.Fits y) :
    fill items x < fill items y ↔ keys items x < keys items y := by
  induction items with
  | nil => simp [fill, keys]
  | cons item items ih =>
    rw [List.forall_mem_cons] at hx hy
    rw [fill, fill, List.flatMap_cons, List.flatMap_cons,
      append_lt_append_iff (item.length_fill x y), Item.fill_lt_iff hx.1 hy.1,
      Item.fill_inj hx.1 hy.1, keys, keys, List.map_cons, List.map_cons, List.cons_lt_cons_iff]
    exact or_congr_right (and_congr_right' (ih hx.2 hy.2))

end

end FixedWidth

end XmSigma
