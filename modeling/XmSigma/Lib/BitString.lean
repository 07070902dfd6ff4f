import Mathlib.Algebra.Field.ZMod
import Mathlib.Algebra.Polynomial.Degree.Operations
import Mathlib.Algebra.Polynomial.Eval.Degree

/-!
# Bit strings as polynomials over the field with two elements

A string of bits is read as a polynomial whose coefficients are the bits, the first bit being that
of the highest power. Appending shifts, exclusive or adds, and the value at one is the parity.

A word is a bit string in two ways, from its highest bit on or from its lowest.

## Main definitions

* `BitString.poly`: the polynomial of a bit string
* `BitString.xor`: exclusive or, bit by bit
* `BitString.msbFirst`, `BitString.lsbFirst`: the bits of a word

## Main results

* `poly_append`, `poly_xor`, `eval_one_poly`: what the operations on strings are on polynomials
* `coeff_poly`: the coefficients, from the last bit on
* `poly_inj`: strings of one length are told apart
* `exists_poly_of_count_two`: a string with two ones is the sum of two powers
-/

namespace XmSigma

namespace BitString

open Polynomial

variable {s t : List Bool} {w : ℕ}

/-! ### Polynomials -/

/-- A bit as a coefficient. -/
def coef (b : Bool) : ZMod 2 := if b then 1 else 0

theorem coef_xor (a b : Bool) : coef (a ^^ b) = coef a + coef b := by
  cases a <;> cases b <;> decide

theorem coef_injective : Function.Injective coef := by decide

/-- The polynomial of a bit string, first bit highest. -/
noncomputable def poly : List Bool → (ZMod 2)[X]
  | [] => 0
  | b :: s => C (coef b) * X ^ s.length + poly s

@[simp] theorem poly_nil : poly [] = 0 := rfl

theorem poly_append (s t : List Bool) : poly (s ++ t) = poly s * X ^ t.length + poly t := by
  induction s with
  | nil => simp
  | cons b s ih =>
    rw [List.cons_append, poly, poly, ih, List.length_append, pow_add, add_mul, mul_assoc,
      add_assoc]

theorem poly_concat (s : List Bool) (b : Bool) : poly (s ++ [b]) = poly s * X + C (coef b) := by
  rw [poly_append]
  simp [poly]

/-- The coefficients are the bits, from the last one on. -/
theorem coeff_poly (s : List Bool) (i : ℕ) :
    (poly s).coeff i = coef (s.reverse[i]?.getD false) := by
  induction s using List.reverseRecOn generalizing i with
  | nil => simp [coef]
  | append_singleton s b ih =>
    rw [poly_concat, List.reverse_append]
    cases i with
    | zero => simp
    | succ i => simp [ih]

theorem degree_poly_lt (s : List Bool) : (poly s).degree < s.length := by
  rw [degree_lt_iff_coeff_zero]
  intro i hi
  rw [coeff_poly, List.getElem?_eq_none (by simpa using hi)]
  rfl

/-- Strings of one length have different polynomials. -/
theorem poly_inj (h : s.length = t.length) : poly s = poly t ↔ s = t := by
  refine ⟨fun heq => ?_, fun heq => by rw [heq]⟩
  rw [← List.reverse_inj]
  refine List.ext_getElem (by simpa using h) fun i hs ht => ?_
  have hcoeff := congrArg (coeff · i) heq
  simp only [coeff_poly, List.getElem?_eq_getElem hs, List.getElem?_eq_getElem ht] at hcoeff
  exact coef_injective hcoeff

theorem poly_eq_zero_iff : poly s = 0 ↔ true ∉ s := by
  induction s with
  | nil => simp
  | cons b s ih =>
    cases b with
    | false => simp [poly, coef, ih]
    | true =>
      refine iff_of_false (fun h => ?_) (by simp)
      have hcoeff := congrArg (coeff · s.length) h
      rw [poly] at hcoeff
      have hlow := coeff_eq_zero_of_degree_lt (degree_poly_lt s)
      simp [coef, hlow] at hcoeff

/-- The value at one is the parity of the ones. -/
theorem eval_one_poly (s : List Bool) : (poly s).eval 1 = (s.count true : ZMod 2) := by
  induction s with
  | nil => simp
  | cons b s ih => cases b <;> simp [poly, coef, ih, add_comm]

/-! ### Exclusive or -/

/-- Exclusive or of two strings, bit by bit. -/
def xor (s t : List Bool) : List Bool := List.zipWith (· ^^ ·) s t

theorem length_xor (h : s.length = t.length) : (xor s t).length = s.length := by
  simp [xor, h]

theorem poly_xor (h : s.length = t.length) : poly (xor s t) = poly s + poly t := by
  induction s generalizing t with
  | nil =>
    have ht : t = [] := List.eq_nil_of_length_eq_zero h.symm
    simp [ht, xor]
  | cons a s ih =>
    cases t with
    | nil => cases h
    | cons b t =>
      have hlen : s.length = t.length := Nat.succ_inj.mp h
      have hih : poly (List.zipWith (· ^^ ·) s t) = poly s + poly t := ih hlen
      simp only [xor, List.zipWith_cons_cons, poly, hih, coef_xor, List.length_zipWith, ← hlen,
        Nat.min_self, C_add]
      ring

/-- An exclusive or can be taken back. -/
theorem xor_cancel (h : s.length = t.length) : xor (xor s t) s = t := by
  refine List.ext_getElem (by simp [xor, h]) fun i h₁ h₂ => ?_
  have hx : ∀ a b : Bool, ((a ^^ b) ^^ a) = b := by decide
  simp only [xor, List.getElem_zipWith]
  exact hx _ _

/-- Flipping one bit adds its power. -/
theorem poly_modify_not {i : ℕ} (hi : i < s.length) :
    poly (s.modify i (!·)) = poly s + X ^ (s.length - 1 - i) := by
  induction s generalizing i with
  | nil => cases hi
  | cons b s ih =>
    cases i with
    | zero =>
      have hnot : coef (!b) = coef b + 1 := by cases b <;> decide
      rw [List.modify_zero_cons, poly, poly, hnot, C_add, C_1, add_mul, one_mul]
      simp only [List.length_cons, Nat.add_sub_cancel, Nat.sub_zero]
      ring
    | succ i =>
      have hlen : (b :: s).length - 1 - (i + 1) = s.length - 1 - i := by
        rw [List.length_cons]
        omega
      rw [List.modify_succ_cons, poly, poly, ih (Nat.lt_of_succ_lt_succ hi), List.length_modify,
        hlen, add_assoc]

/-! ### Strings with few ones -/

theorem exists_poly_of_count_one (h : s.count true = 1) : ∃ a < s.length, poly s = X ^ a := by
  induction s with
  | nil => cases h
  | cons b s ih =>
    cases b with
    | false =>
      obtain ⟨a, ha, hpoly⟩ := ih (by simpa using h)
      exact ⟨a, Nat.lt_succ_of_lt ha, by simp [poly, coef, hpoly]⟩
    | true =>
      have hzero : poly s = 0 := poly_eq_zero_iff.mpr (List.count_eq_zero.mp (by simpa using h))
      exact ⟨s.length, Nat.lt_succ_self _, by simp [poly, coef, hzero]⟩

theorem exists_poly_of_count_two (h : s.count true = 2) :
    ∃ a b, a < b ∧ b < s.length ∧ poly s = X ^ a + X ^ b := by
  induction s with
  | nil => cases h
  | cons b s ih =>
    cases b with
    | false =>
      obtain ⟨a, b, hab, hb, hpoly⟩ := ih (by simpa using h)
      exact ⟨a, b, hab, Nat.lt_succ_of_lt hb, by simp [poly, coef, hpoly]⟩
    | true =>
      obtain ⟨a, ha, hpoly⟩ := exists_poly_of_count_one (s := s) (by simpa using h)
      exact ⟨a, s.length, ha, Nat.lt_succ_self _, by simp [poly, coef, hpoly, add_comm]⟩

/-- Flipping a zero makes one more one. -/
theorem count_modify_not {i : ℕ} (hi : s[i]? = some false) :
    (s.modify i (!·)).count true = s.count true + 1 := by
  induction s generalizing i with
  | nil => cases hi
  | cons b s ih =>
    cases i with
    | zero =>
      obtain rfl : b = false := by simpa using hi
      simp
    | succ i =>
      rw [List.modify_succ_cons, List.count_cons, List.count_cons, ih (by simpa using hi)]
      omega

/-! ### The bits of a word -/

/-- The bits of a word, highest first. -/
def msbFirst (v : BitVec w) : List Bool := List.ofFn fun i : Fin w => v.getMsbD i

/-- The bits of a word, lowest first. -/
def lsbFirst (v : BitVec w) : List Bool := List.ofFn fun i : Fin w => v.getLsbD i

/-- The order in which the bits of a word are sent. -/
inductive Order
  | msb
  | lsb

/-- The bits of a word, in order. -/
def Order.bits : Order → BitVec w → List Bool
  | .msb => msbFirst
  | .lsb => lsbFirst

variable {o : Order}

@[simp] theorem length_bits (v : BitVec w) : (o.bits v).length = w := by
  cases o <;> exact List.length_ofFn

theorem bits_injective : Function.Injective (o.bits : BitVec w → List Bool) := by
  intro v v' h
  cases o with
  | msb =>
    refine BitVec.eq_of_getMsbD_eq fun i hi => ?_
    simpa [Order.bits, msbFirst, hi] using congrArg (·[i]?) h
  | lsb =>
    refine BitVec.eq_of_getLsbD_eq fun i hi => ?_
    simpa [Order.bits, lsbFirst, hi] using congrArg (·[i]?) h

theorem bits_xor (v v' : BitVec w) : o.bits (v ^^^ v') = xor (o.bits v) (o.bits v') := by
  refine List.ext_getElem (by simp [xor]) fun i h₁ h₂ => ?_
  cases o <;> simp [Order.bits, msbFirst, lsbFirst, xor]

theorem msb_bits_append {m n : ℕ} (v : BitVec m) (v' : BitVec n) :
    Order.msb.bits (v ++ v') = Order.msb.bits v ++ Order.msb.bits v' := by
  refine List.ext_getElem (by simp) fun i h₁ h₂ => ?_
  simp only [Order.bits, msbFirst, List.getElem_ofFn, BitVec.getMsbD_append, List.getElem_append,
    List.length_ofFn]
  split <;> simp_all

/-- The bit of a word that comes first. -/
def Order.first : Order → BitVec w → Bool
  | .msb, v => v.getMsbD 0
  | .lsb, v => v.getLsbD 0

/-- The word without its first bit, which leaves a zero at the other end. -/
def Order.drop : Order → BitVec w → BitVec w
  | .msb, v => v <<< 1
  | .lsb, v => v >>> 1

theorem bits_drop {n : ℕ} (v : BitVec (n + 1)) :
    ∃ s, o.bits v = o.first v :: s ∧ o.bits (o.drop v) = s ++ [false] := by
  cases o with
  | msb =>
    refine ⟨List.ofFn fun i : Fin n => v.getMsbD (i + 1), ?_, ?_⟩
    · rw [Order.bits, msbFirst, List.ofFn_succ]
      rfl
    · rw [Order.bits, msbFirst, List.ofFn_succ_last]
      simp [Order.drop]
  | lsb =>
    refine ⟨List.ofFn fun i : Fin n => v.getLsbD (i + 1), ?_, ?_⟩
    · rw [Order.bits, lsbFirst, List.ofFn_succ]
      rfl
    · rw [Order.bits, lsbFirst, List.ofFn_succ_last]
      simp [Order.drop, Nat.add_comm 1]

/-- Lowest first is highest first on the reversed word. -/
theorem msb_bits_reverse (v : BitVec w) : Order.msb.bits v.reverse = Order.lsb.bits v := by
  refine List.ext_getElem (by simp) fun i h₁ h₂ => ?_
  simp [Order.bits, msbFirst, lsbFirst, BitVec.getMsbD_reverse]

theorem reverse_msb_bits (v : BitVec w) : (Order.msb.bits v).reverse = Order.lsb.bits v := by
  refine List.ext_getElem (by simp) fun i h₁ h₂ => ?_
  have hi : i < w := by simpa using h₂
  have hlow : w - 1 - (w - 1 - i) = i := by omega
  simp only [Order.bits, msbFirst, lsbFirst, List.getElem_reverse, List.length_ofFn,
    List.getElem_ofFn, BitVec.getMsbD_eq_getLsbD, hlow]
  rw [decide_eq_true (by omega), Bool.true_and]

/-- The number of ones does not depend on the order. -/
theorem count_bits (v : BitVec w) :
    (o.bits v).count true = (Order.msb.bits v).count true := by
  cases o with
  | msb => rfl
  | lsb => rw [← reverse_msb_bits, List.count_reverse]

theorem true_mem_bits {v : BitVec w} : true ∈ o.bits v ↔ v ≠ 0#w := by
  have hzero : o.bits 0#w = List.replicate w false := by
    cases o <;> simp [Order.bits, msbFirst, lsbFirst]
  rw [ne_eq, ← (bits_injective (o := o)).eq_iff, hzero, List.eq_replicate_iff]
  simp

/-! ### The bits of a byte string -/

/-- The bits of a byte string, first byte first. -/
def Order.bytes (o : Order) (data : List UInt8) : List Bool :=
  data.flatMap fun b => o.bits b.toBitVec

/-- The byte with a one at position `k` only. -/
def Order.mask : Order → ℕ → UInt8
  | .msb, k => 0x80 >>> UInt8.ofNat k
  | .lsb, k => 1 <<< UInt8.ofNat k

/-- Flip the bit at position `i` of a byte string. -/
def Order.flip (o : Order) (i : ℕ) (data : List UInt8) : List UInt8 :=
  data.modify (i / 8) (· ^^^ o.mask (i % 8))

/-- Exclusive or of two byte strings, byte by byte. -/
def xorBytes (data e : List UInt8) : List UInt8 := List.zipWith (· ^^^ ·) data e

theorem bytes_append (data e : List UInt8) : o.bytes (data ++ e) = o.bytes data ++ o.bytes e :=
  List.flatMap_append

@[simp] theorem length_bytes (data : List UInt8) : (o.bytes data).length = 8 * data.length := by
  induction data with
  | nil => rfl
  | cons b data ih =>
    rw [← List.singleton_append, bytes_append, List.length_append, ih]
    simp [Order.bytes]
    omega

/-- A byte string has a one among its bits when it has a byte other than zero. -/
theorem true_mem_bytes {data : List UInt8} : true ∈ o.bytes data ↔ ∃ b ∈ data, b ≠ 0 := by
  simp only [Order.bytes, List.mem_flatMap, true_mem_bits, ← UInt8.toBitVec_inj, ne_eq]
  rfl

theorem count_bytes (data : List UInt8) :
    (o.bytes data).count true = (Order.msb.bytes data).count true := by
  simp only [Order.bytes, List.count_flatMap, Function.comp_def, count_bits]

theorem bytes_xorBytes {data e : List UInt8} (h : data.length = e.length) :
    o.bytes (xorBytes data e) = xor (o.bytes data) (o.bytes e) := by
  induction data generalizing e with
  | nil => rfl
  | cons a data ih =>
    cases e with
    | nil => cases h
    | cons b e =>
      have hih := ih (Nat.succ_inj.mp h)
      have hlen : (o.bits a.toBitVec).length = (o.bits b.toBitVec).length := by simp
      simp only [Order.bytes, xorBytes, xor, List.zipWith_cons_cons, List.flatMap_cons] at hih ⊢
      rw [List.zipWith_append hlen, hih, UInt8.toBitVec_xor, bits_xor, xor]

/-- The bits of a mask are a single one. -/
theorem bits_mask {k : ℕ} (hk : k < 8) :
    o.bits (o.mask k).toBitVec = (List.replicate 8 false).modify k (!·) := by
  have hall : ∀ k : Fin 8, Order.msb.bits (Order.msb.mask k).toBitVec =
      (List.replicate 8 false).modify k (!·) ∧ Order.lsb.bits (Order.lsb.mask k).toBitVec =
      (List.replicate 8 false).modify k (!·) := by decide
  cases o with
  | msb => exact (hall ⟨k, hk⟩).1
  | lsb => exact (hall ⟨k, hk⟩).2

theorem xor_modify_replicate (s : List Bool) (k : ℕ) :
    xor s ((List.replicate s.length false).modify k (!·)) = s.modify k (!·) := by
  refine List.ext_getElem (by simp [xor]) fun i h₁ h₂ => ?_
  simp only [xor, List.getElem_zipWith, List.getElem_modify, List.getElem_replicate]
  split <;> simp

theorem modify_append (s t : List Bool) (f : Bool → Bool) (i : ℕ) :
    (s ++ t).modify i f =
      if i < s.length then s.modify i f ++ t else s ++ t.modify (i - s.length) f := by
  induction s generalizing i with
  | nil => simp
  | cons b s ih =>
    cases i with
    | zero => simp
    | succ i =>
      rw [List.cons_append, List.modify_succ_cons, ih]
      simp only [List.length_cons, Nat.succ_lt_succ_iff, Nat.add_sub_add_right]
      split <;> simp

/-- Flipping a bit of a byte string flips that bit of its bits. -/
theorem bytes_flip (data : List UInt8) (i : ℕ) :
    o.bytes (o.flip i data) = (o.bytes data).modify i (!·) := by
  induction data generalizing i with
  | nil => simp [Order.flip, Order.bytes]
  | cons b data ih =>
    have hcons : ∀ (b' : UInt8) (data' : List UInt8),
        o.bytes (b' :: data') = o.bits b'.toBitVec ++ o.bytes data' := fun _ _ => rfl
    rw [hcons, modify_append, length_bits]
    by_cases hi : i < 8
    · have hbyte := xor_modify_replicate (o.bits b.toBitVec) i
      rw [length_bits, ← bits_mask hi, ← bits_xor, ← UInt8.toBitVec_xor] at hbyte
      rw [if_pos hi, ← hbyte, Order.flip, Nat.div_eq_of_lt hi, Nat.mod_eq_of_lt hi,
        List.modify_zero_cons, hcons]
    · obtain ⟨n, rfl⟩ := Nat.exists_eq_add_of_le' (Nat.not_lt.mp hi)
      rw [if_neg hi, Nat.add_sub_cancel, ← ih, Order.flip, Order.flip,
        Nat.add_div_right n (by decide), Nat.add_mod_right, List.modify_succ_cons, hcons]

end BitString

end XmSigma
