import Mathlib.Data.Nat.Dist
import Mathlib.GroupTheory.OrderOfElement
import Mathlib.RingTheory.AdjoinRoot
import XmSigma.Lib.BitString

/-!
# Cyclic redundancy checks

A generator is a polynomial over the field with two elements whose highest and lowest coefficients
are one. The check of a bit string is the remainder of its polynomial, moved up by the width of
the generator, modulo the generator. What a check detects is a matter of the generator only: it is
said here for bit strings, with no register and no loop in sight.

The powers of the variable are units modulo the generator, which is why neither the move nor what
follows an error matters.

## Main definitions

* `Generator`: a generator, by its coefficients below the highest
* `Generator.check`: the check of a bit string

## Main results

* `check_append_eq_zero_iff`: a string followed by its own check has check zero, by no other one
* `check_eq_iff`: two strings of one length have one check when the generator divides the error
* `not_dvd_of_burst`: it divides no error confined to its width
* `dvd_X_pow_add_X_pow_iff`: it divides an error of two bits according to their distance
* `eval_one_check`: the parity of a check
* `not_dvd_of_few`: it divides no error of less than four bits
-/

namespace XmSigma

open Polynomial BitString

/-- A generator polynomial. -/
structure Generator where
  /-- The coefficients below the highest one, from the highest of them on. -/
  taps : List Bool
  getLast_taps : taps.getLast? = some true

namespace Generator

variable (g : Generator) {s t : List Bool}

/-- The degree of the generator. -/
def width : ℕ := g.taps.length

/-- The generator as a polynomial, its leading term included. -/
noncomputable def poly : (ZMod 2)[X] := X ^ g.width + BitString.poly g.taps

theorem degree_taps_lt : (BitString.poly g.taps).degree < g.width := degree_poly_lt g.taps

theorem monic : g.poly.Monic := monic_X_pow_add g.degree_taps_lt

theorem degree_poly : g.poly.degree = g.width := by
  rw [poly, degree_add_eq_left_of_degree_lt (by rw [degree_X_pow]; exact g.degree_taps_lt),
    degree_X_pow]

theorem width_pos : 0 < g.width := by
  have hlast := g.getLast_taps
  rw [width, List.length_pos_iff]
  rintro hnil
  rw [hnil] at hlast
  cases hlast

theorem coeff_zero : g.poly.coeff 0 = 1 := by
  have hne := g.width_pos.ne'
  have hhead : g.taps.reverse[0]? = some true := by
    rw [← List.head?_eq_getElem?, List.head?_reverse, g.getLast_taps]
  rw [poly, coeff_add, coeff_poly, coeff_X_pow, if_neg hne.symm, hhead]
  rfl

theorem isCoprime_X_pow (n : ℕ) : IsCoprime g.poly (X ^ n) := by
  refine IsCoprime.pow_right ⟨1, -g.poly.divX, ?_⟩
  have hsplit := X_mul_divX_add g.poly
  rw [g.coeff_zero, C_1] at hsplit
  linear_combination -hsplit

/-- A factor that is a power of the variable does not matter. -/
theorem dvd_mul_X_pow_iff {p : (ZMod 2)[X]} (n : ℕ) : g.poly ∣ p * X ^ n ↔ g.poly ∣ p :=
  ⟨(g.isCoprime_X_pow n).dvd_of_dvd_mul_right, fun h => h.mul_right _⟩

/-! ### Checks -/

/-- The check of a bit string. -/
noncomputable def check (s : List Bool) : (ZMod 2)[X] :=
  (BitString.poly s * X ^ g.width) %ₘ g.poly

theorem degree_check_lt (s : List Bool) : (g.check s).degree < g.width := by
  rw [← g.degree_poly]
  exact degree_modByMonic_lt _ g.monic

/-- A polynomial below the degree is the check exactly when it is congruent. -/
theorem eq_check_iff {p : (ZMod 2)[X]} (hp : p.degree < g.width) (s : List Bool) :
    p = g.check s ↔
      AdjoinRoot.mk g.poly p = AdjoinRoot.mk g.poly (BitString.poly s * X ^ g.width) := by
  rw [AdjoinRoot.mk_eq_mk, check]
  constructor
  · rintro rfl
    exact dvd_modByMonic_sub _ _
  · intro h
    have hself : p %ₘ g.poly = p := (modByMonic_eq_self_iff g.monic).mpr (by rwa [g.degree_poly])
    rw [← hself]
    exact modByMonic_eq_of_dvd_sub g.monic h

theorem mk_check (s : List Bool) :
    AdjoinRoot.mk g.poly (g.check s) =
      AdjoinRoot.mk g.poly (BitString.poly s * X ^ g.width) :=
  (g.eq_check_iff (g.degree_check_lt s) s).mp rfl

theorem check_eq_zero_iff : g.check s = 0 ↔ g.poly ∣ BitString.poly s := by
  rw [check, modByMonic_eq_zero_iff_dvd g.monic, g.dvd_mul_X_pow_iff]

/-- **Residue.** A string followed by check bits has check zero when they are its check. -/
theorem check_append_eq_zero_iff (s : List Bool) {r : List Bool} (hr : r.length = g.width) :
    g.check (s ++ r) = 0 ↔ BitString.poly r = g.check s := by
  rw [check_eq_zero_iff, poly_append, hr,
    g.eq_check_iff ((degree_poly_lt r).trans_eq (by rw [hr])), AdjoinRoot.mk_eq_mk,
    ← CharTwo.sub_eq_add, dvd_sub_comm]

/-- **Error.** Two strings of one length have one check when the generator divides their exclusive
or. -/
theorem check_eq_iff (h : s.length = t.length) :
    g.check s = g.check t ↔ g.poly ∣ BitString.poly (xor s t) := by
  rw [g.eq_check_iff (g.degree_check_lt s), mk_check, AdjoinRoot.mk_eq_mk, ← sub_mul,
    g.dvd_mul_X_pow_iff, poly_xor h, CharTwo.sub_eq_add]

/-! ### Errors -/

/-- **Bursts.** An error confined to as many positions as the generator is wide is no multiple of
it. -/
theorem not_dvd_of_burst (hne : true ∈ s) {k : ℕ}
    (hburst : ∀ i, s[i]? = some true → k ≤ i ∧ i < k + g.width) : ¬ g.poly ∣ BitString.poly s := by
  set burst := (s.drop k).take g.width with hdef
  set after := (s.drop k).drop g.width with hafter
  have hsplit : s = s.take k ++ (burst ++ after) := by
    rw [List.take_append_drop, List.take_append_drop]
  have hfront : BitString.poly (s.take k) = 0 := by
    rw [poly_eq_zero_iff, List.mem_iff_getElem?]
    rintro ⟨i, hi⟩
    rw [List.getElem?_take] at hi
    split at hi
    · have := (hburst i hi).1
      omega
    · cases hi
  have hback : BitString.poly after = 0 := by
    rw [poly_eq_zero_iff, List.mem_iff_getElem?]
    rintro ⟨i, hi⟩
    rw [hafter, List.getElem?_drop, List.getElem?_drop] at hi
    have := (hburst _ hi).2
    omega
  have hpoly : BitString.poly s = BitString.poly burst * X ^ after.length := by
    rw [hsplit, poly_append, poly_append, hfront, hback, zero_mul, zero_add, add_zero]
  have hburst_ne : BitString.poly burst ≠ 0 := by
    intro hzero
    rw [hzero, zero_mul, poly_eq_zero_iff] at hpoly
    exact hpoly hne
  rw [hpoly, g.dvd_mul_X_pow_iff]
  refine g.monic.not_dvd_of_degree_lt hburst_ne ((degree_poly_lt burst).trans_le ?_)
  rw [g.degree_poly]
  exact_mod_cast List.length_take_le _ _

/-- **Double errors.** -/
theorem dvd_X_pow_add_X_pow_iff (a b : ℕ) :
    g.poly ∣ X ^ a + X ^ b ↔ orderOf (AdjoinRoot.root g.poly) ∣ a.dist b := by
  have hone : ∀ n, AdjoinRoot.root g.poly ^ n = 1 ↔ g.poly ∣ X ^ n - 1 := fun n => by
    rw [← AdjoinRoot.mk_eq_mk, map_pow, map_one, AdjoinRoot.mk_X]
  wlog hab : a ≤ b generalizing a b
  · rw [add_comm, Nat.dist_comm]
    exact this b a (Nat.le_of_not_le hab)
  obtain ⟨n, rfl⟩ := Nat.exists_eq_add_of_le hab
  have hfactor : (X ^ a + X ^ (a + n) : (ZMod 2)[X]) = (X ^ n - 1) * X ^ a := by
    rw [CharTwo.sub_eq_add, pow_add]
    ring
  rw [hfactor, g.dvd_mul_X_pow_iff, Nat.dist_eq_sub_of_le hab, Nat.add_sub_cancel_left,
    orderOf_dvd_iff_pow_eq_one, hone]

/-- **Parity.** If the generator has the root one, a check has the parity of its string. -/
theorem eval_one_check (h : g.poly.eval 1 = 0) (s : List Bool) :
    (g.check s).eval 1 = (BitString.poly s).eval 1 := by
  rw [check, modByMonic_eq_sub_mul_div, eval_sub, eval_mul, eval_mul, h]
  simp

/-- **Few errors.** If the generator has the root one, it divides no error of less than four bits in
a string that is not longer than the order of the variable. -/
theorem not_dvd_of_few (h : g.poly.eval 1 = 0) (hne : true ∈ s) (hfew : s.count true < 4)
    (hlen : s.length ≤ orderOf (AdjoinRoot.root g.poly)) : ¬ g.poly ∣ BitString.poly s := by
  intro hdvd
  have hpos : 0 < s.count true := List.count_pos_iff.mpr hne
  have heven : Even (s.count true) := by
    have heval := eval_eq_zero_of_dvd_of_eval_eq_zero hdvd h
    rwa [eval_one_poly, ZMod.natCast_eq_zero_iff_even] at heval
  have htwo : s.count true = 2 := by
    have := Nat.even_iff.mp heven
    omega
  obtain ⟨a, b, hab, hb, hpoly⟩ := exists_poly_of_count_two htwo
  rw [hpoly, g.dvd_X_pow_add_X_pow_iff, Nat.dist_eq_sub_of_le hab.le] at hdvd
  have hle := Nat.le_of_dvd (Nat.sub_pos_of_lt hab) hdvd
  omega

end Generator

end XmSigma
