import Mathlib.Logic.Function.Iterate
import XmSigma.Lib.Crc

/-!
# Shift registers that compute checks

A register as wide as the generator is shifted once for each bit: it drops its first bit, takes in
a zero, and where the bit dropped was a one, the generator is taken off it. Modulo the generator
that is multiplication by the variable. A loop that takes in the bits of a string this way computes
its check.

The same shift, with squaring, computes the powers of the variable, and so its order.

## Main definitions

* `Generator.shift`: one shift
* `Generator.Computes`: a function whose values are the checks of its arguments
* `Generator.power`: a power of the variable, by squaring

## Main results

* `residue_shift`: a shift is multiplication by the variable
* `Computes.of_foldl`: a loop that takes in one byte after another computes the check
* `Computes.burst`, `Computes.flip_flip_iff`, `Computes.odd`, `Computes.few`: the errors that change
  it
* `Computes.patch_injective`: a register's width of bytes, anywhere, makes every check once
* `root_pow_eq_one_iff`: whether a power is one can be computed
-/

namespace XmSigma

open Polynomial BitString

namespace Generator

variable (g : Generator) {s t : List Bool}

/-- What a bit string is modulo the generator. -/
noncomputable def residue (s : List Bool) : AdjoinRoot g.poly :=
  AdjoinRoot.mk g.poly (BitString.poly s)

/-- A register tells the residues apart. -/
theorem residue_inj (hs : s.length = g.width) (ht : t.length = g.width) :
    g.residue s = g.residue t ↔ s = t := by
  refine ⟨fun h => ?_, fun h => by rw [h]⟩
  have hdvd : g.poly ∣ BitString.poly s - BitString.poly t := AdjoinRoot.mk_eq_mk.mp h
  have hdeg : (BitString.poly s - BitString.poly t).degree < g.poly.degree := by
    rw [g.degree_poly, ← hs]
    refine (degree_sub_le _ _).trans_lt (max_lt (degree_poly_lt s) ?_)
    rw [hs, ← ht]
    exact degree_poly_lt t
  have hzero : BitString.poly s - BitString.poly t = 0 := by
    by_contra hne
    exact g.monic.not_dvd_of_degree_lt hne hdeg hdvd
  exact (poly_inj (hs.trans ht.symm)).mp (sub_eq_zero.mp hzero)

/-! ### Shifts -/

/-- One shift of a register. -/
def shift : List Bool → List Bool
  | [] => []
  | b :: s => if b then xor (s ++ [false]) g.taps else s ++ [false]

theorem length_shift (hs : s.length = g.width) : (g.shift s).length = g.width := by
  cases s with
  | nil => exact hs
  | cons b s =>
    have hlen : (s ++ [false]).length = g.taps.length := by rw [List.length_append]; exact hs
    rw [shift]
    split
    · rw [length_xor hlen]
      exact hlen
    · exact hlen

/-- **A shift is multiplication by the variable.** -/
theorem residue_shift (hs : s.length = g.width) :
    g.residue (g.shift s) = AdjoinRoot.root g.poly * g.residue s := by
  cases s with
  | nil => simp [shift, residue]
  | cons b s =>
    have hlen : (s ++ [false]).length = g.taps.length := by rw [List.length_append]; exact hs
    have hwidth : g.width = s.length + 1 := hs.symm
    have hpoly : BitString.poly (s ++ [false]) = BitString.poly s * X := by
      rw [poly_concat]
      simp [coef]
    rw [← AdjoinRoot.mk_X, residue, residue, ← map_mul, AdjoinRoot.mk_eq_mk, shift]
    cases b with
    | false =>
      have hsame : BitString.poly (s ++ [false]) - X * BitString.poly (false :: s) = 0 := by
        rw [hpoly, BitString.poly]
        simp [coef]
        ring
      simp [hsame]
    | true =>
      have hcarry : BitString.poly (xor (s ++ [false]) g.taps) - X * BitString.poly (true :: s) =
          g.poly - (X ^ g.width + X ^ g.width) := by
        rw [poly_xor hlen, hpoly, BitString.poly, Generator.poly, hwidth]
        simp [coef]
        ring
      rw [if_pos rfl, hcarry, CharTwo.add_self_eq_zero, sub_zero]

/-! ### Words as registers -/

/-- A word that drops its first bit is shifted as a register. -/
theorem shift_bits {o : Order} {w : ℕ} {p : BitVec w} (hp : g.taps = o.bits p) (v : BitVec w) :
    g.shift (o.bits v) = o.bits (if o.first v then o.drop v ^^^ p else o.drop v) := by
  have hw : g.width = w := by rw [width, hp, length_bits]
  obtain ⟨n, rfl⟩ : ∃ n, w = n + 1 := ⟨w - 1, by have := g.width_pos; omega⟩
  obtain ⟨s, hv, hdrop⟩ := bits_drop (o := o) v
  rw [hv, shift, hp, ← hdrop, ← bits_xor]
  split <;> rfl

theorem residue_iterate_shift (hs : s.length = g.width) (n : ℕ) :
    g.residue (g.shift^[n] s) = AdjoinRoot.root g.poly ^ n * g.residue s := by
  induction n generalizing s with
  | zero => simp
  | succ n ih =>
    rw [Function.iterate_succ_apply, ih (g.length_shift hs), g.residue_shift hs, pow_succ,
      mul_assoc]

/-- Rounds that shift the register multiply by powers of the variable. -/
theorem residue_rounds {σ : Type*} {bits : σ → List Bool} {round : σ → σ}
    (hlen : ∀ c, (bits c).length = g.width) (hround : ∀ c, bits (round c) = g.shift (bits c))
    (n : ℕ) (c : σ) :
    g.residue (bits (round^[n] c)) = AdjoinRoot.root g.poly ^ n * g.residue (bits c) := by
  have hrounds : bits (round^[n] c) = g.shift^[n] (bits c) :=
    Function.Semiconj.iterate_right hround n c
  rw [hrounds, g.residue_iterate_shift (hlen c)]

/-! ### Functions that compute checks -/

/-- A function whose value, as a bit string, is the check of its argument, a byte string. -/
structure Computes {σ : Type*} (bits : σ → List Bool) (o : Order) (crc : List UInt8 → σ) :
    Prop where
  length_bits : ∀ c, (bits c).length = g.width
  bits_injective : Function.Injective bits
  poly_bits : ∀ data, BitString.poly (bits (crc data)) = g.check (o.bytes data)

/-- **Loops.** A loop computes the check if its rounds take in one byte each: they shift it into
the register behind what is there, and reduce. -/
theorem Computes.of_foldl {σ : Type*} {bits : σ → List Bool} {o : Order} {init : σ}
    {step : σ → UInt8 → σ} (hlen : ∀ c, (bits c).length = g.width)
    (hinj : Function.Injective bits) (hinit : true ∉ bits init)
    (hstep : ∀ c b, g.residue (bits (step c b)) = AdjoinRoot.root g.poly ^ 8 * g.residue (bits c) +
      AdjoinRoot.root g.poly ^ g.width * g.residue (o.bits b.toBitVec)) :
    g.Computes bits o (List.foldl step init) where
  length_bits := hlen
  bits_injective := hinj
  poly_bits data := by
    rw [g.eq_check_iff ((degree_poly_lt _).trans_eq (by rw [hlen]))]
    induction data using List.reverseRecOn with
    | nil =>
      rw [List.foldl_nil, poly_eq_zero_iff.mpr hinit]
      simp [Order.bytes]
    | append_singleton data b ih =>
      have hb : o.bytes [b] = o.bits b.toBitVec := by simp [Order.bytes]
      have hround := hstep (data.foldl step init) b
      simp only [residue] at hround
      rw [List.foldl_append, List.foldl_cons, List.foldl_nil, hround, ih, bytes_append, poly_append,
        hb, BitString.length_bits]
      simp only [map_mul, map_add, map_pow, AdjoinRoot.mk_X]
      ring

namespace Computes

variable {g} {σ : Type*} {bits : σ → List Bool} {o : Order} {crc : List UInt8 → σ}
  {data data' e : List UInt8}

theorem eq_iff_check (h : g.Computes bits o crc) :
    crc data = crc data' ↔ g.check (o.bytes data) = g.check (o.bytes data') := by
  rw [← h.poly_bits, ← h.poly_bits, poly_inj ((h.length_bits _).trans (h.length_bits _).symm),
    h.bits_injective.eq_iff]

/-- Two byte strings of one length have one check when the generator divides their exclusive or. -/
theorem eq_iff_dvd (h : g.Computes bits o crc) (hlen : data.length = data'.length) :
    crc data = crc data' ↔ g.poly ∣ BitString.poly (xor (o.bytes data) (o.bytes data')) := by
  have hlen' : (o.bytes data).length = (o.bytes data').length := by
    rw [length_bytes, length_bytes, hlen]
  rw [h.eq_iff_check, g.check_eq_iff hlen']

/-- Followed by check bytes, a byte string has the check zero when they are its check. -/
theorem append_eq_zero_iff (h : g.Computes bits o crc) {zero c : σ} (hzero : true ∉ bits zero)
    (hc : o.bytes e = bits c) : crc (data ++ e) = zero ↔ c = crc data := by
  have hlen : (bits c).length = g.width := h.length_bits c
  rw [← h.bits_injective.eq_iff,
    ← poly_inj ((h.length_bits (crc (data ++ e))).trans (h.length_bits zero).symm),
    poly_eq_zero_iff.mpr hzero, h.poly_bits, bytes_append, hc, g.check_append_eq_zero_iff _ hlen,
    ← h.poly_bits, poly_inj (hlen.trans (h.length_bits _).symm), h.bits_injective.eq_iff]

/-- The error of a byte string and what an error pattern made of it. -/
theorem eq_xorBytes_iff (h : g.Computes bits o crc) (hlen : data.length = e.length) :
    crc (xorBytes data e) = crc data ↔ g.poly ∣ BitString.poly (o.bytes e) := by
  have hlen' : (o.bytes data).length = (o.bytes e).length := by
    rw [length_bytes, length_bytes, hlen]
  rw [h.eq_iff_dvd (by simp [xorBytes, hlen]), bytes_xorBytes hlen, xor_cancel hlen']

/-- **Bursts** within the width of the generator change the check. -/
theorem burst (h : g.Computes bits o crc) (hlen : data.length = e.length)
    (hne : true ∈ o.bytes e) {k : ℕ}
    (hburst : ∀ i, (o.bytes e)[i]? = some true → k ≤ i ∧ i < k + g.width) :
    crc (xorBytes data e) ≠ crc data :=
  mt (h.eq_xorBytes_iff hlen).mp (g.not_dvd_of_burst hne hburst)

/-- **Double errors** change the check according to their distance. -/
theorem flip_flip_iff (h : g.Computes bits o crc) {i j : ℕ} (hi : i < 8 * data.length)
    (hj : j < 8 * data.length) :
    crc (o.flip i (o.flip j data)) = crc data ↔
      orderOf (AdjoinRoot.root g.poly) ∣ i.dist j := by
  have hbits : o.bytes (o.flip i (o.flip j data)) =
      ((o.bytes data).modify j (!·)).modify i (!·) := by
    rw [bytes_flip, bytes_flip]
  have hlen : (o.flip i (o.flip j data)).length = data.length := by simp [Order.flip]
  have herror : BitString.poly (xor (o.bytes (o.flip i (o.flip j data))) (o.bytes data)) =
      X ^ (8 * data.length - 1 - j) + X ^ (8 * data.length - 1 - i) := by
    rw [poly_xor (by rw [length_bytes, length_bytes, hlen]), hbits,
      poly_modify_not (by rwa [List.length_modify, length_bytes]),
      poly_modify_not (by rwa [length_bytes]), List.length_modify, length_bytes]
    linear_combination CharTwo.add_self_eq_zero (BitString.poly (o.bytes data))
  have hdist : (8 * data.length - 1 - j).dist (8 * data.length - 1 - i) = i.dist j := by
    simp only [Nat.dist]
    omega
  rw [h.eq_iff_dvd hlen, herror, g.dvd_X_pow_add_X_pow_iff, hdist]

/-- **Odd errors** change the check if the generator has the root one. -/
theorem odd (h : g.Computes bits o crc) (hroot : g.poly.eval 1 = 0)
    (hlen : data.length = e.length) (hodd : (o.bytes e).count true % 2 = 1) :
    crc (xorBytes data e) ≠ crc data := by
  intro heq
  have hzero : (BitString.poly (o.bytes e)).eval 1 = 0 :=
    eval_eq_zero_of_dvd_of_eval_eq_zero ((h.eq_xorBytes_iff hlen).mp heq) hroot
  rw [eval_one_poly, ZMod.natCast_eq_zero_iff_even] at hzero
  have heven := Nat.even_iff.mp hzero
  omega

/-- **Parity.** If the generator has the root one, the check has the parity of the message. -/
theorem parity (h : g.Computes bits o crc) (hroot : g.poly.eval 1 = 0) (data : List UInt8) :
    (bits (crc data)).count true % 2 = (o.bytes data).count true % 2 := by
  have heval := g.eval_one_check hroot (o.bytes data)
  rw [← h.poly_bits, eval_one_poly, eval_one_poly] at heval
  exact (ZMod.natCast_eq_natCast_iff' _ _ 2).mp heval

/-- **Few errors** change the check of a string that is not longer than the order of the
variable. -/
theorem few (h : g.Computes bits o crc) (hroot : g.poly.eval 1 = 0)
    (hlen : data.length = e.length) (hne : true ∈ o.bytes e) (hfew : (o.bytes e).count true < 4)
    (hshort : 8 * e.length ≤ orderOf (AdjoinRoot.root g.poly)) :
    crc (xorBytes data e) ≠ crc data :=
  mt (h.eq_xorBytes_iff hlen).mp (g.not_dvd_of_few hroot hne hfew (by rwa [length_bytes]))

/-- **Patches.** Bytes that fit into the register make a check of their own, whatever is before and
behind them. -/
theorem patch_injective (h : g.Computes bits o crc) (p s : List UInt8)
    (hlen : data.length = data'.length) (hfits : 8 * data.length ≤ g.width)
    (heq : crc (p ++ data ++ s) = crc (p ++ data' ++ s)) : o.bytes data = o.bytes data' := by
  have hbits : (o.bytes data).length = (o.bytes data').length := by
    rw [length_bytes, length_bytes, hlen]
  have hframe : (o.bytes (p ++ data ++ s)).length = (o.bytes (p ++ data' ++ s)).length := by
    simp only [length_bytes, List.length_append, hlen]
  have herror : BitString.poly (xor (o.bytes (p ++ data ++ s)) (o.bytes (p ++ data' ++ s))) =
      BitString.poly (xor (o.bytes data) (o.bytes data')) * X ^ (o.bytes s).length := by
    have htwo : (2 : (ZMod 2)[X]) = 0 := CharTwo.two_eq_zero
    rw [poly_xor hframe, poly_xor hbits]
    simp only [bytes_append, poly_append, hbits]
    linear_combination (BitString.poly (o.bytes p) * X ^ (o.bytes data').length *
      X ^ (o.bytes s).length + BitString.poly (o.bytes s)) * htwo
  rw [h.eq_iff_dvd (by simp [hlen]), herror, g.dvd_mul_X_pow_iff] at heq
  have hzero : BitString.poly (xor (o.bytes data) (o.bytes data')) = 0 := by
    by_contra hne
    refine g.monic.not_dvd_of_degree_lt hne ((degree_poly_lt _).trans_le ?_) heq
    rw [g.degree_poly, length_xor hbits, length_bytes]
    exact_mod_cast hfits
  rw [poly_xor hbits, ← CharTwo.sub_eq_add, sub_eq_zero] at hzero
  exact (poly_inj hbits).mp hzero

end Computes

/-! ### Powers of the variable -/

/-- The residue one. -/
def one : List Bool := List.replicate (g.width - 1) false ++ [true]

/-- The square of a residue: its bits are taken in one after another, with two shifts each. -/
def square (s : List Bool) : List Bool :=
  s.foldl (fun acc b => if b then xor (g.shift (g.shift acc)) g.one else g.shift (g.shift acc))
    (List.replicate g.width false)

/-- The number that binary digits stand for, highest first. -/
def value (ds : List Bool) : ℕ := ds.foldl (fun n d => 2 * n + d.toNat) 0

/-- The power of the variable whose exponent has the given binary digits. -/
def power (ds : List Bool) : List Bool :=
  ds.foldl (fun acc d => if d then g.shift (g.square acc) else g.square acc) g.one

theorem length_one : g.one.length = g.width := by
  have := g.width_pos
  simp [one]
  omega

theorem residue_one : g.residue g.one = 1 := by
  have hzero : BitString.poly (List.replicate (g.width - 1) false) = 0 := by
    rw [poly_eq_zero_iff]
    simp
  rw [residue, one, poly_append, hzero]
  simp [BitString.poly, coef]

theorem residue_xor (h : s.length = t.length) :
    g.residue (xor s t) = g.residue s + g.residue t := by
  rw [residue, poly_xor h, map_add]
  rfl

/-- **Squaring** is linear: in characteristic two the square of a sum is the sum of the squares. -/
theorem square_spec (s : List Bool) :
    (g.square s).length = g.width ∧ g.residue (g.square s) = g.residue s ^ 2 := by
  induction s using List.reverseRecOn with
  | nil =>
    have hzero : BitString.poly (List.replicate g.width false) = 0 := by
      rw [poly_eq_zero_iff]
      simp
    simp [square, residue, hzero]
  | append_singleton s b ih =>
    obtain ⟨hlen, hsquare⟩ := ih
    have htwo := g.length_shift (g.length_shift hlen)
    have hshift : g.residue (g.shift (g.shift (g.square s))) =
        AdjoinRoot.mk g.poly ((BitString.poly s * X) ^ 2) := by
      rw [g.residue_shift (g.length_shift hlen), g.residue_shift hlen, hsquare, residue, map_pow,
        map_mul, AdjoinRoot.mk_X]
      ring
    have hround : g.square (s ++ [b]) =
        if b then xor (g.shift (g.shift (g.square s))) g.one
        else g.shift (g.shift (g.square s)) := by
      rw [square, List.foldl_append]
      rfl
    have hsum : g.residue (s ++ [b]) ^ 2 =
        AdjoinRoot.mk g.poly ((BitString.poly s * X) ^ 2 + C (coef b) ^ 2) := by
      rw [residue, poly_concat, ← map_pow, CharTwo.add_sq]
    rw [hround, hsum]
    cases b with
    | false =>
      refine ⟨htwo, ?_⟩
      simp [hshift, coef]
    | true =>
      have hone := htwo.trans g.length_one.symm
      refine ⟨(length_xor hone).trans htwo, ?_⟩
      rw [if_pos rfl, g.residue_xor hone, hshift, residue_one, map_add]
      simp [coef]

theorem power_spec (ds : List Bool) :
    (g.power ds).length = g.width ∧ g.residue (g.power ds) = AdjoinRoot.root g.poly ^ value ds := by
  induction ds using List.reverseRecOn with
  | nil => exact ⟨g.length_one, g.residue_one.trans (pow_zero _).symm⟩
  | append_singleton ds d ih =>
    obtain ⟨hlen, hpower⟩ := g.square_spec (g.power ds)
    have hround : g.power (ds ++ [d]) =
        if d then g.shift (g.square (g.power ds)) else g.square (g.power ds) := by
      rw [power, List.foldl_append]
      rfl
    have hvalue : value (ds ++ [d]) = 2 * value ds + d.toNat := by
      rw [value, List.foldl_append]
      rfl
    rw [hround, hvalue, pow_add, pow_mul', ← ih.2, ← hpower]
    cases d with
    | false => exact ⟨hlen, (mul_one _).symm⟩
    | true =>
      refine ⟨g.length_shift hlen, ?_⟩
      rw [if_pos rfl, g.residue_shift hlen, Bool.toNat_true, pow_one, mul_comm]

/-- **Whether a power of the variable is one** is seen in a register. -/
theorem root_pow_eq_one_iff (ds : List Bool) :
    AdjoinRoot.root g.poly ^ value ds = 1 ↔ g.power ds = g.one := by
  obtain ⟨hlen, hpower⟩ := g.power_spec ds
  rw [← hpower, ← g.residue_one, g.residue_inj hlen g.length_one]

end Generator

end XmSigma
