import Mathlib.Data.FinEnum
import Mathlib.SetTheory.Cardinal.Finite
import Mathlib.Data.Fintype.BigOperators
import XmSigma.Lib.ShiftRegister

/-!
# Collisions of checks

Two byte strings collide if they have one check. How many collide with a given one, and in how many
bits they must differ, is a matter of two properties of the check: that bytes which fit into the
register make every check once, whatever is around them; and which errors the generator divides.

## Main definitions

* `BitString.distance`: in how many bits two byte strings differ
* `Collision`: two byte strings of one length that have one check
* `Patching`: so many bytes, put anywhere, make every check once

## Main results

* `Patching.card_errors`: how many errors go unnoticed
* `Generator.Computes.four_le`, `Generator.Computes.collision_of_order`: how far apart collisions
  are
-/

namespace XmSigma

namespace BitString

variable {o : Order} {s : List Bool} {c c' e : List UInt8}

/-! ### Differences of byte strings -/

/-- The number of bits in which two byte strings differ. -/
def distance (c c' : List UInt8) : ℕ := (Order.msb.bytes (xorBytes c c')).count true

theorem count_xorBytes (o : Order) (c c' : List UInt8) :
    (o.bytes (xorBytes c c')).count true = distance c c' := count_bytes _

theorem length_xorBytes (h : c.length = c'.length) : (xorBytes c c').length = c.length := by
  simp [xorBytes, h]

/-- A difference makes one byte string of the other. -/
theorem xorBytes_cancel (h : c.length = c'.length) : xorBytes c (xorBytes c c') = c' := by
  refine List.ext_getElem (by simp [xorBytes, h]) fun i h₁ h₂ => ?_
  simp only [xorBytes, List.getElem_zipWith, ← UInt8.xor_assoc, UInt8.xor_self, UInt8.zero_xor]

theorem distance_pos (h : c.length = c'.length) (hne : c ≠ c') : 0 < distance c c' := by
  rw [distance, List.count_pos_iff, true_mem_bytes]
  by_contra hall
  push Not at hall
  have hzero : xorBytes c c' = List.replicate c.length 0 :=
    List.eq_replicate_iff.mpr ⟨length_xorBytes h, hall⟩
  refine hne (Eq.trans ?_ (xorBytes_cancel h))
  rw [hzero]
  refine List.ext_getElem (by simp [xorBytes]) fun i h₁ h₂ => ?_
  simp [xorBytes]

theorem distance_self (c : List UInt8) : distance c c = 0 := by
  have hzero : xorBytes c c = List.replicate c.length 0 := by
    refine List.ext_getElem (by simp [xorBytes]) fun i h₁ h₂ => ?_
    simp [xorBytes]
  rw [distance, hzero, List.count_eq_zero, true_mem_bytes]
  simp

theorem bytes_injective : Function.Injective o.bytes := by
  intro c c' h
  have hlen : c.length = c'.length := by
    have := congrArg List.length h
    rw [length_bytes, length_bytes] at this
    omega
  induction c generalizing c' with
  | nil => exact (List.eq_nil_of_length_eq_zero hlen.symm).symm
  | cons b c ih =>
    cases c' with
    | nil => cases hlen
    | cons b' c' =>
      have happend : o.bits b.toBitVec ++ o.bytes c = o.bits b'.toBitVec ++ o.bytes c' := h
      obtain ⟨hb, hc⟩ := List.append_inj happend (by simp)
      rw [UInt8.toBitVec_inj.mp (bits_injective hb), ih hc (Nat.succ_inj.mp hlen)]

end BitString

open BitString

variable {σ : Type*} {crc : List UInt8 → σ} {n d k : ℕ}

/-- Two strings of `n` bytes differ in `d` bits, and have one check. -/
def Collision (crc : List UInt8 → σ) (n d : ℕ) : Prop :=
  ∃ c c' : List UInt8, c.length = n ∧ c'.length = n ∧ c ≠ c' ∧ crc c = crc c' ∧ distance c c' = d

/-! ### Patches -/

/-- Wherever `k` bytes are put, they make every check once. -/
def Patching (crc : List UInt8 → σ) (k : ℕ) : Prop :=
  ∀ p s v, ∃! w : List UInt8, w.length = k ∧ crc (p ++ w ++ s) = v

theorem card_bytes (n : ℕ) : Nat.card {m : List UInt8 // m.length = n} = 256 ^ n := by
  have hbyte : Fintype.card UInt8 = 256 := FinEnum.card_eq_fintypeCard.symm
  have hcard : Nat.card (List.Vector UInt8 n) = 256 ^ n := by
    rw [Nat.card_eq_fintype_card, card_vector, hbyte]
  exact hcard

namespace Patching

/-- What comes before the last bytes, and the check, tell all strings of one length apart. -/
theorem card_messages (h : Patching crc k) (n : ℕ) (v : σ) :
    Nat.card {m : List UInt8 // m.length = n + k ∧ crc m = v} = 256 ^ n := by
  rw [← card_bytes n]
  refine Nat.card_eq_of_bijective
    (fun m => ⟨m.1.take n, by rw [List.length_take, m.2.1]; omega⟩) ⟨?_, ?_⟩
  · rintro ⟨m, hm, hv⟩ ⟨m', hm', hv'⟩ heq
    have htake : m.take n = m'.take n := congrArg Subtype.val heq
    have hlast : m.drop n = m'.drop n := by
      refine (h (m.take n) [] v).unique ⟨?_, ?_⟩ ⟨?_, ?_⟩
      · rw [List.length_drop, hm, Nat.add_sub_cancel_left]
      · rwa [List.append_nil, List.take_append_drop]
      · rw [List.length_drop, hm', Nat.add_sub_cancel_left]
      · rwa [List.append_nil, htake, List.take_append_drop]
    have hsame : m = m' := by
      rw [← List.take_append_drop n m, htake, hlast, List.take_append_drop]
    exact Subtype.ext hsame
  · rintro ⟨p, rfl⟩
    obtain ⟨w, ⟨hw, hv⟩, -⟩ := h p [] v
    rw [List.append_nil] at hv
    exact ⟨⟨p ++ w, by rw [List.length_append, hw], hv⟩, Subtype.ext List.take_left⟩

/-- **How many errors go unnoticed**, the one that changes nothing among them. -/
theorem card_errors (h : Patching crc k) {c : List UInt8} (hc : c.length = n + k) :
    Nat.card {e : List UInt8 // e.length = n + k ∧ crc (xorBytes c e) = crc c} = 256 ^ n := by
  rw [← h.card_messages n (crc c)]
  have hlen {e : List UInt8} (he : e.length = n + k) : (xorBytes c e).length = n + k := by
    rw [length_xorBytes (hc.trans he.symm), hc]
  refine Nat.card_eq_of_bijective (fun e => ⟨xorBytes c e.1, hlen e.2.1, e.2.2⟩) ⟨?_, ?_⟩
  · rintro ⟨e, he, hv⟩ ⟨e', he', hv'⟩ heq
    have hxor : xorBytes c e = xorBytes c e' := congrArg Subtype.val heq
    have hsame : e = e' := by
      rw [← xorBytes_cancel (hc.trans he.symm), hxor, xorBytes_cancel (hc.trans he'.symm)]
    exact Subtype.ext hsame
  · rintro ⟨m, hm, hv⟩
    have hback := xorBytes_cancel (hc.trans hm.symm)
    exact ⟨⟨xorBytes c m, hlen hm, by rw [hback, hv]⟩, Subtype.ext hback⟩

end Patching

/-! ### Collisions -/

namespace Generator.Computes

variable {g : Generator} {bits : σ → List Bool} {o : Order}

/-- As many bytes as the register has. -/
theorem patching [Finite σ] (h : g.Computes bits o crc) (hk : 8 * k = g.width)
    (hcard : Nat.card σ ≤ 256 ^ k) : Patching crc k := by
  intro p s v
  let f (w : {w : List UInt8 // w.length = k}) : σ := crc (p ++ w.1 ++ s)
  have hinj : Function.Injective f := fun w w' heq =>
    Subtype.ext (bytes_injective (h.patch_injective p s (w.2.trans w'.2.symm)
      (by rw [w.2, hk]) heq))
  have hbij := hinj.bijective_of_nat_card_le (hcard.trans_eq (card_bytes k).symm)
  obtain ⟨⟨w, hw⟩, hv, hunique⟩ := hbij.existsUnique v
  exact ⟨w, ⟨hw, hv⟩, fun w' ⟨hw', hv'⟩ => congrArg Subtype.val (hunique ⟨w', hw'⟩ hv')⟩

/-- Strings that fit into the register have checks of their own. -/
theorem not_collision (h : g.Computes bits o crc) (hn : 8 * n ≤ g.width) : ¬ Collision crc n d := by
  rintro ⟨c, c', hc, hc', hne, heq, -⟩
  refine hne (bytes_injective (h.patch_injective [] [] (hc.trans hc'.symm) (by rwa [hc]) ?_))
  rwa [List.nil_append, List.append_nil, List.nil_append, List.append_nil]

/-- Under a generator with the root one, no single bit makes the difference. -/
theorem two_le (h : g.Computes bits o crc) (hroot : g.poly.eval 1 = 0)
    (hcol : Collision crc n d) : 2 ≤ d := by
  obtain ⟨c, c', hc, hc', hne, heq, rfl⟩ := hcol
  have hlen := hc.trans hc'.symm
  have hpos := distance_pos hlen hne
  have hodd := h.odd hroot (length_xorBytes hlen).symm
  rw [xorBytes_cancel hlen, count_xorBytes] at hodd
  by_contra hlt
  exact hodd (by omega) heq.symm

/-- And in strings no longer than the order of the variable, no three bits. -/
theorem four_le (h : g.Computes bits o crc) (hroot : g.poly.eval 1 = 0)
    (hn : 8 * n ≤ orderOf (AdjoinRoot.root g.poly)) (hcol : Collision crc n d) : 4 ≤ d := by
  obtain ⟨c, c', hc, hc', hne, heq, rfl⟩ := hcol
  have hlen := hc.trans hc'.symm
  have hpos := distance_pos hlen hne
  have hfew := h.few hroot (length_xorBytes hlen).symm
  rw [xorBytes_cancel hlen, ← List.count_pos_iff, count_xorBytes, length_xorBytes hlen, hc] at hfew
  by_contra hlt
  exact hfew hpos (by omega) hn heq.symm

/-- In longer ones, two bits at the distance of the order do. -/
theorem collision_of_order (h : g.Computes bits o crc)
    (hpos : 0 < orderOf (AdjoinRoot.root g.poly))
    (hn : orderOf (AdjoinRoot.root g.poly) < 8 * n) : Collision crc n 2 := by
  set j := orderOf (AdjoinRoot.root g.poly) with hj
  set c : List UInt8 := List.replicate n 0 with hc
  have hlen : c.length = n := List.length_replicate
  have hflip : (o.flip 0 (o.flip j c)).length = n := by simp [Order.flip, hlen]
  have hzeros : o.bytes c = List.replicate (8 * n) false := by
    refine List.eq_replicate_iff.mpr ⟨by rw [length_bytes, hlen], fun b hb => ?_⟩
    have hnone : true ∉ o.bytes c := by
      rw [true_mem_bytes]
      simp [hc]
    cases b with
    | false => rfl
    | true => exact absurd hb hnone
  have hxor (s : List Bool) (hs : s.length = 8 * n) :
      BitString.xor (List.replicate (8 * n) false) s = s := by
    refine List.ext_getElem (by simp [BitString.xor, hs]) fun i h₁ h₂ => ?_
    simp [BitString.xor]
  have hdist : distance c (o.flip 0 (o.flip j c)) = 2 := by
    rw [← count_xorBytes o, bytes_xorBytes (hlen.trans hflip.symm), bytes_flip, bytes_flip, hzeros,
      hxor _ (by simp), count_modify_not, count_modify_not, List.count_replicate]
    · rfl
    · rw [List.getElem?_replicate, if_pos hn]
    · simp [hpos.ne', hpos.trans hn]
  refine ⟨c, _, hlen, hflip, fun heq => ?_, ?_, hdist⟩
  · rw [← heq, distance_self] at hdist
    cases hdist
  · refine ((h.flip_flip_iff (by rw [hlen]; omega) (by rwa [hlen])).mpr ?_).symm
    rw [← hj, Nat.dist_eq_sub_of_le j.zero_le, Nat.sub_zero]

end Generator.Computes

end XmSigma
