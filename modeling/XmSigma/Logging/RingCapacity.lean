import XmSigma.Lib.Word64

/-!
# Rounding the ring capacity

Both hard-real-time loggers round the requested capacity up to a power of two with the same loop,
`while (cap < ring_capacity) cap <<= 1`, on a `size_t` that wraps. The loop is written with fuel;
`roundCapacity` gives it one test for every power of two a word can hold, which is all the loop
can use: after the last of them the capacity has been shifted out.

From then on it is zero, and a request above the last power of two is never reached. A request that
is not rounded is one for which the loop does not end.

## Main definitions

* `RingSizes`, `roundUp`: `capacity_` and `mask_`, as both constructors compute them
* `Rounds`: the loop ends, with the least power of two, whose mask takes remainders

## Main results

* `Built.two_le_card_iff`: the rounded capacity is at least two exactly when the requested one is
* `rounds_iff`: the constructors round up exactly the requests up to the last power of two
-/

namespace XmSigma

/-- The loop of the constructors, cut off after `fuel` tests. -/
def growCapacity (ring_capacity : UInt64) : ℕ → UInt64 → Option UInt64
  | 0, _ => none
  | fuel + 1, cap =>
    if cap < ring_capacity then growCapacity ring_capacity fuel (cap <<< 1) else some cap

/-- `capacity_`, as the constructors compute it. -/
def roundCapacity (ring_capacity : UInt64) : Option UInt64 := growCapacity ring_capacity 64 1

/-- The constructor, asked for `ring_capacity`, leaves `capacity_ = z.size`. -/
def Built (ring_capacity : UInt64) (z : Pow2Size) : Prop :=
  roundCapacity ring_capacity = some z.size

/-- Shifting a power of two that is not the last one gives the next. -/
theorem toNat_shiftLeft_one {cap : UInt64} {j : ℕ} (hcap : cap.toNat = 2 ^ j) (hj : j + 1 < 64) :
    (cap <<< 1).toNat = 2 ^ (j + 1) := by
  have hlt : 2 ^ (j + 1) < 2 ^ 64 := Nat.pow_lt_pow_right (by norm_num) hj
  rw [UInt64.toNat_shiftLeft, hcap, show (1 : UInt64).toNat % 64 = 1 from rfl,
    Nat.shiftLeft_eq, pow_one, ← pow_succ, Nat.mod_eq_of_lt hlt]

/-- Shifting the last power of two gives zero. -/
theorem shiftLeft_one_eq_zero {cap : UInt64} (hcap : cap.toNat = 2 ^ 63) : cap <<< 1 = 0 := by
  rw [← UInt64.toNat_inj, UInt64.toNat_shiftLeft, hcap]
  rfl

/-- From zero on the loop goes round for ever. -/
theorem growCapacity_zero {ring_capacity : UInt64} (hpos : 0 < ring_capacity) (fuel : ℕ) :
    growCapacity ring_capacity fuel 0 = none := by
  induction fuel with
  | zero => rfl
  | succ fuel ih =>
    rw [growCapacity, if_pos hpos]
    exact ih

/-- What the loop returns from the `j`-th power of two on: a power of two that is large enough,
and no smaller one that was tested would have been. -/
theorem growCapacity_spec {ring_capacity r : UInt64} :
    ∀ {fuel j : ℕ} {cap : UInt64}, j < 64 → cap.toNat = 2 ^ j →
      growCapacity ring_capacity fuel cap = some r →
      ∃ k, j ≤ k ∧ k < 64 ∧ r.toNat = 2 ^ k ∧ ring_capacity ≤ r ∧
        ∀ i, j ≤ i → i < k → 2 ^ i < ring_capacity.toNat := by
  intro fuel
  induction fuel with
  | zero => intro j cap _ _ h; cases h
  | succ fuel ih =>
    intro j cap hj hcap h
    rw [growCapacity] at h
    split at h
    · next hlt =>
      have hlt' : 2 ^ j < ring_capacity.toNat := by rwa [← hcap, ← UInt64.lt_iff_toNat_lt]
      have hnext : j + 1 < 64 := by
        by_contra hge
        obtain rfl : j = 63 := by omega
        have hpos : 0 < ring_capacity := UInt64.lt_of_le_of_lt UInt64.zero_le hlt
        rw [shiftLeft_one_eq_zero hcap, growCapacity_zero hpos] at h
        cases h
      obtain ⟨k, hjk, hk, hr, hle, hmin⟩ := ih hnext (toNat_shiftLeft_one hcap hnext) h
      refine ⟨k, by omega, hk, hr, hle, fun i hi hik => ?_⟩
      rcases Nat.eq_or_lt_of_le hi with rfl | hi
      · exact hlt'
      · exact hmin i hi hik
    · next hge =>
      obtain rfl := Option.some.inj h
      exact ⟨j, le_rfl, by omega, hcap, by simpa using hge, fun i hi hij => by omega⟩

/-- From the `j`-th power of two on, one test for each power of two is enough for a request that
is not above the last one. -/
theorem growCapacity_isSome {ring_capacity : UInt64} (hle : ring_capacity.toNat ≤ 2 ^ 63) :
    ∀ {fuel j : ℕ} {cap : UInt64}, j + fuel = 63 → cap.toNat = 2 ^ j →
      (growCapacity ring_capacity (fuel + 1) cap).isSome := by
  intro fuel
  induction fuel with
  | zero =>
    intro j cap hj hcap
    obtain rfl : j = 63 := hj
    have hge : ¬ cap < ring_capacity := by
      rw [UInt64.lt_iff_toNat_lt, hcap]
      exact hle.not_gt
    rw [growCapacity, if_neg hge]
    rfl
  | succ fuel ih =>
    intro j cap hj hcap
    rw [growCapacity]
    split
    · exact ih (j := j + 1) (by omega) (toNat_shiftLeft_one hcap (by omega))
    · rfl

/-- What the loop leaves is a power of two that is large enough, and every smaller one is below
the requested capacity. -/
theorem exists_of_growCapacity {ring_capacity cap : UInt64} {fuel : ℕ}
    (h : growCapacity ring_capacity fuel 1 = some cap) :
    ∃ z : Pow2Size, z.size = cap ∧ ring_capacity.toNat ≤ z.card ∧
      ∀ i < z.log, 2 ^ i < ring_capacity.toNat := by
  obtain ⟨k, -, hk, hr, hle, hmin⟩ := growCapacity_spec (j := 0) (by decide) rfl h
  exact ⟨⟨cap, k, hk, hr⟩, rfl, UInt64.le_iff_toNat_le.mp hle, fun i => hmin i (Nat.zero_le i)⟩

namespace Built

variable {ring_capacity : UInt64} {z : Pow2Size}

theorem le_card (h : Built ring_capacity z) : ring_capacity.toNat ≤ z.card := by
  obtain ⟨z', hz, hle, -⟩ := exists_of_growCapacity h
  obtain rfl := Pow2Size.eq_of_size hz
  exact hle

/-- Every smaller power of two is below the requested capacity. -/
theorem lt_of_lt_log (h : Built ring_capacity z) {i : ℕ} (hi : i < z.log) :
    2 ^ i < ring_capacity.toNat := by
  obtain ⟨z', hz, -, hmin⟩ := exists_of_growCapacity h
  obtain rfl := Pow2Size.eq_of_size hz
  exact hmin i hi

theorem two_le_card_iff (h : Built ring_capacity z) : 2 ≤ z.card ↔ 2 ≤ ring_capacity.toNat := by
  refine ⟨fun h2 => ?_, fun h2 => h2.trans h.le_card⟩
  have hlog : 0 < z.log := by
    by_contra hz
    obtain hz : z.log = 0 := by omega
    rw [z.card_eq, hz] at h2
    omega
  have := h.lt_of_lt_log hlog
  omega

end Built

/-! ### Rounding up -/

/-- What a constructor stores of the size of its ring. -/
structure RingSizes where
  capacity_ : UInt64
  mask_ : UInt64

/-- The beginning of the constructors, where the loop is cut off after `fuel` tests. -/
def roundUp (ring_capacity : UInt64) (fuel : ℕ) : Option RingSizes :=
  (growCapacity ring_capacity fuel 1).map fun cap => ⟨cap, cap - 1⟩

/-- The beginning of `RtLogger::RtLogger`. -/
def RtLogger.ringSizes : UInt64 → ℕ → Option RingSizes := roundUp

/-- The beginning of `MpscRtLogger::MpscRtLogger`. -/
def MpscRtLogger.ringSizes : UInt64 → ℕ → Option RingSizes := roundUp

/-- A constructor rounds `ring_capacity` up: it comes to an end, and what it stores is the least
power of two that is large enough, and a mask that takes the remainder by it, of every word and
of every count behind a word that wrapped. -/
structure Rounds (sizes : UInt64 → ℕ → Option RingSizes) (ring_capacity : UInt64) : Prop where
  ends : ∃ fuel, (sizes ring_capacity fuel).isSome
  least : ring_capacity.toNat ≤ 2 ^ 63 → ∀ fuel r, sizes ring_capacity fuel = some r →
    IsLeast {n | (∃ k, n = 2 ^ k) ∧ max 1 ring_capacity.toNat ≤ n} r.capacity_.toNat
  masks : ring_capacity.toNat ≤ 2 ^ 63 → ∀ fuel r, sizes ring_capacity fuel = some r →
    (∀ index : UInt64, index &&& r.mask_ = index % r.capacity_) ∧
    ∀ n : ℕ, (UInt64.ofNat n &&& r.mask_).toNat = n % r.capacity_.toNat

/-- What the constructors store is a power of two and its mask. -/
theorem exists_of_roundUp {ring_capacity : UInt64} {fuel : ℕ} {r : RingSizes}
    (h : roundUp ring_capacity fuel = some r) :
    ∃ z : Pow2Size, r = ⟨z.size, z.mask⟩ ∧ ring_capacity.toNat ≤ z.card ∧
      ∀ i < z.log, 2 ^ i < ring_capacity.toNat := by
  obtain ⟨cap, hcap, rfl⟩ := Option.map_eq_some_iff.mp h
  obtain ⟨z, rfl, hle, hmin⟩ := exists_of_growCapacity hcap
  exact ⟨z, rfl, hle, hmin⟩

/-- Above the last power of two the loop does not end. -/
theorem roundUp_eq_none {ring_capacity : UInt64} (hgt : 2 ^ 63 < ring_capacity.toNat) (fuel : ℕ) :
    roundUp ring_capacity fuel = none := by
  cases h : roundUp ring_capacity fuel with
  | none => rfl
  | some r =>
    obtain ⟨z, -, hle, -⟩ := exists_of_roundUp h
    exact absurd (hle.trans z.card_le) hgt.not_ge

theorem rounds_roundUp_iff (ring_capacity : UInt64) :
    Rounds roundUp ring_capacity ↔ ring_capacity.toNat ≤ 2 ^ 63 := by
  constructor
  · rintro ⟨⟨fuel, hends⟩, -, -⟩
    by_contra hgt
    rw [roundUp_eq_none (Nat.lt_of_not_le hgt)] at hends
    cases hends
  · intro hle
    refine ⟨⟨64, ?_⟩, fun _ fuel r h => ?_, fun _ fuel r h => ?_⟩
    · rw [roundUp, Option.isSome_map]
      exact growCapacity_isSome hle (j := 0) rfl rfl
    · obtain ⟨z, rfl, hcard, hmin⟩ := exists_of_roundUp h
      refine ⟨⟨⟨z.log, z.card_eq⟩, max_le z.card_pos hcard⟩, ?_⟩
      rintro _ ⟨⟨k, rfl⟩, hk⟩
      by_contra hlt
      have hlog : k < z.log := by
        rw [z.toNat_size] at hlt
        exact (Nat.pow_lt_pow_iff_right Nat.one_lt_two).mp (Nat.lt_of_not_le hlt)
      exact (hmin k hlog).not_ge ((le_max_right _ _).trans hk)
    · obtain ⟨z, rfl, -, -⟩ := exists_of_roundUp h
      refine ⟨fun index => ?_, z.slot_ofNat⟩
      rw [← UInt64.toNat_inj, z.toNat_and_mask, UInt64.toNat_mod]
      rfl

/-- **Rounding up.** The constructor of either logger rounds the requested capacity up if and only
if that is not above the last power of two. -/
theorem rounds_iff (ring_capacity : UInt64) :
    (Rounds RtLogger.ringSizes ring_capacity ↔ ring_capacity.toNat ≤ 2 ^ 63) ∧
    (Rounds MpscRtLogger.ringSizes ring_capacity ↔ ring_capacity.toNat ≤ 2 ^ 63) :=
  ⟨rounds_roundUp_iff ring_capacity, rounds_roundUp_iff ring_capacity⟩

/-- A request of `2 ^ 63 + 1` slots. -/
theorem construction_hangs :
    ¬ ∀ ring_capacity, Rounds RtLogger.ringSizes ring_capacity ∧
      Rounds MpscRtLogger.ringSizes ring_capacity := by
  intro h
  obtain ⟨⟨fuel, hends⟩, -, -⟩ := (h 0x8000000000000001).1
  rw [RtLogger.ringSizes, roundUp_eq_none (by decide)] at hends
  cases hends

end XmSigma
