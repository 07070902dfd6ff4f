import XmSigma.Logging.MpscDelivery

/-!
# When `MpscRtLogger` drops a record

A producer looks at one cell only, the one at its `pos`, and its `pos` may be many laps old. All
the same a sequence below `pos` proves two things about the moment it was loaded: `pos` was still
`enqueue_pos_`, and every cell of the ring was claimed and not yet freed. Sequences only grow and
cells are freed in order, so a cell whose sequence is still behind `pos` is the one that the drain
thread has to free next, and the claims have come round to it.

## Main results

* `drops_only_on_full_ring`: `diff < 0` exactly when the ring is full and `pos` is current
-/

namespace XmSigma

namespace MpscRtLogger

variable {ι : Type*} {z : Pow2Size} {t : History ι} {s s₁ : State ι} {e : Event ι}
  {tr : List (Event ι)} {i : ι} {c : Call} {pos : UInt64}

/-- No sequence has reached `2 ^ 63`. -/
theorem Inv.sequence_lt (h : Inv z t s) (hb : CountersBelow z t) (q : ℕ) :
    (s.shared.cell z q).sequence.toNat < 2 ^ 63 := by
  obtain ⟨w, -, hhi, -, hcase⟩ := h.sequence_eq q
  have hadv := h.advanced_le
  have hfreed := h.freed_le
  have hcard := z.card_pos
  unfold CountersBelow at hb
  omega

/-- The sign of the difference compares the sequence of the cell with the position. -/
theorem Inv.diff_neg_iff (h : Inv z t s) (hb : CountersBelow z t)
    (hpos : pos.toNat ≤ t.claims.length) :
    signedDiff (s.shared.cells_ (z.slot pos)).sequence pos < 0 ↔
      (s.shared.cell z pos.toNat).sequence.toNat < pos.toNat := by
  have hcell : s.shared.cells_ (z.slot pos) = s.shared.cell z pos.toNat := by
    rw [Shared.cell, z.slot_eq]
  rw [hcell]
  exact signedDiff_neg_iff_toNat_lt (h.sequence_lt hb _) (hpos.trans_lt (Inv.claims_lt hb))

/-- What the sequence at `enqueue_pos_` says: the position, if there is room; less, if not. -/
theorem Inv.enqueue_sequence (h : Inv z t s) (h2 : 2 ≤ z.card) :
    t.claims.length < t.freed + z.card ∧
        (s.shared.cell z t.claims.length).sequence.toNat = t.claims.length ∨
      t.claims.length = t.freed + z.card ∧
        (s.shared.cell z t.claims.length).sequence.toNat < t.claims.length := by
  rcases h.claims_le.lt_or_eq with hroom | hfull
  · exact .inl ⟨hroom, h.unclaimed _ le_rfl hroom⟩
  · refine .inr ⟨hfull, ?_⟩
    have hcell : s.shared.cell z t.claims.length = s.shared.cell z t.freed := by
      rw [Shared.cell, Shared.cell, hfull, Nat.add_mod_right]
    have hcase := h.window_sequence (q := t.freed) le_rfl (by omega)
    rw [hcell]
    omega

/-- A sequence behind a position that some producer has read: the position is current, and the
ring is full. -/
theorem Inv.behind_iff (h : Inv z t s) (h2 : 2 ≤ z.card) {q : ℕ} (hq : q ≤ t.claims.length) :
    (s.shared.cell z q).sequence.toNat < q ↔
      q = t.claims.length ∧ t.claims.length = t.freed + z.card := by
  constructor
  · intro hlt
    obtain ⟨w, hlo, hhi, hmod, hcase⟩ := h.sequence_eq q
    have hub := h.claims_le
    -- the cell belongs to a position `w` below `q`, hence at least a lap below it
    have hlap : w + z.card ≤ q := by
      by_contra hnear
      have := z.slot_inj le_rfl (Nat.lt_add_of_pos_right z.card_pos)
        (show w ≤ q by omega) (by omega) hmod
      omega
    omega
  · rintro ⟨rfl, hfull⟩
    rcases h.enqueue_sequence h2 with ⟨hroom, -⟩ | ⟨-, hlt⟩
    · omega
    · exact hlt

/-- Every cell of the ring is claimed and not yet freed. -/
def History.Full (z : Pow2Size) (t : History ι) : Prop :=
  ∀ k < z.card, ∃ q, q % z.card = k ∧ t.freed ≤ q ∧ q < t.claims.length

/-- Every cell is that of one position, so all cells are taken exactly when a lap of positions
is. -/
theorem Inv.full_iff (h : Inv z t s) :
    t.Full z ↔ t.claims.length = t.freed + z.card := by
  have hub := h.claims_le
  constructor
  · intro hfull
    by_contra hne
    have hle : t.freed ≤ t.claims.length := h.freed_le.trans h.advanced_le
    have hlt : t.claims.length < t.freed + z.card := by omega
    obtain ⟨q, hmod, hlo, hhi⟩ := hfull _ (Nat.mod_lt t.claims.length z.card_pos)
    exact hhi.ne (z.slot_inj hlo (by omega) hle hlt hmod)
  · intro hlen k hk
    obtain ⟨w, hlo, hhi, hmod⟩ := exists_window z t.freed k
    exact ⟨w, by rw [hmod, Nat.mod_eq_of_lt hk], hlo, by omega⟩

variable [DecidableEq ι]

/-- **Dropping.** Let a call load the sequence of the cell at its `pos`. It takes the branch
`diff < 0`, and so drops its record, if and only if at this moment `pos` is `enqueue_pos_` and all
`capacity_` cells are claimed and not yet freed. A call whose `pos` is stale, by however many
laps, and a call that finds any cell free, does not. -/
theorem drops_only_on_full_ring (h : (machine z).Run tr s) (h2 : 2 ≤ z.card)
    (hb : CountersBelow z (history tr)) (hi : s.producers i = .loadSeq c pos) {spurious : Bool}
    (hs : (machine z).step s (.log i spurious) = some (s₁, e)) :
    s₁.producers i = .bumpDropped c ↔
      s.shared.enqueue_pos_ = pos ∧ (history tr).Full z := by
  have hinv := Inv.of_run h h2 hb
  have hok := hinv.log_ok i
  simp only [hi, Log.Ok] at hok
  have hbranch : s₁.producers i = .bumpDropped c ↔
      signedDiff (s.shared.cells_ (z.slot pos)).sequence pos < 0 := by
    simp only [machine, step, hi, Log.step] at hs
    split at hs
    · next hzero =>
      cases hs
      simp [hzero]
    · split at hs <;> cases hs
      next hneg => simp [hneg]
      next hneg => simp [hneg]
  rw [hbranch, hinv.diff_neg_iff hb hok, hinv.behind_iff h2 hok, hinv.full_iff,
    ← UInt64.toNat_inj, hinv.enqueue_eq]
  exact and_congr_left fun _ => eq_comm

/-- Two calls of one producer fill the ring, a call of the other loads `enqueue_pos_`. -/
def filled : Option (List (Event Bool) × State Bool) :=
  (machine twoCells).exec small
    (logAction true hello ++ logAction true hello ++
      [.call false broken, .log false false, .log false false])

theorem filled_isSome : filled.isSome := by decide +kernel

theorem drops_only_on_full_ring_small :
    (filled.get filled_isSome).2.shared.enqueue_pos_ = 2 ∧
      (history (filled.get filled_isSome).1).Full twoCells :=
  (drops_only_on_full_ring (run_small filled_isSome) (by decide)
    (by unfold CountersBelow; decide +kernel)
    (show (filled.get filled_isSome).2.producers false = .loadSeq broken 2 from rfl)
    (show (machine twoCells).step _ (.log false false) = some _ from rfl)).mp rfl

end MpscRtLogger

end XmSigma
