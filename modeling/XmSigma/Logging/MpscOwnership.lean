import XmSigma.Logging.MpscDelivery

/-!
# Who may touch a cell of `MpscRtLogger`

The fields of a cell other than its sequence are not atomic, so the ring is only sound if each
cell has at most one party at a time: a producer between its successful exchange and its publish,
or the drain thread between the sequence load that matched and the store that frees the cell. The
sequence numbers tell these phases apart, and they only grow.

## Main results

* `cells_have_one_owner`: ownership, the bounds on the two positions, the value of every sequence,
  and that no sequence ever decreases
-/

namespace XmSigma

namespace MpscRtLogger

variable {ι : Type*} {z : Pow2Size} {t : History ι} {s s' : State ι} {e : Event ι}
  {tr tr' : List (Event ι)}

/-- The position whose cell a producer may write: it is between its successful exchange and its
publish. -/
def Log.holds : Log → Option UInt64
  | .assign _ pos _ => some pos
  | _ => none

/-- The position whose cell the drain thread may read: it is between the sequence load that
matched and the store that frees the cell. -/
def Drain.holds : Drain → Option UInt64
  | .read pos _ | .advance pos | .free pos => some pos
  | _ => none

theorem Log.eq_of_holds {p : Log} {pos : UInt64} (h : p.holds = some pos) :
    ∃ c todo, p = .assign c pos todo := by
  cases p with
  | assign c pos' todo =>
    cases h
    exact ⟨c, todo, rfl⟩
  | _ => cases h

/-! ### One party at a time -/

theorem Inv.one_producer (h : Inv z t s) {i j : ι} {pos pos' : UInt64}
    (hi : (s.producers i).holds = some pos) (hj : (s.producers j).holds = some pos')
    (heq : z.slot pos = z.slot pos') : i = j := by
  obtain ⟨c, todo, hi⟩ := Log.eq_of_holds hi
  obtain ⟨c', todo', hj⟩ := Log.eq_of_holds hj
  obtain ⟨hlo, -, hhi⟩ := h.owner_window hi
  obtain ⟨hlo', -, hhi'⟩ := h.owner_window hj
  rw [z.slot_eq, z.slot_eq] at heq
  exact h.owner_unique hi hj (z.slot_inj hlo hhi hlo' hhi' heq)

/-- The drain thread holds the lowest position of the window, and nobody is writing it. -/
theorem Inv.drain_holds (h : Inv z t s) {pos : UInt64} (hd : s.drain.holds = some pos) :
    pos.toNat = t.freed ∧ ¬ Writing s.producers t.freed := by
  have hok := h.drain_ok
  have hfreed := h.freed_eq
  cases hdr : s.drain with
  | read pos' v =>
    simp only [hdr, Drain.holds, Drain.Ok, Drain.unfreed, Option.some.injEq] at hd hok hfreed
    subst hd
    rw [Nat.add_zero] at hfreed
    exact ⟨hok.1.trans hfreed.symm, hfreed ▸ hok.2.1⟩
  | advance pos' =>
    simp only [hdr, Drain.holds, Drain.Ok, Drain.unfreed, Option.some.injEq] at hd hok hfreed
    subst hd
    rw [Nat.add_zero] at hfreed
    exact ⟨hok.1.trans hfreed.symm, hfreed ▸ hok.2.1⟩
  | free pos' =>
    simp only [hdr, Drain.holds, Drain.Ok, Drain.unfreed, Option.some.injEq] at hd hok hfreed
    subst hd
    refine ⟨hok, ?_⟩
    rintro ⟨i, c, pos, todo, hi, hpos⟩
    have := (h.owner hi).1
    omega
  | _ => simp [hdr, Drain.holds] at hd

theorem Inv.not_both (h : Inv z t s) {i : ι} {pos pos' : UInt64}
    (hi : (s.producers i).holds = some pos) (hd : s.drain.holds = some pos') :
    z.slot pos ≠ z.slot pos' := by
  obtain ⟨c, todo, hi⟩ := Log.eq_of_holds hi
  obtain ⟨hlo, -, hhi⟩ := h.owner_window hi
  obtain ⟨hpos, hnw⟩ := h.drain_holds hd
  have hcard := z.card_pos
  rw [z.slot_eq, z.slot_eq, hpos]
  intro heq
  exact hnw ⟨i, c, pos, todo, hi, z.slot_inj hlo hhi le_rfl (by omega) heq⟩

/-! ### Sequences only grow -/

/-- The drain thread changes a cell only when it frees it. -/
theorem Drain.cells_step {m m' : Shared} {p p' : Drain} {f : Field}
    (hs : p.step z m f = some (m', p', e)) :
    m'.cells_ = m.cells_ ∨ ∃ pos, p = .free pos ∧
      m'.cells_ = Function.update m.cells_ (z.slot pos)
        { m.cells_ (z.slot pos) with sequence := pos + z.mask + 1 } := by
  cases DrainMove.of_step hs with
  | free => exact .inr ⟨_, rfl, rfl⟩
  | _ => exact .inl rfl

/-- Storing a sequence that is not smaller lowers no sequence. -/
theorem sequence_le_update {cells : ℕ → Cell} {i k : ℕ} {x : Cell}
    (h : (cells i).sequence.toNat ≤ x.sequence.toNat) :
    (cells k).sequence.toNat ≤ (Function.update cells i x k).sequence.toNat := by
  by_cases hk : k = i
  · subst hk
    rwa [Function.update_self]
  · rw [Function.update_of_ne hk]

theorem Inv.sequence_le_log {m : Shared} {p : Log} {i : ι} (h : Inv z t s)
    (hb : CountersBelow z t) (he : Log.Effect z i s.shared (s.producers i) m p e) (k : ℕ) :
    (s.shared.cells_ k).sequence.toNat ≤ (m.cells_ k).sequence.toNat := by
  cases hi : s.producers i with
  | assign c pos todo =>
    rw [hi] at he
    cases he with
    | fill _ _ f todo => exact sequence_le_update le_rfl
    | publish =>
      obtain ⟨-, -, hseq, -⟩ := h.owner hi
      obtain ⟨-, hclaimed, -⟩ := h.owner_window hi
      have hlt := Inv.claims_lt hb
      rw [Shared.cell, ← z.slot_eq] at hseq
      refine sequence_le_update ?_
      rw [hseq, toNat_add_one (by omega)]
      omega
    | silent => exact le_rfl
  | _ => rw [hi] at he; cases he <;> exact le_rfl

variable [DecidableEq ι]

theorem Inv.sequence_le_step (h : Inv z t s) (hb : CountersBelow z t)
    (hs : (machine z).Step s e s') (k : ℕ) :
    (s.shared.cells_ k).sequence.toNat ≤ (s'.shared.cells_ k).sequence.toNat := by
  cases Move.of_step hs with
  | log i spurious hp => exact h.sequence_le_log hb (Log.effect_of_step hp) k
  | drain f hp =>
    rcases Drain.cells_step hp with hcells | ⟨pos, hd, hcells⟩
    · exact (congrArg (fun cells => (cells k).sequence.toNat) hcells).ge
    · obtain ⟨hpos, -⟩ := h.drain_holds (show s.drain.holds = some pos by rw [hd]; rfl)
      have hcard := z.card_pos
      have hseq := h.window_sequence (q := t.freed) le_rfl (by omega)
      simp only [hcells]
      refine sequence_le_update ?_
      rw [h.toNat_next_lap hb hpos, z.slot_eq, hpos]
      change (s.shared.cell z t.freed).sequence.toNat ≤ _
      omega
  | _ => exact le_rfl

theorem sequence_le_path (h : (machine z).Run tr s) (hp : (machine z).Path s tr' s')
    (h2 : 2 ≤ z.card) (hb : CountersBelow z (history (tr ++ tr'))) (k : ℕ) :
    (s.shared.cells_ k).sequence.toNat ≤ (s'.shared.cells_ k).sequence.toNat := by
  induction hp with
  | refl => exact le_rfl
  | @snoc tr' e s₁ s₂ hp hs ih =>
    rw [← List.append_assoc] at hb
    exact (ih hb.of_append).trans
      ((Inv.of_run (h.append hp) h2 hb.of_append).sequence_le_step hb.of_append hs k)

/-! ### Ownership -/

/-- **Ownership.** In every reachable state at most one producer holds a cell, and never one that
the drain thread holds; `dequeue_pos_` and `enqueue_pos_` are at most a ring apart; the sequence of
every position of the lap from `dequeue_pos_` on is the position, or one more once it is
published, leaving out the cell that the drain thread has advanced past and not yet freed; and
whatever happens next, no sequence decreases. -/
theorem cells_have_one_owner (h : (machine z).Run tr s) (h2 : 2 ≤ z.card)
    (hb : CountersBelow z (history tr)) :
    (∀ i j pos pos', (s.producers i).holds = some pos → (s.producers j).holds = some pos' →
      z.slot pos = z.slot pos' → i = j) ∧
    (∀ i pos pos', (s.producers i).holds = some pos → s.drain.holds = some pos' →
      z.slot pos ≠ z.slot pos') ∧
    (s.shared.dequeue_pos_.toNat ≤ s.shared.enqueue_pos_.toNat ∧
      s.shared.enqueue_pos_.toNat ≤ s.shared.dequeue_pos_.toNat + z.card) ∧
    (∀ p, s.shared.dequeue_pos_.toNat ≤ p → p < s.shared.dequeue_pos_.toNat + z.card →
      (∀ pos, s.drain = .free pos → p % z.card ≠ z.slot pos) →
      (p < s.shared.enqueue_pos_.toNat ∧ ¬ Writing s.producers p →
        (s.shared.cell z p).sequence.toNat = p + 1) ∧
      (¬ (p < s.shared.enqueue_pos_.toNat ∧ ¬ Writing s.producers p) →
        (s.shared.cell z p).sequence.toNat = p)) ∧
    ∀ tr' s', (machine z).Path s tr' s' → CountersBelow z (history (tr ++ tr')) →
      ∀ k, (s.shared.cells_ k).sequence.toNat ≤ (s'.shared.cells_ k).sequence.toNat := by
  have hi := Inv.of_run h h2 hb
  have hfreed := hi.freed_le
  have hub := hi.claims_le
  rw [hi.dequeue_eq, hi.enqueue_eq]
  refine ⟨fun i j pos pos' => hi.one_producer, fun i pos pos' => hi.not_both,
    ⟨hi.advanced_le, by omega⟩, fun p hlo hhi hne => ?_,
    fun tr' s' hp hb' => sequence_le_path h hp h2 hb'⟩
  have hwindow : p < (history tr).freed + z.card := by
    have hfreed' := hi.freed_eq
    cases hd : s.drain with
    | free pos =>
      have hpos := (hi.drain_holds (show s.drain.holds = some pos by rw [hd]; rfl)).1
      have hne' : p ≠ (history tr).freed + z.card := fun heq => by
        have hmod := hne pos hd
        rw [z.slot_eq, hpos, heq, Nat.add_mod_right] at hmod
        exact hmod rfl
      simp only [hd, Drain.unfreed] at hfreed'
      omega
    | _ =>
      simp only [hd, Drain.unfreed] at hfreed'
      omega
  rcases hi.window_sequence (hfreed.trans hlo) hwindow with ⟨hseq, hw⟩ | ⟨hseq, hclaimed, hw⟩
  · exact ⟨fun hpub => absurd (hw hpub.1) hpub.2, fun _ => hseq⟩
  · exact ⟨fun _ => hseq, fun hnot => absurd ⟨hclaimed, hw⟩ hnot⟩

theorem cells_have_one_owner_small :
    (delivered.get delivered_isSome).2.shared.enqueue_pos_.toNat ≤
      (delivered.get delivered_isSome).2.shared.dequeue_pos_.toNat + twoCells.card :=
  (cells_have_one_owner (run_small delivered_isSome) (by decide)
    (by unfold CountersBelow; decide +kernel)).2.2.1.2

end MpscRtLogger

end XmSigma
