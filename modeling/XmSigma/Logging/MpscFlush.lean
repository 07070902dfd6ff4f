import XmSigma.Lib.CatchUp
import XmSigma.Logging.MpscDelivery

/-!
# `MpscRtLogger::Flush` as a barrier

As with `RtLogger`, the loop of `Flush` compares two counters that it reads one after the other.
Here the upper one counts claims, which become visible before the record behind them is written;
the drain thread passes no position that is not published, so none of them is skipped. The lower
one moves before the cell is freed, but after the record was forwarded.

## Main results

* `flush_waits_for_claims`: what was claimed before the call has been forwarded when the loop exits
-/

namespace XmSigma

namespace MpscRtLogger

variable {ι : Type*} {z : Pow2Size} {t : History ι} {s s₁ : State ι} {e : Event ι}
  {tr tr₁ : List (Event ι)} {goal : ℕ}

/-- A thread in `Flush` waits for `dequeue_pos_` to catch up with `enqueue_pos_`. -/
def Flush.waiter : Flush → CatchUp.Waiter
  | .idle => .idle
  | .compare => .compare
  | .loadedDequeue dequeue => .low dequeue
  | .loadedEnqueue enqueue => .high enqueue
  | .flushSink => .done

theorem Flush.waiter_step (p : Flush) (m : Shared) (dequeueFirst : Bool) :
    (p.step m dequeueFirst).waiter = p.waiter.step m.dequeue_pos_ m.enqueue_pos_ dequeueFirst := by
  cases p with
  | compare => cases dequeueFirst <;> rfl
  | loadedDequeue w | loadedEnqueue w => exact apply_ite Flush.waiter _ _ _
  | _ => rfl

/-- `goal` positions have been claimed, and the thread in `Flush` has read what it may have. -/
def AwaitsGoal (z : Pow2Size) (goal : ℕ) (t : History ι) (s : State ι) : Prop :=
  goal ≤ t.claims.length ∧ s.flush.waiter.sample.Ok z.card goal t.advanced

/-- The two positions are at most the capacity apart. -/
theorem Inv.claims_le_advanced (h : Inv z t s) : t.claims.length ≤ t.advanced + z.card := by
  have hfreed := h.freed_le
  have hub := h.claims_le
  omega

/-- A step of `Flush`. -/
theorem Inv.flush_step (h : Inv z t s) (hw : AwaitsGoal z goal t s) (dequeueFirst : Bool) :
    (s.flush.step s.shared dequeueFirst).waiter.sample.Ok z.card goal t.advanced := by
  have hdequeue : s.shared.dequeue_pos_ = .ofNat t.advanced := by
    rw [← h.dequeue_eq, UInt64.ofNat_toNat]
  have henqueue : s.shared.enqueue_pos_ = .ofNat t.claims.length := by
    rw [← h.enqueue_eq, UInt64.ofNat_toNat]
  rw [Flush.waiter_step, hdequeue, henqueue]
  exact CatchUp.Waiter.step_ok z.card_le hw.1 h.claims_le_advanced h.advanced_le hw.2 dequeueFirst

/-- Every step keeps the claims, and `dequeue_pos_` only grows. -/
theorem History.note_le (t : History ι) (e : Event ι) :
    t.claims <+: (t.note e).claims ∧ t.advanced ≤ (t.note e).advanced := by
  cases e <;> simp [History.note]

variable [DecidableEq ι]

theorem AwaitsGoal.step (hw : AwaitsGoal z goal t s) (h : Inv z t s)
    (hs : (machine z).Step s e s₁) : AwaitsGoal z goal (t.note e) s₁ := by
  obtain ⟨hclaims, hadvanced⟩ := t.note_le e
  refine ⟨hw.1.trans hclaims.length_le, ?_⟩
  cases Move.of_step hs with
  | flush dequeueFirst => exact h.flush_step hw dequeueFirst
  | _ => exact hw.2.mono hadvanced

/-- **`Flush` is a barrier.** When the wait loop of a call of `Flush` exits, whatever the producers
and the drain thread did meanwhile, the record of every position that was claimed before the call
has been forwarded, published by then or not. -/
theorem flush_waits_for_claims (h : (machine z).Run tr s) (hcall : s.flush = .idle)
    (hp : (machine z).Path s tr₁ s₁) (hexit : s₁.flush = .flushSink) (h2 : 2 ≤ z.card)
    (hb : CountersBelow z (history (tr ++ tr₁))) :
    (history tr).claims.map (fun x => x.2.sinkRecord) <+: (history (tr ++ tr₁)).forwarded := by
  have hw : AwaitsGoal z (history tr).claims.length (history (tr ++ tr₁)) s₁ := by
    refine h.rule_from (Q := fun _ => True)
      (I := fun tr₁ s₁ => CountersBelow z (history (tr ++ tr₁)) →
        AwaitsGoal z (history tr).claims.length (history (tr ++ tr₁)) s₁)
      hp (fun _ _ => trivial) (fun _ => ?_) (fun {tr₁ s₁ e s₂} hrun _ hw hs hb => ?_) hb
    · rw [List.append_nil, AwaitsGoal, hcall]
      exact ⟨le_rfl, trivial⟩
    · rw [← List.append_assoc] at hb ⊢
      rw [history_snoc]
      exact (hw hb.of_append).step (Inv.of_run hrun h2 hb.of_append) hs
  have hi := Inv.of_run (h.append hp) h2 hb
  have hreached : (history tr).claims.length ≤ (history (tr ++ tr₁)).advanced := by
    have hok := hw.2
    rwa [hexit] at hok
  rw [hi.forwarded_eq]
  refine List.IsPrefix.map _ (List.prefix_take_iff.mpr ⟨?_, by omega⟩)
  rw [claims_append]
  exact List.prefix_append _ _

/-- `Flush` is called when a producer owns a cell, and loads `enqueue_pos_` first. -/
def claimed : Option (List (Event Bool) × State Bool) :=
  (machine twoCells).exec small (.call true hello :: List.replicate 5 (.log true false))

theorem claimed_isSome : claimed.isSome := by decide +kernel

/-- The record is published and forwarded, and another is claimed, before it loads
`dequeue_pos_`. -/
def flushed : Option (List (Event Bool) × State Bool) :=
  (machine twoCells).exec (claimed.get claimed_isSome).2
    ([.flush false, .flush false] ++ List.replicate 4 (.log true false) ++ drainAction ++
      .call false broken :: List.replicate 5 (.log false false) ++ [.flush false])

theorem flushed_isSome : flushed.isSome := by decide +kernel

theorem flush_waits_for_claims_small :
    [hello.sinkRecord] <+: (history ((claimed.get claimed_isSome).1 ++
      (flushed.get flushed_isSome).1)).forwarded :=
  flush_waits_for_claims (run_small claimed_isSome) rfl (.of_exec_get flushed_isSome)
    (by decide +kernel) (by decide) (by unfold CountersBelow; decide +kernel)

end MpscRtLogger

end XmSigma
