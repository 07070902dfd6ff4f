import XmSigma.Lib.CatchUp
import XmSigma.Logging.RtLoggerDelivery

/-!
# `RtLogger::Flush` as a barrier

`Flush` waits until it has read two equal values of `tail_` and `head_`. It reads them one after
the other, in an order the language leaves open, while the producer and the drain thread move both
on. The two are a lower and an upper counter that are at most the capacity apart, so equal values
mean that `tail_` has passed what `head_` was when `Flush` was called, even if the words wrapped in
between.

## Main results

* `flush_is_barrier`: what was published before the call has been forwarded when the loop exits
-/

namespace XmSigma

namespace RtLogger

variable {z : Pow2Size} {t : History} {s s₁ : State} {e : Event} {tr tr₁ : List Event} {goal : ℕ}

/-- A thread in `Flush` waits for `tail_` to catch up with `head_`. -/
def Flush.waiter : Flush → CatchUp.Waiter
  | .idle => .idle
  | .compare => .compare
  | .loadedTail tail => .low tail
  | .loadedHead head => .high head
  | .flushSink => .done

theorem Flush.waiter_step (p : Flush) (m : Shared) (tailFirst : Bool) :
    (p.step m tailFirst).waiter = p.waiter.step m.tail_ m.head_ tailFirst := by
  cases p with
  | compare => cases tailFirst <;> rfl
  | loadedTail w | loadedHead w => exact apply_ite Flush.waiter _ _ _
  | _ => rfl

/-- `goal` records have been published, and the thread in `Flush` has read what it may have. -/
def AwaitsGoal (z : Pow2Size) (goal : ℕ) (t : History) (s : State) : Prop :=
  goal ≤ t.published.length ∧ s.flush.waiter.sample.Ok z.card goal t.released

/-- A step of `Flush`. -/
theorem Inv.flush_step (h : Inv z t s) (hw : AwaitsGoal z goal t s) (tailFirst : Bool) :
    (s.flush.step s.shared tailFirst).waiter.sample.Ok z.card goal t.released := by
  rw [Flush.waiter_step, h.tail_eq, h.head_eq]
  exact CatchUp.Waiter.step_ok z.card_le hw.1 h.published_le h.released_le hw.2 tailFirst

/-- The two numbers behind the ring only grow. -/
theorem History.note_le (t : History) (e : Event) :
    t.published.length ≤ (t.note e).published.length ∧ t.released ≤ (t.note e).released := by
  cases e <;> simp [History.note]

theorem AwaitsGoal.step (hw : AwaitsGoal z goal t s) (h : Inv z t s)
    (hs : (machine z).Step s e s₁) : AwaitsGoal z goal (t.note e) s₁ := by
  obtain ⟨hpublished, hreleased⟩ := t.note_le e
  refine ⟨hw.1.trans hpublished, ?_⟩
  cases Move.of_step hs with
  | flush tailFirst => exact h.flush_step hw tailFirst
  | _ => exact hw.2.mono hreleased

/-- **`Flush` is a barrier.** When the wait loop of a call of `Flush` exits, whatever the producer
and the drain thread did meanwhile, every record published before the call has been forwarded; and
each only once, since what was forwarded is what was published, in order. -/
theorem flush_is_barrier (h : (machine z).Run tr s) (hcall : s.flush = .idle)
    (hp : (machine z).Path s tr₁ s₁) (hexit : s₁.flush = .flushSink) :
    (history tr).published.map Call.sinkRecord <+: (history (tr ++ tr₁)).forwarded ∧
      (history (tr ++ tr₁)).forwarded <+:
        (history (tr ++ tr₁)).published.map Call.sinkRecord := by
  have hw : AwaitsGoal z (history tr).published.length (history (tr ++ tr₁)) s₁ := by
    refine h.rule_from (Q := fun _ => True)
      (I := fun tr₁ s₁ => AwaitsGoal z (history tr).published.length (history (tr ++ tr₁)) s₁)
      hp (fun _ _ => trivial) ?_ fun hrun _ hw hs => ?_
    · rw [List.append_nil, AwaitsGoal, hcall]
      exact ⟨le_rfl, trivial⟩
    · rw [← List.append_assoc, history_snoc]
      exact hw.step (Inv.of_run hrun) hs
  have hi := Inv.of_run (h.append hp)
  have hreached : (history tr).published.length ≤ (history (tr ++ tr₁)).released := by
    have hok := hw.2
    rwa [hexit] at hok
  have hearlier : (history tr).published <+: (history (tr ++ tr₁)).published := by
    rw [history_append]
    exact List.prefix_append _ _
  rw [hi.forwarded_eq]
  refine ⟨List.IsPrefix.map _ ?_, (List.take_prefix _ _).map _⟩
  exact List.prefix_take_iff.mpr ⟨hearlier, by omega⟩

/-- `Flush` is called when a record is published, loads `head_` first, and waits for the drain
thread. -/
def flushed : Option (List Event × State) :=
  (machine twoSlots).exec (((machine twoSlots).exec small (logAction hello)).get rfl).2
    ([.flush true, .flush false] ++ drainAction ++ [.flush false])

theorem flushed_isSome : flushed.isSome := by decide +kernel

theorem flush_is_barrier_small :
    [hello.sinkRecord] <+: (history ((((machine twoSlots).exec small (logAction hello)).get rfl).1
      ++ (flushed.get flushed_isSome).1)).forwarded :=
  (flush_is_barrier (run_small rfl) rfl (.of_exec_get flushed_isSome) rfl).1

end RtLogger

end XmSigma
