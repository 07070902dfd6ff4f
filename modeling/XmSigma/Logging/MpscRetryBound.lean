import Mathlib.Data.Fintype.Card
import XmSigma.Logging.MpscRetries

/-!
# The bound on the rounds of a call

The header promises that a claim retries at most once per competing producer. It does, as long as
none of the others claims two positions while the call is under way. Nothing in the code prevents
that: between two steps of a call another producer may complete a whole call of its own, each time
taking the position that the first has just read.

## Main results

* `retries_le_competitors`: the bound, for calls during which nobody else claims twice
* `retries_exceed_competitors`: it fails for two producers
-/

namespace XmSigma

namespace MpscRtLogger

variable {ι : Type*} [DecidableEq ι] {z : Pow2Size} {s s₁ : State ι}
  {tr tr₁ : List (Event ι)} {i : ι} {c : Call} {pos : UInt64}

/-- **The documented bound.** Let a call of producer `i` have read `enqueue_pos_` for the first
time, and let `tr₁` be what happened since, without another call of `i`. If none of the others has
claimed two positions since, then every round that the call lost has gone to another producer, so
that it has lost at most as many rounds as there are producers that made a claim. -/
theorem retries_le_competitors (h : (machine z).Run tr s) (hi : s.producers i = .loadSeq c pos)
    (hread : s.shared.enqueue_pos_ = pos) (hp : (machine z).Path s tr₁ s₁)
    (hcall : ∀ d, .call i d ∉ tr₁) (hb : CountersBelow z (history (tr ++ tr₁)))
    (honce : (competing i (history tr₁)).Nodup) :
    (rounds i pos.toNat tr₁).takers.length = tr₁.count (.retry i) ∧
      (rounds i pos.toNat tr₁).takers.Nodup ∧
      tr₁.count (.retry i) ≤ (competing i (history tr₁)).toFinset.card := by
  have hpos : pos.toNat = (history tr).claims.length := by
    rw [← hread]
    exact (Race.of_run h hb.of_append).enqueue_eq
  have hc := Contends.of_path h hi hread hp hcall hb
  rw [← hpos] at hc
  have hsub := hc.takers_sublist
  refine ⟨hc.count_eq, honce.sublist hsub, ?_⟩
  rw [← hc.count_eq, List.toFinset_card_of_nodup honce]
  exact hsub.length_le

/-- The other producer logs one record before the exchange of the call. -/
def passed : Option (List (Event Bool) × State Bool) :=
  (machine twoCells).exec (entered.get entered_isSome).2
    (.log false false :: logAction true broken ++ [.log false false])

theorem passed_isSome : passed.isSome := by decide +kernel

theorem passed_events :
    (passed.get passed_isSome).1 =
      .log false :: .call true broken :: List.replicate 3 (.log true) ++
        .claim true broken :: List.replicate 4 (.log true) ++
        [.publish true broken, .retry false] := by
  decide +kernel

theorem retries_le_competitors_small :
    (passed.get passed_isSome).1.count (.retry false) ≤
      (competing false (history (passed.get passed_isSome).1)).toFinset.card :=
  (retries_le_competitors (run_small entered_isSome) rfl rfl (.of_exec_get passed_isSome)
    (fun d => by
      change Event.call false d ∉ (passed.get passed_isSome).1
      simp [passed_events])
    (by unfold CountersBelow; decide +kernel) (by decide +kernel)).2.2

/-- **The bound fails.** With two producers, and so one competitor, a call can lose two rounds,
though no exchange fails without a reason. -/
theorem retries_exceed_competitors :
    ¬ ∀ (z : Pow2Size) (tr tr₁ : List (Event Bool)) (s s₁ : State Bool) (i : Bool) (c : Call)
      (pos : UInt64), (machine z).Run tr s → s.producers i = .loadSeq c pos →
      s.shared.enqueue_pos_ = pos → (machine z).Path s tr₁ s₁ → (∀ d, .call i d ∉ tr₁) →
      (∀ j, .spurious j ∉ tr ++ tr₁) → CountersBelow z (history (tr ++ tr₁)) →
      tr₁.count (.retry i) ≤ Fintype.card {j // j ≠ i} := by
  intro h
  have hbound : (overtaken.get overtaken_isSome).1.count (.retry false) ≤
      Fintype.card {j // j ≠ false} :=
    h twoCells _ _ _ _ false hello 0 (run_small entered_isSome) rfl rfl
      (.of_exec_get overtaken_isSome) overtaken_call (by decide +kernel)
      (by unfold CountersBelow; decide +kernel)
  have hcount : (overtaken.get overtaken_isSome).1.count (.retry false) = 2 := by decide +kernel
  have hcard : Fintype.card {j : Bool // j ≠ false} = 1 := by decide
  rw [hcount, hcard] at hbound
  omega

end MpscRtLogger

end XmSigma
