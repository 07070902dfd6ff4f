import XmSigma.Lib.Progress
import XmSigma.Lib.Word64

/-!
# Waiting until one counter has caught up with another

Two counters only grow, and the lower one is never more than `lag` steps behind the upper one. A
waiter reads both as 64-bit words, one after the other, and stops waiting when the words are equal.
By then either counter may have moved on, even by whole turns of the words. All the same the lower
counter has reached whatever the upper one had reached when the waiter began. And once the two
counters stand at one value, the waiter is through after three steps.

## Main definitions

* `CatchUp.Waiter`: the waiter, step by step
* `CatchUp.Sample`: what the waiter has read so far
* `CatchUp.Sample.Ok`: what that is worth

## Main results

* `CatchUp.reached_of_low`, `CatchUp.reached_of_high`: equal words mean that the goal is reached,
  whichever of the two was read first
* `CatchUp.Waiter.step_ok`: so the waiter stops only when it is reached
* `CatchUp.Waiter.visits_done`: it stops when the counters do
-/

namespace XmSigma

namespace CatchUp

/-- What a waiter has read of the two counters. -/
inductive Sample
  | none
  | low (w : UInt64)
  | high (w : UInt64)
  /-- It read two equal words. -/
  | equal

variable {lag goal lo lo' hi : ℕ}

/-- What the sample is worth when the lower counter is at `lo`: a word read of the lower counter
was its value some time ago, after the upper one had reached the goal; a word read of the upper
counter was its value some time ago, after it had reached the goal itself. -/
def Sample.Ok (lag goal lo : ℕ) : Sample → Prop
  | .none => True
  | .low w => ∃ a ≤ lo, w = .ofNat a ∧ goal ≤ a + lag
  | .high w => ∃ a, w = .ofNat a ∧ goal ≤ a ∧ a ≤ lo + lag
  | .equal => goal ≤ lo

/-- The lower counter may move on. -/
theorem Sample.Ok.mono {r : Sample} (h : r.Ok lag goal lo) (hle : lo ≤ lo') :
    r.Ok lag goal lo' := by
  cases r with
  | none => trivial
  | low w =>
    obtain ⟨a, ha, hw, hgoal⟩ := h
    exact ⟨a, ha.trans hle, hw, hgoal⟩
  | high w =>
    obtain ⟨a, hw, hgoal, ha⟩ := h
    exact ⟨a, hw, hgoal, by omega⟩
  | equal => exact Nat.le_trans h hle

/-- The lower counter is read first. -/
theorem Sample.ok_low (hgoal : goal ≤ hi) (hhi : hi ≤ lo + lag) :
    (Sample.low (.ofNat lo)).Ok lag goal lo :=
  ⟨lo, le_rfl, rfl, by omega⟩

/-- The upper counter is read first. -/
theorem Sample.ok_high (hgoal : goal ≤ hi) (hhi : hi ≤ lo + lag) :
    (Sample.high (.ofNat hi)).Ok lag goal lo :=
  ⟨hi, rfl, hgoal, hhi⟩

/-- The lower counter was read first, and the upper one is now equal to it as a word. If the two
numbers differ, the upper counter has made a whole turn since, and the lower one has followed it
past the goal. -/
theorem reached_of_low {w : UInt64} (hlag : lag ≤ 2 ^ 63) (h : (Sample.low w).Ok lag goal lo)
    (hgoal : goal ≤ hi) (hhi : hi ≤ lo + lag) (hlo : lo ≤ hi) (heq : w = .ofNat hi) :
    goal ≤ lo := by
  obtain ⟨a, ha, hw, hgoal'⟩ := h
  by_cases hturn : hi - a < 2 ^ 64
  · have : a = hi := (ofNat_inj_of_le (ha.trans hlo) hturn).mp (hw.symm.trans heq)
    omega
  · omega

/-- The upper counter was read first, and the lower one is now equal to it as a word. It cannot be
below the number read: it was less than a turn behind it even then. -/
theorem reached_of_high {w : UInt64} (hlag : lag ≤ 2 ^ 63) (h : (Sample.high w).Ok lag goal lo)
    (heq : .ofNat lo = w) : goal ≤ lo := by
  obtain ⟨a, hw, hgoal, ha⟩ := h
  rcases Nat.le_total a lo with hle | hge
  · exact hgoal.trans hle
  · have : lo = a := (ofNat_inj_of_le hge (by omega)).mp (heq.trans hw)
    omega

/-! ### The waiter -/

/-- Where a waiter is. It compares the words in a loop, and reads them in either order. -/
inductive Waiter
  | idle
  | compare
  | low (w : UInt64)
  | high (w : UInt64)
  | done
  deriving DecidableEq

/-- A step of the waiter when the two words are `low` and `high`; `lowFirst` chooses the one read
first. -/
def Waiter.step (low high : UInt64) (lowFirst : Bool) : Waiter → Waiter
  | .idle => .compare
  | .compare => if lowFirst then .low low else .high high
  | .low w => if w ≠ high then .compare else .done
  | .high w => if low ≠ w then .compare else .done
  | .done => .idle

/-- What it has read. -/
def Waiter.sample : Waiter → Sample
  | .idle | .compare => .none
  | .low w => .low w
  | .high w => .high w
  | .done => .equal

/-- **The waiter goes on to read what it may**, and is through only when the goal is reached. -/
theorem Waiter.step_ok {p : Waiter} (hlag : lag ≤ 2 ^ 63) (hgoal : goal ≤ hi)
    (hhi : hi ≤ lo + lag) (hlo : lo ≤ hi) (h : p.sample.Ok lag goal lo) (lowFirst : Bool) :
    (p.step (.ofNat lo) (.ofNat hi) lowFirst).sample.Ok lag goal lo := by
  cases p with
  | idle => trivial
  | compare =>
    cases lowFirst with
    | true => exact Sample.ok_low hgoal hhi
    | false => exact Sample.ok_high hgoal hhi
  | low w =>
    simp only [Waiter.step]
    split
    · trivial
    · next heq => exact reached_of_low hlag h hgoal hhi hlo (not_not.mp heq)
  | high w =>
    simp only [Waiter.step]
    split
    · trivial
    · next heq => exact reached_of_high hlag h (not_not.mp heq)
  | done => trivial

/-- How many steps are left of the loop once both words are `w` for good. -/
def Waiter.left (w : UInt64) : Waiter → ℕ
  | .idle => 3
  | .compare => 2
  | .low w' | .high w' => if w' = w then 1 else 3
  | .done => 0

theorem Waiter.left_le (w : UInt64) (p : Waiter) : p.left w ≤ 3 := by
  cases p with
  | low w' | high w' =>
    simp only [Waiter.left]
    split <;> omega
  | _ => simp [Waiter.left]

theorem Waiter.done_of_left {w : UInt64} {p : Waiter} (h : p.left w = 0) : p = .done := by
  cases p with
  | done => rfl
  | low w' | high w' =>
    simp only [Waiter.left] at h
    split at h <;> cases h
  | _ => cases h

/-- Each step is one of them. -/
theorem Waiter.left_step {w : UInt64} {p : Waiter} (hp : p ≠ .done) (lowFirst : Bool) :
    (p.step w w lowFirst).left w + 1 ≤ p.left w := by
  cases p with
  | compare => cases lowFirst <;> simp [Waiter.step, Waiter.left]
  | low w' =>
    by_cases hw : w' = w <;> simp [Waiter.step, Waiter.left, hw]
  | high w' =>
    by_cases hw : w' = w
    · simp [Waiter.step, Waiter.left, hw]
    · simp [Waiter.step, Waiter.left, hw, Ne.symm hw]
  | done => exact absurd rfl hp
  | idle => exact le_rfl

/-- **The waiter is through in three steps** of its own, once both words stay at one value. -/
theorem Waiter.visits_done {σ α ε : Type*} {M : Machine σ α ε} {s s₁ : σ} {tr : List ε}
    (waiter : σ → Waiter) (own : ε → Bool) (w : UInt64) (h : M.Path s tr s₁)
    (hstep : ∀ {tr₁ s' e s''} rest, tr = tr₁ ++ e :: rest → M.Path s tr₁ s' → M.Step s' e s'' →
      own e = false ∧ waiter s'' = waiter s' ∨
        ∃ lowFirst, waiter s'' = (waiter s').step w w lowFirst)
    (hmany : 3 ≤ tr.countP own) : M.Visits (fun s => waiter s = .done) s tr s₁ := by
  refine h.visits own (fun s => (waiter s).left w) (fun s => Waiter.done_of_left)
    (fun {tr₁ s' e s''} rest htr hp hnot hs => ?_) (((waiter s).left_le w).trans hmany)
  rcases hstep rest htr hp hs with ⟨hother, hsame⟩ | ⟨lowFirst, hnext⟩
  · rw [hother, hsame]
    exact le_rfl
  · have hlower := Waiter.left_step (w := w) hnot lowFirst
    have hone := Bool.toNat_le (own e)
    rw [hnext]
    omega

end CatchUp

end XmSigma
