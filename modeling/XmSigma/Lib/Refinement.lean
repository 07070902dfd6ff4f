import XmSigma.Lib.Machine

/-!
# Refinement of machines

Of a run an observer sees the events that a view shows him; the other steps are hidden. One machine
refines another if all that can be seen of it can be seen of the other. This follows, step by step,
from a relation between the states: each step of the one is answered by a path of the other that
shows the same, of any length, and possibly of none.

The relation may speak of the events on both sides. A property of the events that holds of every
shorter path, such as a bound on how many there are of a kind, may be assumed.

## Main definitions

* `Machine.Shows`: what can be seen of a machine
* `Machine.CanShow`: a path that answers a step

## Main results

* `Machine.Path.simulated`: the rule of simulation
-/

namespace XmSigma

namespace Machine

variable {σ α ε τ β ζ ο : Type*} {M : Machine σ α ε} {A : Machine τ β ζ} {s s₁ : σ} {a : τ}
  {tr : List ε}

/-- What can be seen of the paths from a state. -/
def Shows (M : Machine σ α ε) (view : ε → Option ο) (s : σ) (os : List ο) : Prop :=
  ∃ tr s₁, M.Path s tr s₁ ∧ tr.filterMap view = os

/-- From `s` the machine can show just `o`, and come to where `Q` holds of what it did and of its
state. -/
def CanShow (M : Machine σ α ε) (view : ε → Option ο) (s : σ) (o : Option ο)
    (Q : List ε → σ → Prop) : Prop :=
  ∃ tr s₁, M.Path s tr s₁ ∧ tr.filterMap view = o.toList ∧ Q tr s₁

theorem filterMap_singleton (view : ε → Option ο) (e : ε) :
    [e].filterMap view = (view e).toList := by
  cases hv : view e <;> simp [hv]

/-- One step is enough. -/
theorem CanShow.of_step {view : ε → Option ο} {Q : List ε → σ → Prop} {e : ε} (hs : M.Step s e s₁)
    (hQ : Q [e] s₁) : M.CanShow view s (view e) Q :=
  ⟨[e], s₁, hs.path, filterMap_singleton view e, hQ⟩

/-- **The rule of simulation.** If related states stay related when a step is answered by a path
that shows the same, then a path is answered by a path that shows the same. -/
theorem Path.simulated {v : ε → Option ο} {w : ζ → Option ο} {P : List ε → Prop}
    {R : List ε → σ → List ζ → τ → Prop} (h : M.Path s tr s₁) (hP : P tr)
    (hshorter : ∀ {tr e}, P (tr ++ [e]) → P tr) (h₀ : R [] s [] a)
    (hstep : ∀ {tr s₁ e s₂ tr' a₁}, M.Path s tr s₁ → A.Path a tr' a₁ → P (tr ++ [e]) →
      R tr s₁ tr' a₁ → M.Step s₁ e s₂ →
        A.CanShow w a₁ (v e) fun tr₁ a₂ => R (tr ++ [e]) s₂ (tr' ++ tr₁) a₂) :
    ∃ tr' a₁, A.Path a tr' a₁ ∧ tr'.filterMap w = tr.filterMap v ∧ R tr s₁ tr' a₁ := by
  induction h with
  | refl => exact ⟨[], a, .refl, rfl, h₀⟩
  | @snoc tr e s₁ s₂ h hs ih =>
    obtain ⟨tr', a₁, ha, hview, hR⟩ := ih (hshorter hP)
    obtain ⟨tr₁, a₂, ha₁, hview₁, hR₁⟩ := hstep h ha hP hR hs
    refine ⟨tr' ++ tr₁, a₂, ha.append ha₁, ?_, hR₁⟩
    rw [List.filterMap_append, List.filterMap_append, hview, hview₁, filterMap_singleton]

end Machine

end XmSigma
