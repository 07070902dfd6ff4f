import XmSigma.Lib.Machine

/-!
# How many steps it takes

A machine has no clock. What can be bounded is how many steps one of its threads takes, whatever
the others do in between: a number that its steps lower and the steps of the others do not raise
bounds them, and where the thread is never stuck, it gets to where the number cannot fall further.

## Main definitions

* `Machine.Visits`: the paths on which some state is of a kind

## Main results

* `Machine.Path.along`: induction over a path whose steps may look at the whole of it
* `Machine.Path.steps_le`: a bound on the number of steps of one kind
* `Machine.Path.reaches`: enough steps of one kind reach a goal
* `Machine.Path.counts`: enough steps of one kind bring a counter up to a number
* `Machine.Path.visits`: enough steps of one kind lead through a state of a kind
-/

namespace XmSigma

namespace Machine

variable {σ α ε : Type*} {M : Machine σ α ε} {P Q : σ → Prop} {s s₁ s₂ : σ} {e : ε} {tr : List ε}

/-- **Induction along a path.** Each step knows the path up to it, and where in the whole path it
is. -/
theorem Path.along {I : List ε → σ → Prop} (h : M.Path s tr s₁) (h₀ : I [] s)
    (hstep : ∀ {tr₁ s' e s''} rest, tr = tr₁ ++ e :: rest → M.Path s tr₁ s' → I tr₁ s' →
      M.Step s' e s'' → I (tr₁ ++ [e]) s'') : I tr s₁ := by
  suffices hall : ∀ {tr' s'}, M.Path s tr' s' → ∀ rest, tr = tr' ++ rest → I tr' s' from
    hall h [] (List.append_nil tr).symm
  intro tr' s' h'
  induction h' with
  | refl => exact fun _ _ => h₀
  | @snoc tr₁ e s₁ s₂ hp hs ih =>
    intro rest htr
    have htr' : tr = tr₁ ++ e :: rest := by rw [htr, List.append_assoc, List.singleton_append]
    exact hstep rest htr' hp (ih _ htr') hs

theorem countP_snoc (own : ε → Bool) (tr : List ε) (e : ε) :
    (tr ++ [e]).countP own = tr.countP own + (own e).toNat := by
  rw [List.countP_append, List.countP_singleton]
  cases own e <;> rfl

/-- **A bound on the steps of one kind.** They lower a number that no other step raises. -/
theorem Path.steps_le (own : ε → Bool) (μ : List ε → σ → ℕ) (h : M.Path s tr s₁)
    (hstep : ∀ {tr₁ s' e s''} rest, tr = tr₁ ++ e :: rest → M.Path s tr₁ s' → M.Step s' e s'' →
      μ (tr₁ ++ [e]) s'' + (own e).toNat ≤ μ tr₁ s') :
    tr.countP own + μ tr s₁ ≤ μ [] s := by
  refine h.along (I := fun tr₁ s' => tr₁.countP own + μ tr₁ s' ≤ μ [] s) (by simp)
    fun {tr₁ s' e s''} rest htr hp hle hs => ?_
  have hlower := hstep rest htr hp hs
  rw [countP_snoc]
  omega

/-- **Enough steps of one kind reach a goal.** Until it is reached they lower a number that no other
step raises; once reached it stays. -/
theorem Path.reaches (own : ε → Bool) (goal : List ε → σ → Prop) (μ : List ε → σ → ℕ)
    (h : M.Path s tr s₁)
    (hstable : ∀ {tr₁ s' e s''} rest, tr = tr₁ ++ e :: rest → M.Path s tr₁ s' → goal tr₁ s' →
      M.Step s' e s'' → goal (tr₁ ++ [e]) s'')
    (hstep : ∀ {tr₁ s' e s''} rest, tr = tr₁ ++ e :: rest → M.Path s tr₁ s' → ¬ goal tr₁ s' →
      M.Step s' e s'' →
      goal (tr₁ ++ [e]) s'' ∨ μ (tr₁ ++ [e]) s'' + (own e).toNat ≤ μ tr₁ s')
    (hmany : μ [] s ≤ tr.countP own) : goal tr s₁ ∨ μ tr s₁ = 0 := by
  have hall : goal tr s₁ ∨ tr.countP own + μ tr s₁ ≤ μ [] s := by
    refine h.along (I := fun tr₁ s' => goal tr₁ s' ∨ tr₁.countP own + μ tr₁ s' ≤ μ [] s)
      (.inr (by simp)) fun {tr₁ s' e s''} rest htr hp hcase hs => ?_
    by_cases hgoal : goal tr₁ s'
    · exact .inl (hstable rest htr hp hgoal hs)
    · rcases hstep rest htr hp hgoal hs with hreached | hlower
      · exact .inl hreached
      · have hle := hcase.resolve_left hgoal
        right
        rw [countP_snoc]
        omega
  refine hall.imp_right fun hle => ?_
  omega

/-- **Enough steps of one kind bring a counter up to `n`**, if `left k` is the number of them that
it takes to raise it by `k`. -/
theorem Path.counts (own : ε → Bool) (count : List ε → ℕ) (left : ℕ → σ → ℕ) (n : ℕ)
    (h : M.Path s tr s₁) (hmono : ∀ tr e, count tr ≤ count (tr ++ [e]))
    (hstep : ∀ {tr₁ s' e s''} rest, tr = tr₁ ++ e :: rest → M.Path s tr₁ s' → count tr₁ < n →
      M.Step s' e s'' →
      left (n - count (tr₁ ++ [e])) s'' + (own e).toNat ≤ left (n - count tr₁) s')
    (hpos : ∀ k, 0 < k → 0 < left k s₁) (hmany : left (n - count []) s ≤ tr.countP own) :
    n ≤ count tr := by
  have hreach := h.reaches own (fun tr _ => n ≤ count tr) (fun tr s => left (n - count tr) s)
    (fun {tr₁ _ e _} _ _ _ hgoal _ => Nat.le_trans hgoal (hmono tr₁ e))
    (fun rest htr hp hgoal hs => .inr (hstep rest htr hp (Nat.not_le.mp hgoal) hs)) hmany
  by_contra hnot
  exact Nat.ne_of_gt (hpos (n - count tr) (by omega)) (hreach.resolve_left hnot)

/-! ### States on the way -/

/-- On the way from `s` to `s₁` there is a state of the kind `P`. -/
def Visits (M : Machine σ α ε) (P : σ → Prop) (s : σ) (tr : List ε) (s₁ : σ) : Prop :=
  ∃ tr₁ tr₂ s', tr = tr₁ ++ tr₂ ∧ M.Path s tr₁ s' ∧ M.Path s' tr₂ s₁ ∧ P s'

theorem Visits.of_last (h : M.Path s tr s₁) (hP : P s₁) : M.Visits P s tr s₁ :=
  ⟨tr, [], s₁, (List.append_nil tr).symm, h, .refl, hP⟩

theorem Visits.snoc (h : M.Visits P s tr s₁) (hs : M.Step s₁ e s₂) :
    M.Visits P s (tr ++ [e]) s₂ := by
  obtain ⟨tr₁, tr₂, s', rfl, hp, hp', hP⟩ := h
  exact ⟨tr₁, tr₂ ++ [e], s', List.append_assoc .., hp, hp'.snoc hs, hP⟩

theorem Visits.imp (h : M.Visits P s tr s₁) (hPQ : ∀ s, P s → Q s) : M.Visits Q s tr s₁ := by
  obtain ⟨tr₁, tr₂, s', htr, hp, hp', hP⟩ := h
  exact ⟨tr₁, tr₂, s', htr, hp, hp', hPQ s' hP⟩

/-- **Enough steps of one kind lead through a state of the kind `P`**, if they lower a number that
no other step raises, and it is zero only in such states. -/
theorem Path.visits (own : ε → Bool) (μ : σ → ℕ) (h : M.Path s tr s₁)
    (hzero : ∀ s, μ s = 0 → P s)
    (hstep : ∀ {tr₁ s' e s''} rest, tr = tr₁ ++ e :: rest → M.Path s tr₁ s' → ¬ P s' →
      M.Step s' e s'' → μ s'' + (own e).toNat ≤ μ s')
    (hmany : μ s ≤ tr.countP own) : M.Visits P s tr s₁ := by
  have hreach := h.reaches own (M.Visits P s) (fun _ s => μ s)
    (fun _ _ _ hvisits hs => hvisits.snoc hs)
    (fun rest htr hp hnot hs => .inr (hstep rest htr hp (fun hP => hnot (.of_last hp hP)) hs))
    hmany
  exact hreach.elim id fun hend => .of_last h (hzero s₁ hend)

end Machine

end XmSigma
