import Mathlib.Data.List.Basic

/-!
# Machines that take atomic steps

A machine is an executable step function: from a state and a choice of the scheduler it goes to
the next state and says what was done, or refuses the choice. Everything that holds of any
interleaving is a statement about its runs, and every history a property mentions (what was
sent, how often something was counted) is read off the events of the run, so that the states
carry no ghost data.

## Main definitions

* `Machine.Path`, `Machine.Run`: finite executions with their events
* `Machine.exec`: the execution of a given list of choices
* `Machine.annotate`: the machine that says more about its steps

## Main results

* `Machine.Path.rule`: what one step preserves, a path preserves; the step may assume a property
  of the events
* `Machine.Run.rule`: the same from the initial states
* `Machine.Run.rule_from`: the same from a reachable state on
* `Machine.Path.of_exec`: an executed schedule is a path
* `Machine.Path.annotate`: every path can be annotated
-/

namespace XmSigma

/-- A machine over states `σ`, scheduler choices `α` and events `ε`. -/
structure Machine (σ α ε : Type*) where
  /-- The states a run may start in. -/
  init : σ → Prop
  /-- One atomic step, or `none` where the choice is not enabled. -/
  step : σ → α → Option (σ × ε)

namespace Machine

variable {σ α ε : Type*} {M : Machine σ α ε} {s s₁ s₂ s₃ : σ} {e : ε} {tr tr₁ tr₂ : List ε}

/-- One step, whatever the scheduler chose. -/
def Step (M : Machine σ α ε) (s : σ) (e : ε) (s' : σ) : Prop :=
  ∃ a, M.step s a = some (s', e)

/-- The finite executions from `s`, with the events they emit. -/
inductive Path (M : Machine σ α ε) (s : σ) : List ε → σ → Prop
  | refl : Path M s [] s
  | snoc {tr : List ε} {e : ε} {s₁ s₂ : σ} (h : Path M s tr s₁) (hs : M.Step s₁ e s₂) :
      Path M s (tr ++ [e]) s₂

/-- The executions that start in an initial state. -/
def Run (M : Machine σ α ε) (tr : List ε) (s : σ) : Prop :=
  ∃ s₀, M.init s₀ ∧ M.Path s₀ tr s

/-! ### Composing paths -/

theorem Step.path (h : M.Step s e s₁) : M.Path s [e] s₁ := .snoc .refl h

theorem Path.append (h₁ : M.Path s tr₁ s₁) (h₂ : M.Path s₁ tr₂ s₂) :
    M.Path s (tr₁ ++ tr₂) s₂ := by
  induction h₂ with
  | refl => simpa using h₁
  | snoc _ hs ih => rw [← List.append_assoc]; exact ih.snoc hs

theorem Path.cons (h : M.Step s e s₁) (h₂ : M.Path s₁ tr s₂) : M.Path s (e :: tr) s₂ :=
  h.path.append h₂

theorem Run.append (h₁ : M.Run tr₁ s₁) (h₂ : M.Path s₁ tr₂ s₂) : M.Run (tr₁ ++ tr₂) s₂ := by
  obtain ⟨s₀, h₀, hp⟩ := h₁
  exact ⟨s₀, h₀, hp.append h₂⟩

theorem Run.snoc (h : M.Run tr s) (hs : M.Step s e s₁) : M.Run (tr ++ [e]) s₁ :=
  h.append hs.path

/-! ### Induction over executions -/

/-- **The rule of paths.** A property of the events so far and the state holds after a path if
it holds before it and every step preserves it; each step may assume of its event what is known
of all events of the path. -/
theorem Path.rule {Q : ε → Prop} {I : List ε → σ → Prop}
    (h : M.Path s tr s₁) (hQ : ∀ e ∈ tr, Q e) (h₀ : I [] s)
    (hstep : ∀ {tr s e s'}, Q e → I tr s → M.Step s e s' → I (tr ++ [e]) s') : I tr s₁ := by
  induction h with
  | refl => exact h₀
  | snoc _ hs ih =>
    exact hstep (hQ _ (by simp)) (ih fun e he => hQ e (by simp [he])) hs

/-- **The rule of runs.** -/
theorem Run.rule {I : List ε → σ → Prop} (h : M.Run tr s) (h₀ : ∀ s, M.init s → I [] s)
    (hstep : ∀ {tr s e s'}, I tr s → M.Step s e s' → I (tr ++ [e]) s') : I tr s := by
  obtain ⟨s₀, hi, hp⟩ := h
  exact hp.rule (Q := fun _ => True) (fun _ _ => trivial) (h₀ s₀ hi) fun _ => hstep

/-- An invariant of the runs may be used while another one is established. -/
theorem Run.rule_of {I J : List ε → σ → Prop} (h : M.Run tr s)
    (hJ : ∀ {tr s}, M.Run tr s → J tr s) (h₀ : ∀ s, M.init s → I [] s)
    (hstep : ∀ {tr s e s'}, J tr s → I tr s → M.Step s e s' → I (tr ++ [e]) s') : I tr s := by
  obtain ⟨s₀, hi, hp⟩ := h
  induction hp with
  | refl => exact h₀ s₀ hi
  | snoc hp hs ih => exact hstep (hJ ⟨s₀, hi, hp⟩) ih hs

/-- **The rule of runs from a state on.** What begins to hold in a state of a run goes on to hold
if every step preserves it; the step may use that its state is reachable, and assume of its event
what is known of all events from there on. -/
theorem Run.rule_from {Q : ε → Prop} {I : List ε → σ → Prop} (h : M.Run tr s)
    (hp : M.Path s tr₁ s₁) (hQ : ∀ e ∈ tr₁, Q e) (h₀ : I [] s)
    (hstep : ∀ {tr₁ s e s'}, M.Run (tr ++ tr₁) s → Q e → I tr₁ s → M.Step s e s' →
      I (tr₁ ++ [e]) s') : I tr₁ s₁ := by
  induction hp with
  | refl => exact h₀
  | snoc hp hs ih =>
    exact hstep (h.append hp) (hQ _ (by simp)) (ih fun e he => hQ e (by simp [he])) hs

/-! ### Executing a schedule -/

/-- Execute the choices in turn; `none` if one of them is refused. -/
def exec (M : Machine σ α ε) (s : σ) : List α → Option (List ε × σ)
  | [] => some ([], s)
  | a :: as => do
    let (s₁, e) ← M.step s a
    let (tr, s₂) ← M.exec s₁ as
    return (e :: tr, s₂)

theorem exec_snoc (M : Machine σ α ε) (s : σ) (as : List α) (a : α) :
    M.exec s (as ++ [a]) =
      (M.exec s as).bind fun x => (M.step x.2 a).map fun y => (x.1 ++ [y.2], y.1) := by
  induction as generalizing s with
  | nil =>
    rw [List.nil_append, exec, exec, Option.bind_some]
    cases M.step s a <;> simp [exec]
  | cons a' as ih =>
    simp only [List.cons_append, exec]
    cases M.step s a' with
    | none => rfl
    | some x =>
      simp only [Option.bind_eq_bind, Option.bind_some, ih]
      cases M.exec x.1 as with
      | none => rfl
      | some y => cases h : M.step y.2 a <;> simp [h]

theorem Path.of_exec {as : List α} (h : M.exec s as = some (tr, s₁)) : M.Path s tr s₁ := by
  induction as generalizing s tr with
  | nil =>
    obtain ⟨rfl, rfl⟩ : [] = tr ∧ s = s₁ := by simpa [exec] using h
    exact .refl
  | cons a as ih =>
    simp only [exec, Option.bind_eq_bind, Option.bind_eq_some_iff, Option.pure_def,
      Option.some.injEq, Prod.mk.injEq] at h
    obtain ⟨⟨s₂, e⟩, ha, ⟨tr', s₃⟩, has, rfl, rfl⟩ := h
    exact .cons ⟨a, ha⟩ (ih has)

/-- A schedule that is not refused is a path to the state it ends in. -/
theorem Path.of_exec_get {as : List α} (h : (M.exec s as).isSome) :
    M.Path s ((M.exec s as).get h).1 ((M.exec s as).get h).2 :=
  .of_exec (Option.some_get h).symm

/-! ### Annotated steps -/

variable {β : Type*} {note : σ → α → β}

/-- The machine that also reports what `note` says of each step. -/
def annotate (M : Machine σ α ε) (note : σ → α → β) : Machine σ α (ε × β) where
  init := M.init
  step s a := (M.step s a).map fun x => (x.1, x.2, note s a)

theorem annotate_step_iff {b : β} :
    (M.annotate note).Step s (e, b) s₁ ↔ ∃ a, M.step s a = some (s₁, e) ∧ note s a = b := by
  refine exists_congr fun a => ?_
  simp only [annotate, Option.map_eq_some_iff, Prod.exists, Prod.mk.injEq]
  constructor
  · rintro ⟨s', e', hs, rfl, rfl, hb⟩
    exact ⟨hs, hb⟩
  · rintro ⟨hs, hb⟩
    exact ⟨s₁, e, hs, rfl, rfl, hb⟩

/-- The annotations may be left out. -/
theorem Run.of_annotate {tr : List (ε × β)} (h : (M.annotate note).Run tr s) :
    M.Run (tr.map Prod.fst) s := by
  obtain ⟨s₀, h₀, hp⟩ := h
  refine ⟨s₀, h₀, ?_⟩
  induction hp with
  | refl => exact .refl
  | @snoc tr e s₁ s₂ _ hs ih =>
    obtain ⟨a, ha, -⟩ := annotate_step_iff.mp hs
    rw [List.map_append]
    exact ih.snoc ⟨a, ha⟩

/-- **Every path can be annotated.** -/
theorem Path.annotate (h : M.Path s tr s₁) (note : σ → α → β) :
    ∃ tr', (M.annotate note).Path s tr' s₁ ∧ tr'.map Prod.fst = tr := by
  induction h with
  | refl => exact ⟨[], .refl, rfl⟩
  | @snoc tr e s₁ s₂ _ hs ih =>
    obtain ⟨tr', h', rfl⟩ := ih
    obtain ⟨a, ha⟩ := hs
    exact ⟨_, h'.snoc (annotate_step_iff.mpr ⟨a, ha, rfl⟩), by rw [List.map_append]; rfl⟩

theorem Run.annotate (h : M.Run tr s) (note : σ → α → β) :
    ∃ tr', (M.annotate note).Run tr' s ∧ tr'.map Prod.fst = tr := by
  obtain ⟨s₀, h₀, hp⟩ := h
  obtain ⟨tr', hp', htr⟩ := hp.annotate note
  exact ⟨tr', ⟨s₀, h₀, hp'⟩, htr⟩

/-- Every annotation is that of some step. -/
theorem Run.exists_note {tr : List (ε × β)} (h : (M.annotate note).Run tr s) {b : β}
    (hb : (e, b) ∈ tr) : ∃ s a s', M.step s a = some (s', e) ∧ note s a = b := by
  refine h.rule
    (I := fun tr _ => (e, b) ∈ tr → ∃ s a s', M.step s a = some (s', e) ∧ note s a = b)
    (fun _ _ => nofun) (fun {tr s x s'} ih hs hmem => ?_) hb
  rcases List.mem_append.mp hmem with hmem | hmem
  · exact ih hmem
  · obtain rfl := List.mem_singleton.mp hmem
    obtain ⟨a, ha, hb⟩ := annotate_step_iff.mp hs
    exact ⟨s, a, s', ha, hb⟩

end Machine

end XmSigma
