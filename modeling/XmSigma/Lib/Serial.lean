import XmSigma.Lib.Machine

/-!
# Operations executed one after another

A machine interleaves its threads step by step. Here each operation runs alone, from its first
step until it has settled, before the next one starts. If every operation does to what can be
seen exactly what a function on abstract states says, then so does every sequence of operations.

## Main definitions

* `Machine.Turn`: one operation, executed alone
* `Machine.Serial`: a sequence of operations, with what is seen of each
* `Machine.Foretells`: a function that says what the rest of an operation does
* `observe`: what a function on abstract states shows of the operations

## Main results

* `Machine.Foretells.turn`: an operation can be executed, and does what is foretold
* `Machine.Serial.iff_observe`: a machine that simulates the function shows the same
-/

namespace XmSigma

/-- What the operations show, one by one, when `spec` executes them. -/
def observe {τ ω θ : Type*} (spec : τ → ω → τ × θ) (t : τ) : List ω → List θ
  | [] => []
  | op :: ops => (spec t op).2 :: observe spec (spec t op).1 ops

namespace Machine

variable {σ α ε τ ω ρ θ : Type*} {M : Machine σ α ε} {A : α → Prop} {done : σ → Prop}
  {s s' s₁ : σ} {tr : List ε}

/-- Choices out of `A` are made until the machine is in a state that is `done`. -/
inductive Settles (M : Machine σ α ε) (A : α → Prop) (done : σ → Prop) : σ → List ε → σ → Prop
  | refl {s : σ} (h : done s) : Settles M A done s [] s
  | step {s s₁ s₂ : σ} {a : α} {e : ε} {tr : List ε} (hgo : ¬ done s) (ha : A a)
      (hs : M.step s a = some (s₁, e)) (h : Settles M A done s₁ tr s₂) :
      Settles M A done s (e :: tr) s₂

/-- An operation executed alone: it makes a first step and goes on until it is done. -/
def Turn (M : Machine σ α ε) (A : α → Prop) (done : σ → Prop) (s : σ) (tr : List ε) (s' : σ) :
    Prop :=
  ∃ a s₁ e tr', A a ∧ M.step s a = some (s₁, e) ∧ M.Settles A done s₁ tr' s' ∧ tr = e :: tr'

/-- Operations executed one after another, with what `see` makes of the events and the last state
of each. -/
inductive Serial (M : Machine σ α ε) (A : ω → α → Prop) (done : ω → σ → Prop)
    (see : List ε → σ → θ) : σ → List ω → List θ → Prop
  | nil {s : σ} : Serial M A done see s [] []
  | cons {s s₁ : σ} {op : ω} {ops : List ω} {tr : List ε} {os : List θ}
      (h : M.Turn (A op) (done op) s tr s₁) (hr : Serial M A done see s₁ ops os) :
      Serial M A done see s (op :: ops) (see tr s₁ :: os)

/-! ### An operation that is foretold -/

/-- What the rest of an operation does is foretold: as long as `I` holds, `ahead` says what is left
to report and the state in the end, and there is a step that lowers `μ`. -/
structure Foretells (M : Machine σ α ε) (A : α → Prop) (done : σ → Prop) (report : ε → Option ρ)
    (I : σ → Prop) (ahead : σ → List ρ × σ) (μ : σ → ℕ) : Prop where
  stop {s : σ} : done s → ahead s = ([], s)
  step {s : σ} {a : α} {s' : σ} {e : ε} : ¬ done s → I s → A a → M.step s a = some (s', e) →
    I s' ∧ ahead s = ((report e).toList ++ (ahead s').1, (ahead s').2)
  go {s : σ} : ¬ done s → I s → ∃ a s' e, A a ∧ M.step s a = some (s', e) ∧ μ s' < μ s

variable {report : ε → Option ρ} {I : σ → Prop} {ahead : σ → List ρ × σ} {μ : σ → ℕ} {a : α}
  {e : ε}

/-- What settles has done what was foretold. -/
theorem Foretells.eq (hf : Foretells M A done report I ahead μ) (hI : I s)
    (h : M.Settles A done s tr s') : ahead s = (tr.filterMap report, s') := by
  induction h with
  | refl h => exact hf.stop h
  | step hgo ha hs _ ih =>
    obtain ⟨hI', heq⟩ := hf.step hgo hI ha hs
    rw [heq, ih hI', List.filterMap_cons]
    cases report _ <;> rfl

/-- It can settle. -/
theorem Foretells.exists (hf : Foretells M A done report I ahead μ) (hI : I s) :
    ∃ tr s', M.Settles A done s tr s' := by
  induction hn : μ s using Nat.strongRecOn generalizing s with
  | ind n ih =>
    by_cases hdone : done s
    · exact ⟨_, _, .refl hdone⟩
    · obtain ⟨a, s₁, e, ha, hs, hlt⟩ := hf.go hdone hI
      obtain ⟨tr, s', h⟩ := ih (μ s₁) (hn ▸ hlt) (hf.step hdone hI ha hs).1 rfl
      exact ⟨_, _, .step hdone ha hs h⟩

/-- **An operation with only one way to begin**, whose first step reports nothing, does what its
rest is foretold to do. -/
theorem Foretells.turn (hf : Foretells M A done report I ahead μ) (ha : A a)
    (hs : M.step s a = some (s₁, e)) (honly : ∀ {b x}, A b → M.step s b = some x → x = (s₁, e))
    (he : report e = none) (hI : I s₁) :
    (∃ tr s', M.Turn A done s tr s') ∧
      ∀ {tr s'}, M.Turn A done s tr s' →
        tr.filterMap report = (ahead s₁).1 ∧ s' = (ahead s₁).2 := by
  constructor
  · obtain ⟨tr, s', h⟩ := hf.exists hI
    exact ⟨_, _, a, s₁, e, tr, ha, hs, h, rfl⟩
  · rintro _ s' ⟨b, s₁', e', tr, hb, hs', h, rfl⟩
    obtain ⟨rfl, rfl⟩ := Prod.mk.inj (honly hb hs')
    rw [List.filterMap_cons_none he, hf.eq hI h]
    exact ⟨rfl, rfl⟩

/-- An operation that takes one step. -/
theorem Turn.single (done : σ → Prop) (ha : A a) (hs : M.step s a = some (s₁, e))
    (honly : ∀ {b x}, A b → M.step s b = some x → x = (s₁, e)) (hdone : done s₁) :
    (∃ tr s', M.Turn A done s tr s') ∧
      ∀ {tr s'}, M.Turn A done s tr s' → tr = [e] ∧ s' = s₁ := by
  constructor
  · exact ⟨_, _, a, s₁, e, [], ha, hs, .refl hdone, rfl⟩
  · rintro _ s' ⟨b, s₁', e', tr, hb, hs', h, rfl⟩
    obtain ⟨rfl, rfl⟩ := Prod.mk.inj (honly hb hs')
    cases h with
    | refl => exact ⟨rfl, rfl⟩
    | step hgo => exact absurd hdone hgo

/-! ### Operations in sequence -/

/-- **Simulation.** If related states stay related under every operation, which can always be
executed and shows what `spec` says, then sequences of operations show what `spec` says. -/
theorem Serial.iff_observe {A : ω → α → Prop} {done : ω → σ → Prop} {see : List ε → σ → θ}
    {spec : τ → ω → τ × θ} {R : σ → τ → Prop}
    (hsim : ∀ {s t} op, R s t → (∃ tr s₁, M.Turn (A op) (done op) s tr s₁) ∧
      ∀ {tr s₁}, M.Turn (A op) (done op) s tr s₁ →
        see tr s₁ = (spec t op).2 ∧ R s₁ (spec t op).1)
    {t : τ} (h : R s t) (ops : List ω) (os : List θ) :
    M.Serial A done see s ops os ↔ os = observe spec t ops := by
  constructor
  · intro hserial
    induction hserial generalizing t with
    | nil => rfl
    | cons hturn _ ih =>
      obtain ⟨hsee, hnext⟩ := (hsim _ h).2 hturn
      rw [observe, hsee, ih hnext]
  · rintro rfl
    induction ops generalizing s t with
    | nil => exact .nil
    | cons op ops ih =>
      obtain ⟨⟨tr, s₁, hturn⟩, hall⟩ := hsim op h
      obtain ⟨hsee, hnext⟩ := hall hturn
      rw [observe, ← hsee]
      exact .cons hturn (ih hnext)

end Machine

end XmSigma
