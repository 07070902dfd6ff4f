import XmSigma.Lib.Past
import XmSigma.Lib.Refinement
import XmSigma.Logging.Record
import Mathlib.Logic.Function.Basic

/-!
# What can be seen of a logger, and its level test

The calls, how they return, the records handed on and the levels that are set. `Log` and `SetLevel`
may overlap, so a call is not tested against the level at its beginning, nor against the one at its
return. It is tested against one that was in force in between, and dealt with accordingly.

That is nothing about rings. What a logger must do for it is said by `LevelMove`: test a call once,
before it does anything that shows, and keep to the answer.

## Main definitions

* `Sight`: what can be seen of a logger
* `Sight.Judged`: a call is dealt with as a level says that was in force while it was made
* `LevelMove`: what a step may do to the level and to the calls

## Main results

* `always_judged`: whatever makes only such steps deals with every call so
-/

namespace XmSigma

/-- What can be seen of a logger that is shared by the producers of `ι`. -/
inductive Sight (ι : Type*)
  | call (i : ι) (c : Call)
  | suppress (i : ι) (c : Call)
  | drop (i : ι) (c : Call)
  | publish (i : ι) (c : Call)
  | forward (r : SinkRecord)
  | setLevel (level : LogLevel)
  deriving DecidableEq

/-! ### Calls and levels -/

namespace Sight

variable {ι : Type*}

/-- The producer that is seen. -/
def owner : Sight ι → Option ι
  | .call i _ | .suppress i _ | .drop i _ | .publish i _ => some i
  | .forward _ | .setLevel _ => none

/-- How many calls were begun. -/
def calls (os : List (Sight ι)) : ℕ :=
  os.countP fun o => match o with | .call _ _ => true | _ => false

theorem calls_append (os os' : List (Sight ι)) : calls (os ++ os') = calls os + calls os' :=
  List.countP_append

/-- The level in force after what was seen, `level` being that of the new logger. -/
def levelAfter (level : LogLevel) (os : List (Sight ι)) : LogLevel :=
  os.foldl (fun level o => match o with | .setLevel level' => level' | _ => level) level

theorem levelAfter_snoc (level : LogLevel) (os : List (Sight ι)) (o : Sight ι) :
    levelAfter level (os ++ [o]) = match o with
      | .setLevel level' => level'
      | _ => levelAfter level os := by
  rw [levelAfter, List.foldl_append]
  cases o <;> rfl

/-- The last that was seen of producer `i` is that it began call `c`, and at some moment since then
the level in force met `P`. -/
def Met (level : LogLevel) (P : LogLevel → Prop) (i : ι) (c : Call) (os : List (Sight ι)) : Prop :=
  ∃ pre mid post, os = pre ++ .call i c :: (mid ++ post) ∧
    (∀ o ∈ mid ++ post, o.owner ≠ some i) ∧ P (levelAfter level (pre ++ .call i c :: mid))

/-- A call is dealt with as a level says that was in force while it was made. -/
def Judged (level : LogLevel) (os : List (Sight ι)) : Sight ι → Prop
  | .suppress i c => Met level (c.level < ·) i c os
  | .drop i c | .publish i c => Met level (¬ c.level < ·) i c os
  | _ => True

variable {level : LogLevel} {P : LogLevel → Prop} {i : ι} {c : Call} {os : List (Sight ι)}
  {o : Sight ι}

theorem Met.call (h : P (levelAfter level os)) : Met level P i c (os ++ [.call i c]) := by
  refine ⟨os, [], [], rfl, fun _ => nofun, ?_⟩
  rwa [levelAfter_snoc]

theorem Met.snoc (h : Met level P i c os) (ho : o.owner ≠ some i) :
    Met level P i c (os ++ [o]) := by
  obtain ⟨pre, mid, post, rfl, hothers, hP⟩ := h
  refine ⟨pre, mid, post ++ [o], by simp, fun o' ho' => ?_, hP⟩
  rw [← List.append_assoc, List.mem_append, List.mem_singleton] at ho'
  rcases ho' with ho' | rfl
  · exact hothers o' ho'
  · exact ho

/-- The present moment is one of them. -/
theorem Met.now (h : Met level (fun _ => True) i c os) (hP : P (levelAfter level os)) :
    Met level P i c os := by
  obtain ⟨pre, mid, post, rfl, hothers, -⟩ := h
  exact ⟨pre, mid ++ post, [], by simp, by simpa using hothers, hP⟩

/-- The call that is seen to be suppressed. -/
def suppressed : Sight ι → Option (ι × Call)
  | .suppress i c => some (i, c)
  | _ => none

/-- Each of them was below a level that was in force while it was made. -/
theorem met_of_suppressed (h : Past.Always (Judged level) os) {before after : List (ι × Call)}
    (hc : os.filterMap suppressed = before ++ (i, c) :: after) :
    ∃ os₁ os₂, os = os₁ ++ .suppress i c :: os₂ ∧ os₁.filterMap suppressed = before ∧
      Met level (c.level < ·) i c os₁ := by
  obtain ⟨os₁, rest, rfl, rfl, hrest⟩ := List.filterMap_eq_append_iff.mp hc
  obtain ⟨os₂, o, os₃, rfl, hnone, ho, -⟩ := List.filterMap_eq_cons_iff.mp hrest
  cases o with
  | suppress j d =>
    cases ho
    rw [← List.append_assoc] at h ⊢
    refine ⟨os₁ ++ os₂, os₃, rfl, ?_, h.mid⟩
    rw [List.filterMap_append, List.filterMap_eq_nil_iff.mpr hnone, List.append_nil]
  | _ => cases ho

end Sight

/-! ### How calls go on -/

/-- How far a producer is with its call. -/
inductive Phase
  | idle
  | entered (c : Call)
  /-- The level test is passed. -/
  | admitted (c : Call)
  /-- The queue was full. -/
  | refused (c : Call)
  /-- A place is reserved. -/
  | writing (c : Call)
  deriving DecidableEq

/-- The call that is made, and what a level has said of it. -/
def Phase.test : Phase → Option (Call × (LogLevel → Prop))
  | .idle => none
  | .entered c => some (c, fun _ => True)
  | .admitted c | .refused c | .writing c => some (c, (¬ c.level < ·))

section
variable {ι : Type*} {level : LogLevel} {os : List (Sight ι)} {i : ι} {p : Phase} {o : Sight ι}
  {c : Call} {P : LogLevel → Prop}

/-- What was seen of a producer. -/
def Phase.Met (level : LogLevel) (os : List (Sight ι)) (i : ι) (p : Phase) : Prop :=
  ∀ c P, p.test = some (c, P) → Sight.Met level P i c os

theorem Phase.Met.intro (h : Sight.Met level P i c os) (hp : p.test = some (c, P)) :
    p.Met level os i := by
  intro c' P' hp'
  obtain ⟨rfl, rfl⟩ := Prod.mk.inj (Option.some.inj (hp.symm.trans hp'))
  exact h

theorem Phase.Met.snoc (h : p.Met level os i) (ho : o.owner ≠ some i) :
    p.Met level (os ++ [o]) i :=
  fun c P hp => (h c P hp).snoc ho

end

/-- What a step may do to the level and to the calls, if it shows `o`. -/
inductive LevelMove {ι : Type*} [DecidableEq ι] (level : LogLevel) (phase : ι → Phase) :
    Option (Sight ι) → LogLevel → (ι → Phase) → Prop
  | call {i : ι} {c : Call} (hi : phase i = .idle) :
    LevelMove level phase (some (.call i c)) level (Function.update phase i (.entered c))
  | suppress {i : ι} {c : Call} (hi : phase i = .entered c) (hlt : c.level < level) :
    LevelMove level phase (some (.suppress i c)) level (Function.update phase i .idle)
  | pass {i : ι} {c : Call} (hi : phase i = .entered c) (hge : ¬ c.level < level) :
    LevelMove level phase none level (Function.update phase i (.admitted c))
  /-- A call that was tested goes on. -/
  | proceed {i : ι} {p : Phase} (hi : (phase i).test = p.test) :
    LevelMove level phase none level (Function.update phase i p)
  | drop {i : ι} {c : Call} (hi : phase i = .refused c) :
    LevelMove level phase (some (.drop i c)) level (Function.update phase i .idle)
  | publish {i : ι} {c : Call} (hi : phase i = .writing c) :
    LevelMove level phase (some (.publish i c)) level (Function.update phase i .idle)
  | forward (r : SinkRecord) : LevelMove level phase (some (.forward r)) level phase
  | setLevel (level' : LogLevel) : LevelMove level phase (some (.setLevel level')) level' phase
  | quiet : LevelMove level phase none level phase

/-! ### Every call is judged by a level in force -/

/-- What is seen of the calls agrees with the levels. -/
structure Attested {ι : Type*} (level₀ : LogLevel) (os : List (Sight ι)) (level : LogLevel)
    (phase : ι → Phase) : Prop where
  level_eq : level = Sight.levelAfter level₀ os
  met : ∀ i, (phase i).Met level₀ os i
  judged : Past.Always (Sight.Judged level₀) os

section
variable {ι : Type*} {level₀ level level' : LogLevel} {os : List (Sight ι)} {o : Sight ι}
  {i : ι} {p : Phase} {phase phase' : ι → Phase}

/-- A step of no producer that is seen. -/
theorem Attested.snoc (h : Attested level₀ os level phase) (howner : o.owner = none)
    (hlevel : level' = Sight.levelAfter level₀ (os ++ [o])) (ho : o.Judged level₀ os) :
    Attested level₀ (os ++ [o]) level' phase where
  level_eq := hlevel
  met j := (h.met j).snoc (by simp [howner])
  judged := (Past.always_snoc _ _ _).mpr ⟨h.judged, ho⟩

variable [DecidableEq ι]

/-- A step of producer `i` that cannot be seen. -/
theorem Attested.update (h : Attested level₀ os level phase) (hp : p.Met level₀ os i) :
    Attested level₀ os level (Function.update phase i p) where
  level_eq := h.level_eq
  met j := by
    by_cases hji : j = i
    · subst hji
      simpa only [Function.update_self] using hp
    · simpa only [Function.update_of_ne hji] using h.met j
  judged := h.judged

/-- A step of producer `i` that is seen. -/
theorem Attested.snoc_update (h : Attested level₀ os level phase) (howner : o.owner = some i)
    (hp : p.Met level₀ (os ++ [o]) i) (ho : o.Judged level₀ os) :
    Attested level₀ (os ++ [o]) level (Function.update phase i p) where
  level_eq := by
    rw [Sight.levelAfter_snoc]
    cases o with
    | setLevel level' => cases howner
    | _ => exact h.level_eq
  met j := by
    by_cases hji : j = i
    · subst hji
      simpa only [Function.update_self] using hp
    · simp only [Function.update_of_ne hji]
      exact (h.met j).snoc (by simpa [howner] using Ne.symm hji)
  judged := (Past.always_snoc _ _ _).mpr ⟨h.judged, ho⟩

theorem Attested.step {o : Option (Sight ι)} (h : Attested level₀ os level phase)
    (hm : LevelMove level phase o level' phase') :
    Attested level₀ (os ++ o.toList) level' phase' := by
  have hmet {i q c P} (hi : phase i = q) (hq : q.test = some (c, P)) : Sight.Met level₀ P i c os :=
    h.met i c P (by rw [hi, hq])
  have hlevel := h.level_eq
  cases hm with
  | call hi => exact h.snoc_update rfl (.intro (P := fun _ => True) (.call trivial) rfl) trivial
  | suppress hi hlt => exact h.snoc_update rfl nofun (Sight.Met.now (hmet hi rfl) (hlevel ▸ hlt))
  | @pass i c hi hge =>
    rw [Option.toList, List.append_nil]
    exact h.update (.intro (P := (¬ c.level < ·)) (.now (hmet hi rfl) (hlevel ▸ hge)) rfl)
  | @proceed i p hi =>
    rw [Option.toList, List.append_nil]
    exact h.update fun c P hp => h.met i c P (hi.trans hp)
  | @drop i c hi =>
    have hge : Sight.Met level₀ (¬ c.level < ·) i c os := hmet hi rfl
    exact h.snoc_update rfl nofun hge
  | @publish i c hi =>
    have hge : Sight.Met level₀ (¬ c.level < ·) i c os := hmet hi rfl
    exact h.snoc_update rfl nofun hge
  | forward r => exact h.snoc rfl (by rw [Sight.levelAfter_snoc]; exact hlevel) trivial
  | setLevel level' => exact h.snoc rfl (by rw [Sight.levelAfter_snoc]) trivial
  | quiet =>
    rw [Option.toList, List.append_nil]
    exact h

/-- **The rule of the level test.** Whatever makes only steps that `LevelMove` allows deals with
every call as a level says that was in force between its beginning and its return. -/
theorem always_judged {σ α ε : Type*} {M : Machine σ α ε} {view : ε → Option (Sight ι)}
    (level : σ → LogLevel) (phase : σ → ι → Phase)
    (hstep : ∀ {s e s'}, M.Step s e s' →
      LevelMove (level s) (phase s) (view e) (level s') (phase s'))
    {s₀ : σ} (hidle : ∀ i, phase s₀ i = .idle) (h : M.Shows view s₀ os) :
    Past.Always (Sight.Judged (level s₀)) os := by
  obtain ⟨tr, s₁, hp, rfl⟩ := h
  have h₀ : Attested (level s₀) [] (level s₀) (phase s₀) :=
    ⟨rfl, fun i c P hp => by simp [hidle i, Phase.test] at hp, by simp⟩
  refine (hp.rule (Q := fun _ => True)
    (I := fun tr s => Attested (level s₀) (tr.filterMap view) (level s) (phase s))
    (fun _ _ => trivial) h₀ fun _ ih hs => ?_).judged
  rw [List.filterMap_append, Machine.filterMap_singleton]
  exact ih.step (hstep hs)

end

end XmSigma
