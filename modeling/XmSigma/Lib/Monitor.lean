import XmSigma.Lib.HappensBefore
import XmSigma.Lib.Refinement
import Mathlib.Logic.Function.Basic

/-!
# Objects behind a lock

Threads call the operations of an object. An operation takes the lock, makes its accesses to the
object one by one, and gives the lock back before it returns; between any two of these steps other
threads may run. All that can be seen is what is called and what is returned.

Seen like this, the operations take effect at once: each at one moment between its call and its
return, and as the whole of its accesses would if they were made without interruption. And the
accesses of different threads are ordered, so that they may be to memory that is not atomic.

## Main definitions

* `Routine`, `Routine.exec`: the accesses of an operation, and what they come to
* `Monitor.machine`: the object behind its lock
* `Atomic.machine`: the object whose operations take effect at once

## Main results

* `Monitor.shows_iff`: the one shows what the other shows
* `Atomic.Represents.shows_iff`: and what any object shows that does the same
* `Monitor.Exclusive.exists_go`: there is no deadlock
* `Monitor.ordered`: any two accesses to the object are ordered by happens-before
-/

namespace XmSigma

/-! ### Accesses -/

/-- What a thread does to an object of type `σ`, access by access, until it answers. -/
inductive Routine (σ ρ : Type*)
  | ret (r : ρ)
  /-- One access changes the object by `f`, and goes on with what it has seen of it. -/
  | act (f : σ → σ) (k : σ → Routine σ ρ)

namespace Routine

variable {σ ρ α β : Type*}

/-- What the accesses come to if nobody interrupts. -/
def exec : Routine σ ρ → σ → σ × ρ
  | ret r, s => (s, r)
  | act f k, s => (k s).exec (f s)

/-- Load a part of the object. -/
def load (f : σ → α) (k : α → Routine σ ρ) : Routine σ ρ := act id fun s => k (f s)

/-- Store a part of the object. -/
def store (f : σ → σ) (k : Routine σ ρ) : Routine σ ρ := act f fun _ => k

/-- Load two parts, the second one first if `swap` says so. -/
def load₂ (swap : Bool) (f : σ → α) (g : σ → β) (k : α → β → Routine σ ρ) : Routine σ ρ :=
  if swap then load g fun b => load f fun a => k a b else load f fun a => load g fun b => k a b

@[simp] theorem exec_ret (r : ρ) (s : σ) : (ret r : Routine σ ρ).exec s = (s, r) := rfl

@[simp] theorem exec_load (f : σ → α) (k : α → Routine σ ρ) (s : σ) :
    (load f k).exec s = (k (f s)).exec s := rfl

@[simp] theorem exec_store (f : σ → σ) (k : Routine σ ρ) (s : σ) :
    (store f k).exec s = k.exec (f s) := rfl

@[simp] theorem exec_load₂ (swap : Bool) (f : σ → α) (g : σ → β) (k : α → β → Routine σ ρ)
    (s : σ) : (load₂ swap f g k).exec s = (k (f s) (g s)).exec s := by
  cases swap <;> rfl

end Routine

/-- What can be seen of an object that the threads of `θ` share. -/
inductive CallSight (θ ω ρ : Type*)
  | call (t : θ) (op : ω)
  | ret (t : θ) (op : ω) (r : ρ)
  deriving DecidableEq

/-! ### Operations that take effect at once -/

namespace Atomic

/-- How far a thread is with its call. -/
inductive Phase (ω ρ : Type*)
  | idle
  | called (op : ω)
  | done (op : ω) (r : ρ)

/-- The object, and how far each thread is. -/
structure State (θ σ ω ρ : Type*) where
  object : σ
  phase : θ → Phase ω ρ

/-- What a step did. -/
inductive Event (θ ω ρ : Type*)
  | call (t : θ) (op : ω)
  | apply (t : θ)
  | ret (t : θ) (op : ω) (r : ρ)

/-- The calls can be seen, and what they return; when they take effect cannot. -/
def Event.view {θ ω ρ : Type*} : Event θ ω ρ → Option (CallSight θ ω ρ)
  | .call t op => some (.call t op)
  | .ret t op r => some (.ret t op r)
  | .apply _ => none

/-- The choices of the scheduler. -/
inductive Action (θ ω : Type*)
  | call (t : θ) (op : ω)
  | go (t : θ)

variable {θ σ τ ω ρ : Type*} [DecidableEq θ]

/-- One step: a call is begun, takes effect, or returns. -/
def step (run : ω → σ → σ × ρ) (s : State θ σ ω ρ) :
    Action θ ω → Option (State θ σ ω ρ × Event θ ω ρ)
  | .call t op =>
    match s.phase t with
    | .idle => some ({ s with phase := Function.update s.phase t (.called op) }, .call t op)
    | _ => none
  | .go t =>
    match s.phase t with
    | .idle => none
    | .called op =>
      some (⟨(run op s.object).1, Function.update s.phase t (.done op (run op s.object).2)⟩,
        .apply t)
    | .done op r => some ({ s with phase := Function.update s.phase t .idle }, .ret t op r)

/-- No call is in progress. -/
def initial (o : σ) : State θ σ ω ρ := ⟨o, fun _ => .idle⟩

/-- The object whose operations are `run`. -/
def machine (run : ω → σ → σ × ρ) : Machine (State θ σ ω ρ) (Action θ ω) (Event θ ω ρ) where
  init s := ∃ o, s = initial o
  step := step run

/-- What a step can be. -/
inductive Move (run : ω → σ → σ × ρ) (s : State θ σ ω ρ) : Event θ ω ρ → State θ σ ω ρ → Prop
  | call {t : θ} {op : ω} (ht : s.phase t = .idle) :
    Move run s (.call t op) { s with phase := Function.update s.phase t (.called op) }
  | apply {t : θ} {op : ω} (ht : s.phase t = .called op) :
    Move run s (.apply t)
      ⟨(run op s.object).1, Function.update s.phase t (.done op (run op s.object).2)⟩
  | ret {t : θ} {op : ω} {r : ρ} (ht : s.phase t = .done op r) :
    Move run s (.ret t op r) { s with phase := Function.update s.phase t .idle }

variable {run : ω → σ → σ × ρ} {s s' : State θ σ ω ρ} {e : Event θ ω ρ}

theorem Move.of_step (hs : (machine run).Step s e s') : Move run s e s' := by
  obtain ⟨a, ha⟩ := hs
  cases a with
  | call t op =>
    simp only [machine, step] at ha
    split at ha <;> cases ha
    next ht => exact .call ht
  | go t =>
    simp only [machine, step] at ha
    split at ha <;> cases ha
    next ht => exact .apply ht
    next ht => exact .ret ht

theorem Move.step (h : Move run s e s') : (machine run).Step s e s' := by
  cases h with
  | @call t op ht => exact ⟨.call t op, by simp only [machine, Atomic.step, ht]⟩
  | @apply t op ht => exact ⟨.go t, by simp only [machine, Atomic.step, ht]⟩
  | @ret t op r ht => exact ⟨.go t, by simp only [machine, Atomic.step, ht]⟩

/-- What `run` does to an object of `I`, `run'` does to what `w` makes of it, and they return the
same. -/
def Represents (I : σ → Prop) (w : σ → τ) (run : ω → σ → σ × ρ) (run' : ω → τ → τ × ρ) : Prop :=
  ∀ op o, I o → I (run op o).1 ∧ run' op (w o) = (w (run op o).1, (run op o).2)

section
variable {I : σ → Prop} {w : σ → τ} {run' : ω → τ → τ × ρ}

/-- What `w` makes of the object. -/
def State.seen (w : σ → τ) (s : State θ σ ω ρ) : State θ τ ω ρ := ⟨w s.object, s.phase⟩

/-- A step of the object is one of the object it stands for. -/
theorem Represents.move (h : Represents I w run run') (hI : I s.object) (hm : Move run s e s') :
    I s'.object ∧ Move run' (s.seen w) e (s'.seen w) := by
  cases hm with
  | call ht => exact ⟨hI, .call ht⟩
  | @apply t op ht =>
    obtain ⟨hI', hrun⟩ := h op s.object hI
    have happly : Move run' (s.seen w) (.apply t) _ := .apply ht
    rw [show (s.seen w).object = w s.object from rfl, hrun] at happly
    exact ⟨hI', happly⟩
  | ret ht => exact ⟨hI, .ret ht⟩

/-- And the other way round. -/
theorem Represents.move_back {a' : State θ τ ω ρ} (h : Represents I w run run') (hI : I s.object)
    (hm : Move run' (s.seen w) e a') : ∃ s', Move run s e s' ∧ a' = s'.seen w := by
  cases hm with
  | call ht => exact ⟨_, .call ht, rfl⟩
  | @apply t op ht =>
    refine ⟨_, .apply ht, ?_⟩
    rw [show (s.seen w).object = w s.object from rfl, (h op s.object hI).2]
    rfl
  | ret ht => exact ⟨_, .ret ht, rfl⟩

theorem Represents.path {o : σ} {tr : List (Event θ ω ρ)} (h : Represents I w run run')
    (ho : I o) (hp : (machine run).Path (initial o) tr s) : I s.object :=
  hp.rule (Q := fun _ => True) (I := fun _ s => I s.object) (fun _ _ => trivial) ho
    fun _ hI hs => (h.move hI (.of_step hs)).1

/-- **Objects that do the same show the same.** -/
theorem Represents.shows_iff (h : Represents I w run run') {o : σ} (ho : I o)
    (os : List (CallSight θ ω ρ)) :
    (machine run).Shows Event.view (initial o) os ↔
      (machine run').Shows Event.view (initial (w o)) os := by
  constructor
  · rintro ⟨tr, s, hp, rfl⟩
    obtain ⟨tr', a, ha, hview, -⟩ := hp.simulated (A := machine run') (v := Event.view)
      (w := Event.view) (P := fun _ => True) (R := fun _ s _ a => a = s.seen w)
      (a := initial (w o)) trivial (fun _ => trivial) rfl
      fun {tr s e s' tr' a} hp _ _ ha hs => by
        subst ha
        have hm := (h.move (h.path ho hp) (.of_step hs)).2
        exact ⟨[e], _, hm.step.path, Machine.filterMap_singleton .., rfl⟩
    exact ⟨tr', a, ha, hview⟩
  · rintro ⟨tr, a, hp, rfl⟩
    obtain ⟨tr', s, hs, hview, -⟩ := hp.simulated (A := machine run) (v := Event.view)
      (w := Event.view) (P := fun _ => True) (R := fun _ a _ s => a = s.seen w)
      (a := initial o) trivial (fun _ => trivial) rfl
      fun {tr a e a' tr' s} _ hs _ ha hm => by
        subst ha
        obtain ⟨s', hm', rfl⟩ := h.move_back (h.path ho hs) (.of_step hm)
        exact ⟨[e], s', hm'.step.path, Machine.filterMap_singleton .., rfl⟩
    exact ⟨tr', s, hs, hview⟩

end

end Atomic

/-! ### The lock -/

namespace Monitor

/-- Where a thread is. -/
inductive Point (σ ω ρ : Type*)
  | idle
  /-- It is about to take the lock. -/
  | waiting (op : ω)
  /-- It holds the lock; `c` is left to be done. -/
  | inside (op : ω) (c : Routine σ ρ)
  /-- It has given the lock back. -/
  | leaving (op : ω) (r : ρ)

/-- The object, who holds its lock, and where each thread is. -/
structure State (θ σ ω ρ : Type*) where
  object : σ
  holder : Option θ
  point : θ → Point σ ω ρ

/-- What a step did. -/
inductive Event (θ ω ρ : Type*)
  | call (t : θ) (op : ω)
  | lock (t : θ)
  | access (t : θ)
  | unlock (t : θ)
  | ret (t : θ) (op : ω) (r : ρ)

/-- The calls can be seen, and what they return; the lock and the accesses cannot. -/
def Event.view {θ ω ρ : Type*} : Event θ ω ρ → Option (CallSight θ ω ρ)
  | .call t op => some (.call t op)
  | .ret t op r => some (.ret t op r)
  | .lock _ | .access _ | .unlock _ => none

/-- The choices of the scheduler. -/
inductive Action (θ ω : Type*)
  | call (t : θ) (op : ω)
  | go (t : θ)

variable {θ σ ω ρ : Type*} [DecidableEq θ]

/-- One step: a call is begun, takes the lock, makes one access, gives the lock back, or returns. -/
def step (code : ω → Routine σ ρ) (s : State θ σ ω ρ) :
    Action θ ω → Option (State θ σ ω ρ × Event θ ω ρ)
  | .call t op =>
    match s.point t with
    | .idle => some ({ s with point := Function.update s.point t (.waiting op) }, .call t op)
    | _ => none
  | .go t =>
    match s.point t with
    | .idle => none
    | .waiting op =>
      match s.holder with
      | none => some (⟨s.object, some t, Function.update s.point t (.inside op (code op))⟩, .lock t)
      | some _ => none
    | .inside op (.act f k) =>
      some (⟨f s.object, s.holder, Function.update s.point t (.inside op (k s.object))⟩, .access t)
    | .inside op (.ret r) =>
      some (⟨s.object, none, Function.update s.point t (.leaving op r)⟩, .unlock t)
    | .leaving op r => some ({ s with point := Function.update s.point t .idle }, .ret t op r)

/-- The lock is free, and no call is in progress. -/
def initial (o : σ) : State θ σ ω ρ := ⟨o, none, fun _ => .idle⟩

/-- The object behind its lock, whose operations make the accesses `code`. -/
def machine (code : ω → Routine σ ρ) : Machine (State θ σ ω ρ) (Action θ ω) (Event θ ω ρ) where
  init s := ∃ o, s = initial o
  step := step code

/-- What a step can be. -/
inductive Move (code : ω → Routine σ ρ) (s : State θ σ ω ρ) : Event θ ω ρ → State θ σ ω ρ → Prop
  | call {t : θ} {op : ω} (ht : s.point t = .idle) :
    Move code s (.call t op) { s with point := Function.update s.point t (.waiting op) }
  | lock {t : θ} {op : ω} (ht : s.point t = .waiting op) (hfree : s.holder = none) :
    Move code s (.lock t) ⟨s.object, some t, Function.update s.point t (.inside op (code op))⟩
  | access {t : θ} {op : ω} {f : σ → σ} {k : σ → Routine σ ρ}
    (ht : s.point t = .inside op (.act f k)) :
    Move code s (.access t)
      ⟨f s.object, s.holder, Function.update s.point t (.inside op (k s.object))⟩
  | unlock {t : θ} {op : ω} {r : ρ} (ht : s.point t = .inside op (.ret r)) :
    Move code s (.unlock t) ⟨s.object, none, Function.update s.point t (.leaving op r)⟩
  | ret {t : θ} {op : ω} {r : ρ} (ht : s.point t = .leaving op r) :
    Move code s (.ret t op r) { s with point := Function.update s.point t .idle }

variable {code : ω → Routine σ ρ} {run : ω → σ → σ × ρ} {s s' : State θ σ ω ρ} {e : Event θ ω ρ}
  {t : θ} {op : ω} {tr : List (Event θ ω ρ)}

theorem Move.of_step (hs : (machine code).Step s e s') : Move code s e s' := by
  obtain ⟨a, ha⟩ := hs
  cases a with
  | call t op =>
    simp only [machine, step] at ha
    split at ha <;> cases ha
    next ht => exact .call ht
  | go t =>
    simp only [machine, step] at ha
    split at ha
    · cases ha
    · next ht =>
      split at ha <;> cases ha
      next hfree => exact .lock ht hfree
    · next ht =>
      cases ha
      exact .access ht
    · next ht =>
      cases ha
      exact .unlock ht
    · next ht =>
      cases ha
      exact .ret ht

theorem Move.step (h : Move code s e s') : (machine code).Step s e s' := by
  cases h with
  | @call t op ht => exact ⟨.call t op, by simp only [machine, Monitor.step, ht]⟩
  | @lock t op ht hfree => exact ⟨.go t, by simp only [machine, Monitor.step, ht, hfree]⟩
  | @access t op f k ht => exact ⟨.go t, by simp only [machine, Monitor.step, ht]⟩
  | @unlock t op r ht => exact ⟨.go t, by simp only [machine, Monitor.step, ht]⟩
  | @ret t op r ht => exact ⟨.go t, by simp only [machine, Monitor.step, ht]⟩

/-! ### Mutual exclusion -/

/-- The thread holds the lock. -/
def Point.IsInside : Point σ ω ρ → Prop
  | .inside _ _ => True
  | _ => False

/-- A thread is inside exactly while it holds the lock. -/
def Exclusive (s : State θ σ ω ρ) : Prop := ∀ t, (s.point t).IsInside ↔ s.holder = some t

omit [DecidableEq θ] in
theorem Exclusive.initial (o : σ) : Exclusive (initial o : State θ σ ω ρ) :=
  fun _ => ⟨False.elim, nofun⟩

theorem Exclusive.step (h : Exclusive s) (hm : Move code s e s') : Exclusive s' := by
  -- a thread that stays inside, or stays outside
  have hkeep {t : θ} {p : Point σ ω ρ} (hp : p.IsInside ↔ (s.point t).IsInside) (j : θ) :
      (Function.update s.point t p j).IsInside ↔ s.holder = some j := by
    by_cases hj : j = t
    · subst hj
      rw [Function.update_self, hp, h j]
    · rw [Function.update_of_ne hj, h j]
  cases hm with
  | call ht => exact hkeep (by rw [ht]; rfl)
  | @lock t op ht hfree =>
    intro j
    by_cases hj : j = t
    · subst hj
      simp only [Function.update_self, Point.IsInside]
    · simp only [Function.update_of_ne hj, h j, hfree, reduceCtorEq, Option.some.injEq,
        Ne.symm hj]
  | access ht => exact hkeep (by rw [ht]; rfl)
  | @unlock t op r ht =>
    have hholder : s.holder = some t := (h t).mp (by rw [ht]; trivial)
    intro j
    by_cases hj : j = t
    · subst hj
      simp only [Function.update_self, Point.IsInside, reduceCtorEq]
    · simp only [Function.update_of_ne hj, h j, hholder, reduceCtorEq, Option.some.injEq,
        Ne.symm hj]
  | ret ht => exact hkeep (by rw [ht]; rfl)

theorem Exclusive.of_path {o : σ} (h : (machine code).Path (Monitor.initial o) tr s) :
    Exclusive s :=
  h.rule (Q := fun _ => True) (I := fun _ s => Exclusive s) (fun _ _ => trivial)
    (Exclusive.initial o) fun _ hi hs => hi.step (.of_step hs)

/-- **No deadlock**: while a thread is in an operation, some thread can go on. -/
theorem Exclusive.exists_go (h : Exclusive s) (ht : s.point t ≠ .idle) :
    ∃ j, ((machine code).step s (.go j)).isSome := by
  -- whoever is not waiting can go on
  have hgo {j : θ} (hj : s.point j ≠ .idle) (hw : ∀ op, s.point j = .waiting op → s.holder = none) :
      ((machine code).step s (.go j)).isSome := by
    simp only [machine, Monitor.step]
    cases hp : s.point j with
    | idle => exact absurd hp hj
    | waiting op =>
      rw [hw op hp]
      rfl
    | inside op c => cases c <;> rfl
    | leaving op r => rfl
  cases hholder : s.holder with
  | none => exact ⟨t, hgo ht fun _ _ => hholder⟩
  | some j =>
    have hin : (s.point j).IsInside := (h j).mpr hholder
    exact ⟨j, hgo (fun hj => by rw [hj] at hin; exact hin) fun op hj => by
      rw [hj] at hin
      exact hin.elim⟩

/-! ### The operations take effect at once -/

/-- How far a thread is, if its operation took effect when it took the lock. -/
def Point.phase (o : σ) : Point σ ω ρ → Atomic.Phase ω ρ
  | .idle => .idle
  | .waiting op => .called op
  | .inside op c => .done op (c.exec o).2
  | .leaving op r => .done op r

section
variable {p : Point σ ω ρ} {o : σ} {op : ω} {r : ρ}

theorem phase_eq_idle (h : p.phase o = .idle) : p = .idle := by
  cases p with
  | idle => rfl
  | _ => cases h

theorem phase_eq_called (h : p.phase o = .called op) : p = .waiting op := by
  cases p with
  | waiting op' =>
    cases h
    rfl
  | _ => cases h

theorem phase_eq_done (hp : ¬ p.IsInside) (h : p.phase o = .done op r) : p = .leaving op r := by
  cases p with
  | inside op' c => exact absurd trivial hp
  | leaving op' r' =>
    cases h
    rfl
  | _ => cases h

end

/-- What the object will be when the lock is given back. -/
def State.settled (s : State θ σ ω ρ) : σ :=
  match s.holder with
  | none => s.object
  | some t =>
    match s.point t with
    | .inside _ c => (c.exec s.object).1
    | _ => s.object

/-- The atomic object in the state of the monitor. -/
def State.atomic (s : State θ σ ω ρ) : Atomic.State θ σ ω ρ :=
  ⟨s.settled, fun t => (s.point t).phase s.object⟩

omit [DecidableEq θ] in
theorem settled_of_free (h : s.holder = none) : s.settled = s.object := by
  rw [State.settled, h]

omit [DecidableEq θ] in
theorem settled_of_inside {c : Routine σ ρ} (h : s.holder = some t)
    (ht : s.point t = .inside op c) :
    s.settled = (c.exec s.object).1 := by
  simp only [State.settled, h, ht]

/-- Outside, nothing is known of the object. -/
theorem phase_congr {p : Point σ ω ρ} (h : ¬ p.IsInside) (o o' : σ) : p.phase o' = p.phase o := by
  cases p with
  | inside op c => exact absurd trivial h
  | _ => rfl

/-- A step by which one thread goes on, with what that makes of the object. -/
theorem phases_update {p : Point σ ω ρ} {o' : σ}
    (hothers : ∀ j, j ≠ t → (s.point j).IsInside → o' = s.object) :
    (fun j => (Function.update s.point t p j).phase o') =
      Function.update (fun j => (s.point j).phase s.object) t (p.phase o') := by
  funext j
  by_cases hj : j = t
  · subst hj
    rw [Function.update_self, Function.update_self]
  · rw [Function.update_of_ne hj, Function.update_of_ne hj]
    by_cases hin : (s.point j).IsInside
    · rw [hothers j hj hin]
    · exact phase_congr hin _ _

/-- A thread that does not hold the lock goes on. -/
theorem settled_update {p : Point σ ω ρ} (h : s.holder ≠ some t) :
    State.settled { s with point := Function.update s.point t p } = s.settled := by
  cases hholder : s.holder with
  | none =>
    rw [settled_of_free hholder]
    exact settled_of_free rfl
  | some j =>
    have hj : j ≠ t := by
      rintro rfl
      exact h hholder
    simp only [State.settled, hholder, Function.update_of_ne hj]

omit [DecidableEq θ] in
theorem Exclusive.others (h : Exclusive s) (ht : (s.point t).IsInside) (j : θ) (hj : j ≠ t) :
    ¬ (s.point j).IsInside := by
  rw [h j, (h t).mp ht]
  exact fun heq => hj (Option.some.inj heq).symm

/-- The atomic object after a step by which thread `t` goes on. -/
theorem atomic_update {p : Point σ ω ρ} {o' o₁ : σ} {holder' : Option θ}
    (hothers : ∀ j, j ≠ t → (s.point j).IsInside → o' = s.object)
    (hsettled : State.settled ⟨o', holder', Function.update s.point t p⟩ = o₁) :
    State.atomic ⟨o', holder', Function.update s.point t p⟩ =
      ⟨o₁, Function.update s.atomic.phase t (p.phase o')⟩ := by
  subst hsettled
  exact congrArg _ (phases_update hothers)

/-- Nothing has changed for it. -/
theorem atomic_self {q : Atomic.Phase ω ρ} (h : s.atomic.phase t = q) :
    (⟨s.settled, Function.update s.atomic.phase t q⟩ : Atomic.State θ σ ω ρ) = s.atomic := by
  rw [← h, Function.update_eq_self]
  rfl

theorem Exclusive.answer (h : Exclusive s) (hcode : ∀ op o, (code op).exec o = run op o)
    (hm : Move code s e s') :
    (s'.atomic = s.atomic ∧ e.view = none) ∨
      ∃ e', Atomic.Move run s.atomic e' s'.atomic ∧ e'.view = e.view := by
  have hphase {t : θ} {p : Point σ ω ρ} (ht : s.point t = p) :
      s.atomic.phase t = p.phase s.object :=
    congrArg (Point.phase s.object) ht
  have houtside {t : θ} {p : Point σ ω ρ} (ht : s.point t = p) (hp : ¬ p.IsInside) :
      s.holder ≠ some t := fun hx => hp (ht ▸ (h t).mpr hx)
  cases hm with
  | @call t op ht =>
    refine .inr ⟨.call t op, ?_, rfl⟩
    rw [atomic_update (fun _ _ _ => rfl) (settled_update (houtside ht id))]
    exact .call (hphase ht)
  | @lock t op ht hfree =>
    refine .inr ⟨.apply t, ?_, rfl⟩
    have happly : Atomic.Move run s.atomic (.apply t) _ := .apply (hphase ht)
    rw [show s.atomic.object = s.object from settled_of_free hfree, ← hcode] at happly
    rw [atomic_update (fun _ _ _ => rfl)
      (settled_of_inside (t := t) rfl (Function.update_self ..))]
    exact happly
  | @access t op f k ht =>
    refine .inl ⟨?_, rfl⟩
    have hin : (s.point t).IsInside := by rw [ht]; trivial
    have hholder := (h t).mp hin
    have hsettled : s.settled = ((k s.object).exec (f s.object)).1 := settled_of_inside hholder ht
    rw [atomic_update (fun j hj hinj => absurd hinj (h.others hin j hj))
      ((settled_of_inside (s := ⟨f s.object, s.holder, _⟩) hholder
        (Function.update_self ..)).trans hsettled.symm)]
    exact atomic_self (hphase ht)
  | @unlock t op r ht =>
    refine .inl ⟨?_, rfl⟩
    have hholder := (h t).mp (by rw [ht]; trivial)
    have hsettled : s.settled = s.object := settled_of_inside hholder ht
    rw [atomic_update (fun _ _ _ => rfl) ((settled_of_free rfl).trans hsettled.symm)]
    exact atomic_self (q := .done op r) (hphase ht)
  | @ret t op r ht =>
    refine .inr ⟨.ret t op r, ?_, rfl⟩
    rw [atomic_update (fun _ _ _ => rfl) (settled_update (houtside ht id))]
    exact .ret (hphase ht)

/-- A thread that holds the lock makes its accesses, and gives it back. -/
theorem inside_path (code : ω → Routine σ ρ) (c : Routine σ ρ) (o : σ) (point : θ → Point σ ω ρ)
    (t : θ) (op : ω) :
    ∃ tr, (machine code).Path ⟨o, some t, Function.update point t (.inside op c)⟩ tr
        ⟨(c.exec o).1, none, Function.update point t (.leaving op (c.exec o).2)⟩ ∧
      tr.filterMap Event.view = [] := by
  induction c generalizing o with
  | ret r =>
    have hmove : Move code (⟨o, some t, Function.update point t (.inside op (.ret r))⟩ :
        State θ σ ω ρ) (.unlock t) _ := .unlock (Function.update_self ..)
    rw [Function.update_idem] at hmove
    exact ⟨_, hmove.step.path, rfl⟩
  | act f k ih =>
    obtain ⟨tr, hpath, hview⟩ := ih o (f o)
    have hmove : Move code (⟨o, some t, Function.update point t (.inside op (.act f k))⟩ :
        State θ σ ω ρ) (.access t) _ := .access (Function.update_self ..)
    rw [Function.update_idem] at hmove
    exact ⟨_, .cons hmove.step hpath, hview⟩

/-- While the lock is free, the monitor can follow the atomic object. -/
theorem Exclusive.follow {a' : Atomic.State θ σ ω ρ} {e : Atomic.Event θ ω ρ} (h : Exclusive s)
    (hfree : s.holder = none) (hcode : ∀ op o, (code op).exec o = run op o)
    (hm : Atomic.Move run s.atomic e a') :
    ∃ tr s', (machine code).Path s tr s' ∧ tr.filterMap Event.view = e.view.toList ∧
      a' = s'.atomic ∧ s'.holder = none := by
  have houtside (t : θ) : ¬ (s.point t).IsInside := by
    rw [h t, hfree]
    exact nofun
  have hobject : s.atomic.object = s.object := settled_of_free hfree
  have hsettled (p : Point σ ω ρ) (t : θ) :
      State.settled { s with point := Function.update s.point t p } = s.settled :=
    settled_update (by rw [hfree]; exact nofun)
  cases hm with
  | @call t op ht =>
    have hidle : s.point t = .idle := phase_eq_idle ht
    exact ⟨_, _, Machine.Step.path (Move.step (.call hidle)), rfl,
      (atomic_update (p := .waiting op) (fun _ _ _ => rfl) (hsettled _ t)).symm, hfree⟩
  | @apply t op ht =>
    have hwaiting : s.point t = .waiting op := phase_eq_called ht
    obtain ⟨tr, hpath, hview⟩ := inside_path code (code op) s.object s.point t op
    refine ⟨_, _, .cons (Move.lock hwaiting hfree).step hpath, hview, ?_, rfl⟩
    rw [atomic_update (fun j _ hj => absurd hj (houtside j)) (settled_of_free rfl), hobject,
      ← hcode]
    rfl
  | @ret t op r ht =>
    have hleaving : s.point t = .leaving op r := phase_eq_done (houtside t) ht
    exact ⟨_, _, Machine.Step.path (Move.step (.ret hleaving)), rfl,
      (atomic_update (p := .idle) (fun _ _ _ => rfl) (hsettled _ t)).symm, hfree⟩

/-- **The rule of monitors.** If the accesses of an operation, made without interruption, come to
what the operation is, then all that can be seen of the object behind its lock can be seen of the
object whose operations take effect at once, and the other way round: the monitor is
linearizable. -/
theorem shows_iff (hcode : ∀ op o, (code op).exec o = run op o) (o : σ)
    (os : List (CallSight θ ω ρ)) :
    (machine code).Shows Event.view (initial o) os ↔
      (Atomic.machine run).Shows Atomic.Event.view (Atomic.initial o) os := by
  constructor
  · rintro ⟨tr, s, hp, rfl⟩
    obtain ⟨tr', a, ha, hview, -⟩ := hp.simulated (A := Atomic.machine run)
      (v := Event.view) (w := Atomic.Event.view) (P := fun _ => True)
      (R := fun _ s _ a => a = s.atomic) (a := Atomic.initial o) trivial (fun _ => trivial) rfl
      fun {tr s e s' tr' a} hp _ _ ha hs => by
        subst ha
        rcases (Exclusive.of_path hp).answer hcode (.of_step hs) with ⟨heq, hview⟩ | ⟨e', hm, hview⟩
        · exact ⟨[], _, .refl, by rw [hview]; rfl, heq.symm⟩
        · exact ⟨[e'], _, hm.step.path, by rw [Machine.filterMap_singleton, hview], rfl⟩
    exact ⟨tr', a, ha, hview⟩
  · rintro ⟨tr, a, hp, rfl⟩
    obtain ⟨tr', s, hs, hview, -⟩ := hp.simulated (A := machine code)
      (w := Event.view) (P := fun _ => True)
      (R := fun _ a _ s => a = s.atomic ∧ s.holder = none) (a := initial o)
      trivial (fun _ => trivial) ⟨rfl, rfl⟩
      fun {tr a e a' tr' s} _ hs _ ha hm => by
        obtain ⟨rfl, hfree⟩ := ha
        obtain ⟨tr₁, s₁, hpath, hview, ha', hfree'⟩ :=
          (Exclusive.of_path hs).follow hfree hcode (.of_step hm)
        exact ⟨tr₁, s₁, hpath, hview, ha', hfree'⟩
    exact ⟨tr', s, hs, hview⟩

/-! ### No data race -/

/-- The access a step makes: the lock is a variable that is acquired and released, and the object is
one plain location. -/
def access (s : State θ σ ω ρ) : Action θ ω → MemAccess θ Unit Unit
  | .call t _ => .silent t
  | .go t =>
    match s.point t with
    | .idle | .leaving _ _ => .silent t
    | .waiting _ => .load t () true
    | .inside _ (.act _ _) => .plain t ()
    | .inside _ (.ret _) => .store t () true

/-- The object goes with the lock. -/
def Guard (s : State θ σ ω ρ) (_ : Unit) : Keeper θ Unit → Prop
  | .thread t => s.holder = some t
  | .var _ => s.holder = none

omit [DecidableEq θ] in
theorem Guard.congr {s' : State θ σ ω ρ} (h : s'.holder = s.holder) {k : Keeper θ Unit}
    (hk : Guard s' () k) : Guard s () k := by
  cases k with
  | thread t => exact h.symm.trans hk
  | var l => exact h.symm.trans hk

omit [DecidableEq θ] in
/-- A step that leaves the lock and the object alone. -/
theorem custody_silent {es : List (MemAccess θ Unit Unit)} (h : Custody es (Guard s))
    (hholder : s'.holder = s.holder) (t : θ) : Custody (es ++ [.silent t]) (Guard s') :=
  h.snoc_of_le (fun _ _ => nofun) (fun _ _ => Guard.congr hholder) fun _ _ _ => id

theorem Exclusive.custody {es : List (MemAccess θ Unit Unit)} {a : Action θ ω} (h : Exclusive s)
    (hk : Custody es (Guard s)) (hs : (machine code).step s a = some (s', e)) :
    Custody (es ++ [access s a]) (Guard s') := by
  cases a with
  | call t op =>
    simp only [machine, Monitor.step] at hs
    split at hs <;> cases hs
    exact custody_silent hk rfl t
  | go t =>
    simp only [machine, Monitor.step] at hs
    simp only [access]
    have hin : (s.point t).IsInside → s.holder = some t := (h t).mp
    split at hs
    · cases hs
    · next ht =>
      split at hs <;> cases hs
      next hfree =>
      simp only [ht]
      refine hk.snoc (fun _ _ => nofun) fun x k hx => ?_
      cases k with
      | thread j =>
        cases hx
        exact .acquire (l := ()) hfree rfl
      | var l => cases hx
    · next ht =>
      cases hs
      have hholder := hin (by rw [ht]; trivial)
      simp only [ht]
      refine hk.snoc (fun j x hj => ?_) fun x k hx => ?_
      · cases hj
        exact hholder
      · cases k with
        | thread j =>
          refine .know hx fun j' hj' => ?_
          cases hj'
          exact Option.some.inj (hholder.symm.trans hx)
        | var l => exact absurd (hholder.symm.trans hx) nofun
    · next ht =>
      cases hs
      have hholder := hin (by rw [ht]; trivial)
      simp only [ht]
      refine hk.snoc (fun _ _ => nofun) fun x k hx => ?_
      cases k with
      | thread j => cases hx
      | var l => exact .release (k := t) hholder rfl
    · next ht =>
      cases hs
      simp only [ht]
      exact custody_silent hk rfl t

/-- **There is no data race behind the lock**: of any two accesses to the object, whatever they do,
one happens before the other. -/
theorem ordered {tr : List (Event θ ω ρ × MemAccess θ Unit Unit)}
    (h : ((machine code).annotate access).Run tr s) : Ordered (tr.map Prod.snd) := by
  have hk : Custody (tr.map Prod.snd) (Guard s) := by
    refine h.rule_of (I := fun tr s => Custody (tr.map Prod.snd) (Guard s))
      (J := fun _ s => Exclusive s) (fun h => ?_) (fun _ _ => .nil _)
      fun {tr s x s'} hex hk hs => ?_
    · obtain ⟨s₀, ⟨o, rfl⟩, hp⟩ := h.of_annotate
      exact .of_path hp
    · obtain ⟨e, b⟩ := x
      obtain ⟨a, ha, rfl⟩ := Machine.annotate_step_iff.mp hs
      rw [List.map_append]
      exact hex.custody hk ha
  exact hk.ordered

end Monitor

end XmSigma
