import XmSigma.Lib.Progress
import XmSigma.Logging.MpscRetries

/-!
# How many steps a call of `MpscRtLogger` takes

As in `RtLogger`, with one difference: a call may lose rounds of its claim loop, and each of them
costs it two steps. There are no more of them than claims that other producers made since the call
read `enqueue_pos_`, so what a call costs beyond nine steps is paid by the progress of the others.

## Main results

* `log_steps_charged`: the steps of a producer, exactly, and what they are charged to
-/

namespace XmSigma

namespace MpscRtLogger

variable {ι : Type*} {z : Pow2Size} {s s₁ s₂ : State ι} {e : Event ι} {tr tr₁ : List (Event ι)}
  {i : ι}

section
variable [DecidableEq ι]

/-- A step of producer `i` inside `Log`. -/
def Event.ofLog (i : ι) : Event ι → Bool
  | .call _ _ => false
  | e => e.producer = some i

/-! ### A producer -/

/-- The call in progress has taken `n` steps, apart from rounds that it lost. -/
def Log.Took (n : ℕ) : Log → Prop
  | .idle | .loadLevel _ => n = 0
  | .loadPos _ => n = 1
  | .loadSeq _ _ => n = 2
  | .exchange _ _ | .bumpDropped _ | .reload _ _ => n = 3
  | .assign _ _ todo => n + todo.length = 8

/-- What the calls of producer `i` have cost, apart from the one in progress: one step for the level
test, four for a drop, nine for a record, and two for each round lost. -/
def cost (i : ι) (tr : List (Event ι)) : ℕ :=
  (callsOf i (history tr).suppressed).length + 4 * (callsOf i (history tr).dropped).length +
    9 * (callsOf i (history tr).published).length + 2 * tr.count (.retry i) +
    2 * tr.count (.spurious i)

theorem cost_snoc_of_ne (he : e.producer ≠ some i) (tr : List (Event ι)) :
    cost i (tr ++ [e]) = cost i tr := by
  rw [cost, cost, history_snoc, List.count_append, List.count_append]
  cases e with
  | suppress j c | drop j c | publish j c | retry j | spurious j =>
    have hj : j ≠ i := fun hc => he (congrArg some hc)
    simp [History.note, callsOf_of_ne hj, hj]
  | _ => simp [History.note]

/-- What a step adds to it. -/
def Event.cost : Event ι → ℕ
  | .suppress _ _ => 1
  | .drop _ _ => 4
  | .publish _ _ => 9
  | .retry _ | .spurious _ => 2
  | _ => 0

theorem cost_snoc_self (he : e.producer = some i) (tr : List (Event ι)) :
    cost i (tr ++ [e]) = cost i tr + e.cost := by
  simp only [cost, history_snoc, List.count_append]
  cases e with
  | suppress j c | drop j c | publish j c =>
    obtain rfl : j = i := Option.some_inj.mp he
    simp only [History.note, Event.cost, callsOf_append, callsOf_self, List.length_append,
      List.length_singleton, List.count_singleton, beq_iff_eq, reduceCtorEq, if_false]
    omega
  | retry j | spurious j =>
    obtain rfl : j = i := Option.some_inj.mp he
    simp only [History.note, Event.cost, List.count_singleton, beq_iff_eq, reduceCtorEq, if_false,
      if_true]
    omega
  | _ => simp [History.note, Event.cost]

/-- A step of the producer costs one: it is the next one of its call, or the last, or it ends a
round that is lost. -/
theorem Log.Took.step {m m' : Shared} {p p' : Log} {n : ℕ} {spurious : Bool} (h : p.Took n)
    (hs : p.step z i m spurious = some (m', p', e)) (tr : List (Event ι)) :
    e.ofLog i = true ∧ ∃ n', p'.Took n' ∧ cost i (tr ++ [e]) + n' = cost i tr + n + 1 := by
  have hown := Log.producer_of_step hs
  rw [cost_snoc_self hown]
  cases LogMove.of_step hs with
  | suppress _ | bumpDropped | publish =>
    simp only [Log.Took, List.length_nil] at h
    refine ⟨decide_eq_true hown, 0, rfl, ?_⟩
    simp only [Event.cost]
    omega
  | lost _ | reload | spurious _ =>
    simp only [Log.Took] at h
    refine ⟨decide_eq_true hown, 2, rfl, ?_⟩
    simp only [Event.cost]
    omega
  | assign =>
    simp only [Log.Took, List.length_cons] at h
    exact ⟨decide_eq_true hown, n + 1, by simp only [Log.Took]; omega, rfl⟩
  | claim _ =>
    simp only [Log.Took] at h
    exact ⟨decide_eq_true hown, 4, rfl, by simp only [Event.cost]; omega⟩
  | _ =>
    simp only [Log.Took] at h
    exact ⟨decide_eq_true hown, n + 1, by subst h; rfl, rfl⟩

theorem ofLog_of_ne (he : e.producer ≠ some i) : e.ofLog i = false := by
  cases e with
  | call j c => rfl
  | _ => exact decide_eq_false he

/-- The steps of a producer are those of its calls. -/
theorem steps_eq (h : (machine z).Run tr s) (i : ι) :
    ∃ n, (s.producers i).Took n ∧ tr.countP (Event.ofLog i) = cost i tr + n := by
  refine h.rule (I := fun tr s => ∃ n, (s.producers i).Took n ∧
    tr.countP (Event.ofLog i) = cost i tr + n) ?_ fun {tr s e s'} hi hs => ?_
  · rintro s ⟨raw, level, rfl⟩
    exact ⟨0, rfl, rfl⟩
  obtain ⟨n, hn, hcount⟩ := hi
  rw [Machine.countP_snoc, hcount]
  rcases step_cases i hs with ⟨c, rfl, hidle, hcall⟩ | ⟨spurious, m, p, hp, rfl⟩ | ⟨hne, hsame⟩
  · rw [hidle] at hn
    rw [cost_snoc_self rfl, hcall]
    exact ⟨0, rfl, by rw [hn]; rfl⟩
  · obtain ⟨hown, n', hn', hcost⟩ := hn.step hp tr
    exact ⟨n', hn', by rw [hown, Bool.toNat_true, hcost]⟩
  · rw [cost_snoc_of_ne hne, hsame, ofLog_of_ne hne]
    exact ⟨n, hn, rfl⟩

omit [DecidableEq ι] in
theorem Log.Took.le {n : ℕ} {p : Log} (h : p.Took n) : n ≤ 8 := by
  cases p <;> simp only [Log.Took] at h <;> omega

/-- How many steps are left of a call that loses no more rounds. -/
def Log.budget : Log → ℕ
  | .idle => 0
  | .loadLevel _ => 9
  | .loadPos _ => 8
  | .loadSeq _ _ => 7
  | .exchange _ _ | .reload _ _ => 6
  | .bumpDropped _ => 1
  | .assign _ _ todo => todo.length + 1

/-- Each of its steps is one of them, or ends a round that is lost. -/
theorem Log.budget_step {m m' : Shared} {p p' : Log} {spurious : Bool}
    (hs : p.step z i m spurious = some (m', p', e)) (tr : List (Event ι)) :
    p'.budget + 1 + 2 * tr.count (.retry i) + 2 * tr.count (.spurious i) ≤
      p.budget + 2 * (tr ++ [e]).count (.retry i) + 2 * (tr ++ [e]).count (.spurious i) := by
  simp only [List.count_append]
  cases LogMove.of_step hs with
  | lost _ | reload | spurious _ =>
    simp only [Log.budget, List.count_singleton, beq_iff_eq, reduceCtorEq, if_true, if_false]
    omega
  | claim _ => simp [Log.budget, assignments]
  | assign => simp only [Log.budget, List.length_cons]; omega
  | _ => simp only [Log.budget]; omega

/-- The steps of a call are those left, and two for each round that it loses. -/
theorem steps_le (hp : (machine z).Path s tr s₁) (hcall : ∀ d, .call i d ∉ tr) :
    tr.countP (Event.ofLog i) + (s₁.producers i).budget ≤
      (s.producers i).budget + 2 * tr.count (.retry i) + 2 * tr.count (.spurious i) := by
  refine hp.rule (Q := fun e => ∀ d, e ≠ .call i d) (I := fun tr s₁ =>
      tr.countP (Event.ofLog i) + (s₁.producers i).budget ≤
        (s.producers i).budget + 2 * tr.count (.retry i) + 2 * tr.count (.spurious i))
    (fun e he d hd => hcall d (hd ▸ he)) (by simp) fun {tr s' e s''} he hle hs => ?_
  rw [Machine.countP_snoc]
  rcases step_cases i hs with ⟨d, rfl, -⟩ | ⟨spurious, m, p, hp, rfl⟩ | ⟨hne, hsame⟩
  · exact absurd rfl (he d)
  · have hleft := Log.budget_step hp tr
    have hown : (e.ofLog i).toNat ≤ 1 := Bool.toNat_le _
    omega
  · rw [hsame, ofLog_of_ne hne, List.count_append, List.count_append]
    simp only [Bool.toNat_false]
    omega

/-- **What a call costs, and who pays.** In every run producer `i` has taken one step for each call
that the level test turned away, four for each call dropped, nine for each call published, two for
each round lost, and at most eight for the call in progress, whatever the others did in between;
that call can always take its next step. Rounds are lost to the progress of others: after the first
read of `enqueue_pos_` a call takes at most seven steps, two more for each claim that another
producer made since, and two for each exchange that failed without cause. -/
theorem log_steps_charged (h : (machine z).Run tr s) (i : ι) :
    (∃ n ≤ 8, (s.producers i).Took n ∧ tr.countP (Event.ofLog i) =
      (callsOf i (history tr).suppressed).length + 4 * (callsOf i (history tr).dropped).length +
        9 * (callsOf i (history tr).published).length + 2 * tr.count (.retry i) +
        2 * tr.count (.spurious i) + n) ∧
    (s.producers i ≠ .idle →
      ∀ spurious, ∃ s' e, step z s (.log i spurious) = some (s', e)) ∧
    ∀ c pos tr₁ s₁, s.producers i = .loadSeq c pos → s.shared.enqueue_pos_ = pos →
      (machine z).Path s tr₁ s₁ → (∀ d, .call i d ∉ tr₁) →
      CountersBelow z (history (tr ++ tr₁)) →
      tr₁.countP (Event.ofLog i) ≤
        7 + 2 * (competing i (history tr₁)).length + 2 * tr₁.count (.spurious i) := by
  obtain ⟨n, hn, hcount⟩ := steps_eq h i
  refine ⟨⟨n, hn.le, hn, hcount⟩, fun hbusy spurious => ?_,
    fun c pos tr₁ s₁ hi hread hp hcall hb => ?_⟩
  · obtain ⟨⟨m, p, e⟩, hx⟩ := Log.exists_next hbusy z i s.shared spurious
    exact ⟨_, e, by rw [step, hx]; rfl⟩
  · have hc := Contends.of_path h hi hread hp hcall hb
    have hretries : tr₁.count (.retry i) ≤ (competing i (history tr₁)).length := by
      rw [← hc.count_eq]
      exact hc.takers_sublist.length_le
    have hsteps := steps_le hp hcall
    rw [hi] at hsteps
    simp only [Log.budget] at hsteps
    omega

/-- A call overtaken twice: it lost a round each time. -/
theorem log_steps_charged_small :
    (overtaken.get overtaken_isSome).1.countP (Event.ofLog false) ≤
      7 + 2 * (competing false (history (overtaken.get overtaken_isSome).1)).length +
        2 * (overtaken.get overtaken_isSome).1.count (.spurious false) :=
  (log_steps_charged (run_small entered_isSome) false).2.2 hello 0 _ _ rfl rfl
    (.of_exec_get overtaken_isSome) overtaken_call (by unfold CountersBelow; decide +kernel)

end

end MpscRtLogger

end XmSigma
