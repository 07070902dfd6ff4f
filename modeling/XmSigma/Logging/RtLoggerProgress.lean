import XmSigma.Lib.Progress
import XmSigma.Logging.LogQueue
import XmSigma.Logging.RtLoggerFlush

/-!
# How many steps `RtLogger` takes

What the threads of the logger do takes a bounded number of their own steps, whatever the others
do in between. A call of `Log` is wait-free: it takes one step if the level test turns it away, four
if the ring is full and eight if it publishes, and there is always a next one. The drain thread
takes seven steps for a record, and at most one that is in vain before them; so a published record
is forwarded after a number of its steps that only depends on how many records are before it,
`Flush` returns, and so does the destructor.

## Main results

* `log_wait_free`: the steps of the producer, exactly
* `forwards_in_time`: the steps of the drain thread until a record is forwarded
* `flush_returns`, `destructor_returns`
-/

namespace XmSigma

namespace RtLogger

variable {z : Pow2Size} {t : History} {s s₁ s₂ : State} {e : Event} {tr tr₁ tr₂ : List Event}

/-! ### Whose step it is -/

/-- A step of the producer inside `Log`. -/
def Event.ofLog : Event → Bool
  | .suppress _ | .drop _ | .publish _ | .log => true
  | _ => false

/-- A step of the drain thread. -/
def Event.ofDrain : Event → Bool
  | .forward _ | .release | .drain => true
  | _ => false

/-- A step of the thread calling `Flush`. -/
def Event.ofFlush : Event → Bool
  | .flush => true
  | _ => false

theorem Log.not_ofDrain {m m' : Shared} {p p' : Log} (hs : p.step z m = some (m', p', e)) :
    e.ofDrain = false ∧ e.ofFlush = false ∧ ∀ t : History, (t.note e).released = t.released := by
  cases LogMove.of_step hs <;> exact ⟨rfl, rfl, fun _ => rfl⟩

theorem Drain.not_ofLog {m m' : Shared} {p p' : Drain} {f : Field}
    (hs : p.step z m f = some (m', p', e)) : e.ofLog = false ∧ e.ofFlush = false := by
  cases DrainMove.of_step hs <;> exact ⟨rfl, rfl⟩

/-! ### The producer -/

/-- The call in progress has taken `n` steps. -/
def Log.Took (n : ℕ) : Log → Prop
  | .idle | .loadLevel _ => n = 0
  | .loadHead _ => n = 1
  | .loadTail _ _ => n = 2
  | .bumpDropped _ => n = 3
  | .assign _ _ todo => n + todo.length = 7

theorem Log.Took.le {n : ℕ} {p : Log} (h : p.Took n) : n ≤ 7 := by
  cases p <;> simp only [Log.Took] at h <;> omega

/-- What the calls of a history have cost, apart from the one in progress. -/
def History.cost (t : History) : ℕ :=
  t.suppressed.length + 4 * t.dropped.length + 8 * t.published.length

/-- A step of the producer costs one: it is the next one of its call, or the last. -/
theorem Log.Took.step {m m' : Shared} {p p' : Log} {n : ℕ} (h : p.Took n)
    (hs : p.step z m = some (m', p', e)) (t : History) :
    e.ofLog = true ∧ ∃ n', p'.Took n' ∧ (t.note e).cost + n' = t.cost + n + 1 := by
  cases LogMove.of_step hs with
  | suppress _ | bumpDropped | publish =>
    simp only [Log.Took, List.length_nil] at h
    refine ⟨rfl, 0, rfl, ?_⟩
    simp only [History.cost, History.note, List.length_append, List.length_singleton]
    omega
  | assign =>
    simp only [Log.Took, List.length_cons] at h
    exact ⟨rfl, n + 1, by simp only [Log.Took]; omega, rfl⟩
  | _ =>
    simp only [Log.Took] at h
    exact ⟨rfl, n + 1, by subst h; rfl, rfl⟩

theorem Drain.cost_note {m m' : Shared} {p p' : Drain} {f : Field}
    (hs : p.step z m f = some (m', p', e)) (t : History) : (t.note e).cost = t.cost := by
  cases DrainMove.of_step hs <;> rfl

/-- The steps of the producer are those of its calls. -/
theorem steps_eq (h : (machine z).Run tr s) :
    ∃ n, s.log.Took n ∧ tr.countP Event.ofLog = (history tr).cost + n := by
  refine h.rule (I := fun tr s => ∃ n, s.log.Took n ∧
    tr.countP Event.ofLog = (history tr).cost + n) ?_ fun {tr s e s'} hi hs => ?_
  · rintro s ⟨raw, level, rfl⟩
    exact ⟨0, rfl, rfl⟩
  obtain ⟨n, hn, hcount⟩ := hi
  rw [Machine.countP_snoc, history_snoc, hcount]
  cases Move.of_step hs with
  | call c hl =>
    rw [hl] at hn
    exact ⟨0, rfl, by rw [hn]; rfl⟩
  | log hp =>
    obtain ⟨hown, n', hn', hcost⟩ := hn.step hp (history tr)
    exact ⟨n', hn', by rw [hown, Bool.toNat_true, hcost]⟩
  | drain f hp =>
    refine ⟨n, hn, ?_⟩
    rw [(Drain.not_ofLog hp).1, Drain.cost_note hp]
    rfl
  | _ => exact ⟨n, hn, rfl⟩

theorem Log.active_le (p : Log) : p.active ≤ 1 := by cases p <;> simp [Log.active]

/-- A stretch without a new call ends at most one. -/
theorem returned_le (h : (machine z).Run tr s) (hp : (machine z).Path s tr₁ s₁)
    (hcalls : ∀ c, Event.call c ∉ tr₁) :
    (history tr₁).suppressed.length + (history tr₁).dropped.length +
      (history tr₁).published.length + s₁.log.active = s.log.active := by
  have hnone : (history tr₁).calls = [] := by
    refine hp.rule (Q := fun e => ∀ c, e ≠ .call c) (I := fun tr _ => (history tr).calls = [])
      (fun e he c hc => hcalls c (hc ▸ he)) rfl fun {tr s e s'} he hi _ => ?_
    rw [history_snoc]
    cases e with
    | call c => exact absurd rfl (he c)
    | _ => exact hi
  have hc := (Inv.of_run h).calls_eq
  have hc₁ := (Inv.of_run (h.append hp)).calls_eq
  rw [history_append] at hc₁
  simp only [History.append, List.length_append, hnone, List.length_nil] at hc₁
  omega

/-- **`Log` is wait-free.** In every run the producer has taken one step for each call that the
level test turned away, four for each call dropped, eight for each call published, and at most
seven for the call in progress, whatever the other threads did in between; the call in progress
can always take its next step; and so it returns within eight of them. -/
theorem log_wait_free (h : (machine z).Run tr s) :
    (∃ n ≤ 7, s.log.Took n ∧ tr.countP Event.ofLog =
      (history tr).suppressed.length + 4 * (history tr).dropped.length +
        8 * (history tr).published.length + n) ∧
    (s.log ≠ .idle → ∃ s' e, step z s .log = some (s', e)) ∧
    ∀ tr₁ s₁, (machine z).Path s tr₁ s₁ → (∀ c, Event.call c ∉ tr₁) →
      tr₁.countP Event.ofLog ≤ 8 := by
  obtain ⟨n, hn, hcount⟩ := steps_eq h
  refine ⟨⟨n, hn.le, hn, hcount⟩, fun hbusy => ?_, fun tr₁ s₁ hp hcalls => ?_⟩
  · obtain ⟨⟨m, p, e⟩, hx⟩ := Log.exists_next hbusy z s.shared
    exact ⟨_, e, by rw [step, hx]; rfl⟩
  · obtain ⟨n₁, hn₁, hcount₁⟩ := steps_eq (h.append hp)
    have hreturned := returned_le h hp hcalls
    have hactive := s.log.active_le
    have hle := hn₁.le
    rw [List.countP_append, hcount, history_append] at hcount₁
    simp only [History.cost, History.append, List.length_append] at hcount₁
    rcases Nat.eq_zero_or_pos s₁.log.active with hidle | hbusy
    · have hzero : n₁ = 0 := by
        cases hl : s₁.log with
        | idle => rw [hl] at hn₁; exact hn₁
        | _ => rw [hl] at hidle; cases hidle
      omega
    · omega

/-- One call of the small logger. -/
def logged : Option (List Event × State) := (machine twoSlots).exec small (logAction hello)

theorem logged_isSome : logged.isSome := by decide +kernel

/-- It is published, in eight steps. -/
theorem log_wait_free_hello : (logged.get logged_isSome).1.countP Event.ofLog = 8 := by
  obtain ⟨n, -, hn, hcount⟩ := (log_wait_free (run_small logged_isSome)).1
  obtain rfl : n = 0 := hn
  exact hcount

/-! ### The drain thread -/

theorem drain_enabled (hd : s.drain ≠ .exited) : ∃ f s' e, step z s (.drain f) = some (s', e) := by
  obtain ⟨f, ⟨m, p, e⟩, hx⟩ := Drain.exists_next hd z s.shared
  exact ⟨f, _, e, by rw [step, hx]; rfl⟩

theorem Drain.ofDrain {m m' : Shared} {p p' : Drain} {f : Field}
    (hs : p.step z m f = some (m', p', e)) : e.ofDrain = true := by
  cases DrainMove.of_step hs <;> rfl

/-- How many steps the drain thread takes until it has released `k` records more. It may be acting
on a `head_` from before they were published. -/
def Drain.until (k : ℕ) : Drain → ℕ
  | .loadRunning _ => 7 * k + 1
  | .loadTail => 7 * k
  | .loadHead _ => 7 * k - 1
  | .read _ v => 7 * k + v.missing - 5
  | .storeTail _ => 7 * k - 6
  | .flushSink | .exited => 0

/-- While the logger lives, each of its steps is one of them. -/
theorem Inv.until_step {n : ℕ} {m : Shared} {p : Drain} {f : Field} (hi : Inv z t s)
    (hrun : s.shared.running_ = true) (hloop : s.drain.place = .busy ∨ s.drain.place = .asking)
    (hn : n ≤ t.published.length) (hlt : t.released < n)
    (hs : s.drain.step z s.shared f = some (m, p, e)) :
    p.until (n - (t.note e).released) + 1 ≤ s.drain.until (n - t.released) := by
  have hok := hi.drain_ok
  generalize hd : s.drain = p₀ at hs
  rw [hd] at hok hloop
  cases DrainMove.of_step hs with
  | empty heq =>
    have htail : s.shared.tail_ = s.shared.head_ := by rw [hi.tail_eq, ← heq, hok]
    have := hi.empty_iff.mp htail
    omega
  | leave hstopped =>
    rw [hrun] at hstopped
    cases hstopped
  | read f hv =>
    have hone := View.missing_read hv
    simp only [Drain.until, History.note]
    omega
  | forward hx =>
    have hnone := View.missing_forward hx
    simp only [Drain.until, History.note]
    omega
  | flushSink => simp [Drain.place] at hloop
  | _ =>
    simp only [Drain.until, History.note, View.missing_empty]
    omega

/-- In its loop the drain thread has some of these steps to take. -/
theorem Drain.until_pos {k : ℕ} {p : Drain} (hk : 0 < k)
    (hloop : p.place = .busy ∨ p.place = .asking) : 0 < p.until k := by
  cases p with
  | flushSink | exited => simp [Drain.place] at hloop
  | _ => simp only [Drain.until]; omega

/-- Until the destructor starts, `running_` is on and the drain thread in its loop. -/
theorem alive (h : (machine z).Run tr s) (hlive : s.destructor = .notStarted)
    (hp : (machine z).Path s tr₁ s₁) (hstop : Event.stop ∉ tr₁) :
    s₁.shared.running_ = true ∧ (s₁.drain.place = .busy ∨ s₁.drain.place = .asking) :=
  life_follows.looping (life_ok h) hp (congrArg Destructor.owner hlive) fun e he => by
    cases e with
    | stop => exact absurd he hstop
    | _ => rfl

theorem published_mono (tr tr₁ : List Event) :
    (history tr).published.length ≤ (history (tr ++ tr₁)).published.length ∧
      (history tr).released ≤ (history (tr ++ tr₁)).released := by
  rw [history_append]
  simp [History.append]

theorem Drain.until_le (k : ℕ) (p : Drain) : p.until k ≤ 7 * k + 1 := by
  cases p with
  | read tail v =>
    have := v.missing_le
    simp only [Drain.until]
    omega
  | _ => simp only [Drain.until]; omega

/-- Enough steps of the drain thread release what was published. -/
theorem released_in_time (h : (machine z).Run tr s) (hlive : s.destructor = .notStarted)
    (hp : (machine z).Path s tr₁ s₁) (hstop : Event.stop ∉ tr₁)
    (hsteps : 7 * ((history tr).published.length - (history tr).released) <
      tr₁.countP Event.ofDrain) :
    (history tr).published.length ≤ (history (tr ++ tr₁)).released := by
  have hbound := s.drain.until_le ((history tr).published.length - (history tr).released)
  refine hp.counts Event.ofDrain (fun tr₁ => (history (tr ++ tr₁)).released)
    (fun k s => s.drain.until k) _ (fun tr₁ e => ?_)
    (fun {tr' s' e s''} rest htr hp' hlt hs => ?_)
    (fun k hk => Drain.until_pos hk (alive h hlive hp hstop).2)
    (by simp only [List.append_nil]; omega)
  · rw [← List.append_assoc]
    exact (published_mono _ _).2
  · have hi := Inv.of_run (h.append hp')
    obtain ⟨hon, hloop⟩ := alive h hlive hp' fun hmem => hstop (by simp [htr, hmem])
    rw [← List.append_assoc, history_snoc]
    cases Move.of_step hs with
    | log hl =>
      obtain ⟨hdrain, -, hreleased⟩ := Log.not_ofDrain hl
      rw [hdrain, hreleased]
      exact le_rfl
    | drain f hd =>
      rw [Drain.ofDrain hd]
      exact hi.until_step hon hloop (published_mono tr tr').1 hlt hd
    | _ => exact le_rfl

/-- **Every published record is forwarded in time.** Take what is published at some moment of a
run. However much the producer goes on to log, and whatever the other threads do, it has all been
forwarded once the drain thread has taken more than seven steps for each record that was not
released; and the drain thread can take them, as long as the destructor has not started. -/
theorem forwards_in_time (h : (machine z).Run tr s) (hlive : s.destructor = .notStarted)
    (hp : (machine z).Path s tr₁ s₁) (hstop : Event.stop ∉ tr₁) :
    (∃ f s' e, step z s₁ (.drain f) = some (s', e)) ∧
    (history tr).published.length ≤ (history tr).released + z.card ∧
    (7 * ((history tr).published.length - (history tr).released) < tr₁.countP Event.ofDrain →
      (history tr).published.map Call.sinkRecord <+: (history (tr ++ tr₁)).forwarded) := by
  have hexit : s₁.drain ≠ .exited := fun hexit => by
    have hloop := (alive h hlive hp hstop).2
    simp [hexit, Drain.place] at hloop
  refine ⟨drain_enabled hexit, (Inv.of_run h).published_le, fun hsteps => ?_⟩
  have hreached := released_in_time h hlive hp hstop hsteps
  have hearlier : (history tr).published <+: (history (tr ++ tr₁)).published := by
    rw [history_append]
    exact List.prefix_append _ _
  rw [(Inv.of_run (h.append hp)).forwarded_eq]
  exact List.IsPrefix.map _ (List.prefix_take_iff.mpr ⟨hearlier, by omega⟩)

/-- The drain thread takes eight steps, the producer none. -/
def forwarded : Option (List Event × State) :=
  (machine twoSlots).exec (logged.get logged_isSome).2 (drainAction ++ [.drain .time])

theorem forwarded_isSome : forwarded.isSome := by decide +kernel

theorem forwarded_events : Event.stop ∉ (forwarded.get forwarded_isSome).1 := by decide +kernel

theorem forwards_in_time_small :
    [hello.sinkRecord] <+: (history ((logged.get logged_isSome).1 ++
      (forwarded.get forwarded_isSome).1)).forwarded :=
  (forwards_in_time (run_small logged_isSome) rfl (.of_exec_get forwarded_isSome)
    forwarded_events).2.2 (by decide +kernel)

/-! ### `Flush` -/

/-- Without new calls, an idle producer publishes nothing. -/
theorem quiet (h : (machine z).Run tr s) (hidle : s.log = .idle) (hp : (machine z).Path s tr₁ s₁)
    (hcalls : ∀ c, Event.call c ∉ tr₁) :
    (history (tr ++ tr₁)).published.length = (history tr).published.length := by
  have hreturned := returned_le h hp hcalls
  rw [hidle] at hreturned
  simp only [Log.active] at hreturned
  rw [history_append]
  simp only [History.append, List.length_append]
  omega

/-- The wait loop was left on the way from `s` to `s₁`. -/
def Exits (z : Pow2Size) : State → List Event → State → Prop :=
  (machine z).Visits fun s => s.flush = .flushSink

theorem Flush.eq_flushSink {p : Flush} (h : p.waiter = .done) : p = .flushSink := by
  cases p <;> first | rfl | cases h

/-- Once everything is released and no call is made, the wait loop is left in three steps. -/
theorem exits_of_released (h : (machine z).Run tr s) (hidle : s.log = .idle)
    (hall : (history tr).published.length ≤ (history tr).released)
    (hp : (machine z).Path s tr₁ s₁) (hcalls : ∀ c, Event.call c ∉ tr₁)
    (hsteps : 3 ≤ tr₁.countP Event.ofFlush) : Exits z s tr₁ s₁ := by
  have hstill {tr' : List Event} {s' : State} (hp' : (machine z).Path s tr' s')
      (hcalls' : ∀ c, Event.call c ∉ tr') :
      s'.shared.tail_ = s.shared.head_ ∧ s'.shared.head_ = s.shared.head_ := by
    have hpub := quiet h hidle hp' hcalls'
    have hi := Inv.of_run h
    have hi' := Inv.of_run (h.append hp')
    have hmono := (published_mono tr tr').2
    have hle := hi'.released_le
    have hhead : s'.shared.head_ = s.shared.head_ := by rw [hi'.head_eq, hi.head_eq, hpub]
    exact ⟨(hi'.empty_iff.mpr (by omega)).trans hhead, hhead⟩
  refine (CatchUp.Waiter.visits_done (fun s => s.flush.waiter) Event.ofFlush s.shared.head_ hp
    (fun {tr' s' e s''} rest htr hp' hs => ?_) hsteps).imp fun s => Flush.eq_flushSink
  cases Move.of_step hs with
  | log hl => exact .inl ⟨(Log.not_ofDrain hl).2.1, rfl⟩
  | drain f hd => exact .inl ⟨(Drain.not_ofLog hd).2, rfl⟩
  | flush tailFirst =>
    obtain ⟨htail, hhead⟩ := hstill hp' fun c hmem => hcalls c (by simp [htr, hmem])
    refine .inr ⟨tailFirst, ?_⟩
    rw [Flush.waiter_step, htail, hhead]
  | _ => exact .inl ⟨rfl, rfl⟩

/-- **`Flush` returns.** Let no call of `Log` be in progress or made, and the destructor not have
started. Once the drain thread has taken more than seven steps for each record that was not
released, a thread in `Flush` leaves its wait loop within three steps of its own. -/
theorem flush_returns (h : (machine z).Run tr s) (hidle : s.log = .idle)
    (hlive : s.destructor = .notStarted) (hp₁ : (machine z).Path s tr₁ s₁)
    (hp₂ : (machine z).Path s₁ tr₂ s₂) (hcalls : ∀ c, Event.call c ∉ tr₁ ++ tr₂)
    (hstop : Event.stop ∉ tr₁)
    (hdrain : 7 * ((history tr).published.length - (history tr).released) <
      tr₁.countP Event.ofDrain)
    (hflush : 3 ≤ tr₂.countP Event.ofFlush) : Exits z s₁ tr₂ s₂ := by
  have hcalls₁ : ∀ c, Event.call c ∉ tr₁ := fun c hmem => hcalls c (by simp [hmem])
  have hreleased := released_in_time h hlive hp₁ hstop hdrain
  exact exits_of_released (h.append hp₁) (idle_of_path hp₁ hidle hcalls₁)
    ((quiet h hidle hp₁ hcalls₁).trans_le hreleased) hp₂
    (fun c hmem => hcalls c (by simp [hmem])) hflush

/-- The record is forwarded; then `Flush` is called. -/
def waited : Option (List Event × State) :=
  (machine twoSlots).exec (forwarded.get forwarded_isSome).2 (List.replicate 3 (.flush true))

theorem waited_isSome : waited.isSome := by decide +kernel

theorem no_call_waited (c : Call) :
    Event.call c ∉ (forwarded.get forwarded_isSome).1 ++ (waited.get waited_isSome).1 := by
  have hevents : (forwarded.get forwarded_isSome).1 ++ (waited.get waited_isSome).1 =
      [.drain, .drain, .drain, .drain, .drain, .forward hello.sinkRecord, .release, .drain,
        .flush, .flush, .flush] := by decide +kernel
  rw [hevents]
  simp

theorem flush_returns_small :
    Exits twoSlots (forwarded.get forwarded_isSome).2 (waited.get waited_isSome).1
      (waited.get waited_isSome).2 :=
  flush_returns (run_small logged_isSome) (by decide +kernel) rfl (.of_exec_get forwarded_isSome)
    (.of_exec_get waited_isSome) no_call_waited forwarded_events
    (by decide +kernel) (by decide +kernel)

/-! ### The destructor -/

/-- How many steps the drain thread takes at most until it has left its loop, with `k` records not
released, once `running_` is off. -/
def Drain.last (k : ℕ) : Drain → ℕ
  | .loadTail => 7 * k + 4
  | .loadHead _ => 7 * k + 3
  | .loadRunning _ => 7 * k + 2
  | .read _ v => 7 * k + v.missing - 1
  | .storeTail _ => 7 * k - 2
  | .flushSink => 1
  | .exited => 0

theorem Drain.last_le (k : ℕ) (p : Drain) : p.last k ≤ 7 * k + 4 := by
  cases p with
  | read tail v =>
    have := v.missing_le
    simp only [Drain.last]
    omega
  | _ => simp only [Drain.last]; omega

/-- Each of its steps is one of them. -/
theorem Inv.last_step {m : Shared} {p : Drain} {f : Field} (hi : Inv z t s)
    (hrun : s.shared.running_ = false) (hs : s.drain.step z s.shared f = some (m, p, e)) :
    p.last (t.published.length - (t.note e).released) + 1 ≤
      s.drain.last (t.published.length - t.released) := by
  have hok := hi.drain_ok
  generalize hd : s.drain = p₀ at hs
  rw [hd] at hok
  cases DrainMove.of_step hs with
  | again hon =>
    rw [hrun] at hon
    cases hon
  | found hne =>
    simp only [Drain.last, History.note, View.missing_empty]
    omega
  | read f hv =>
    obtain ⟨-, c, hc, -⟩ := hok
    have hlt := (List.getElem?_eq_some_iff.mp hc).1
    have hone := View.missing_read hv
    simp only [Drain.last, History.note]
    omega
  | forward hx =>
    obtain ⟨-, c, hc, -⟩ := hok
    have hlt := (List.getElem?_eq_some_iff.mp hc).1
    simp only [Drain.last, History.note]
    omega
  | storeTail =>
    have hlt := hok.2
    simp only [Drain.last, History.note]
    omega
  | _ =>
    simp only [Drain.last, History.note]
    omega

/-- After the last of them it has left its loop. -/
theorem Inv.exited_of_last (hi : Inv z t s)
    (hzero : s.drain.last (t.published.length - t.released) = 0) : s.drain = .exited := by
  have hok := hi.drain_ok
  cases hd : s.drain with
  | exited => rfl
  | read tail v =>
    rw [hd] at hok hzero
    obtain ⟨-, c, hc, -⟩ := hok
    have hlt := (List.getElem?_eq_some_iff.mp hc).1
    simp only [Drain.last] at hzero
    omega
  | storeTail tail =>
    rw [hd] at hok hzero
    have hlt := hok.2
    simp only [Drain.last] at hzero
    omega
  | _ => rw [hd] at hzero; simp [Drain.last] at hzero

/-- What the destructor waits for: it may join, or the drain thread can go on. -/
def CanGoOn (z : Pow2Size) (s : State) : Prop :=
  s.destructor = .joined ∨ (∃ s', step z s .join = some (s', .join)) ∨
    ∃ f s' e, step z s (.drain f) = some (s', e)

theorem canGoOn_of_stopped (z : Pow2Size) (hl : s.life.Ok) (hoff : s.shared.running_ = false) :
    CanGoOn z s := by
  rcases hl.waits hoff with hjoined | ⟨hjoining, hended⟩ | hgo
  · exact .inl (Destructor.owner_injective hjoined)
  · have hd : s.destructor = .joining := Destructor.owner_injective hjoining
    have hjoin : step z s .join = some ({ s with destructor := .joined }, .join) := by
      simp [step, hd, Drain.place_eq_ended hended]
    exact .inr (.inl ⟨_, hjoin⟩)
  · exact .inr (.inr (drain_enabled fun hexit => hgo (congrArg Drain.place hexit)))

/-- **The destructor returns.** Let all calls of `Log` have returned when the destructor starts, and
none be made after. Then the drain thread takes at most seven steps for each record that was not
released and four more; after them it has left its loop and the destructor joins it, and before
it is never stuck. -/
theorem destructor_returns (h : (machine z).Run tr s) (hidle : s.log = .idle)
    (hstop : step z s .stop = some (s₁, .stop)) (hp : (machine z).Path s₁ tr₁ s₂)
    (hcalls : ∀ c, Event.call c ∉ tr₁) :
    tr₁.countP Event.ofDrain ≤
      7 * ((history tr).published.length - (history tr).released) + 4 ∧
    CanGoOn z s₂ ∧
    (tr₁.countP Event.ofDrain =
        7 * ((history tr).published.length - (history tr).released) + 4 → s₂.drain = .exited) := by
  have hrun : (machine z).Run (tr ++ [.stop]) s₁ := h.snoc ⟨.stop, hstop⟩
  have hnote : history (tr ++ [.stop]) = history tr := history_snoc _ _
  obtain ⟨-, rfl⟩ := stop_eq (z := z) hstop
  have hoff : (stopped s).life.flag = false := rfl
  set n := (history tr).published.length with hn
  have hle : tr₁.countP Event.ofDrain +
      s₂.drain.last (n - (history (tr ++ [.stop] ++ tr₁)).released) ≤
      s.drain.last (n - (history (tr ++ [.stop] ++ [])).released) := by
    refine hp.steps_le Event.ofDrain
      (fun tr₁ s => s.drain.last (n - (history (tr ++ [.stop] ++ tr₁)).released))
      fun {tr' s' e s''} rest htr hp' hs => ?_
    have hcalls' : ∀ c, Event.call c ∉ tr' := fun c hmem => hcalls c (by simp [htr, hmem])
    have hpub := quiet hrun hidle hp' hcalls'
    rw [hnote, ← hn] at hpub
    have hi := Inv.of_run (hrun.append hp')
    rw [← List.append_assoc, history_snoc]
    cases Move.of_step hs with
    | log hl =>
      obtain ⟨hdrain, -, hreleased⟩ := Log.not_ofDrain hl
      rw [hdrain, hreleased]
      exact le_rfl
    | drain f hd =>
      rw [Drain.ofDrain hd, ← hpub]
      exact hi.last_step (life_follows.stopped hp' hoff) hd
    | _ => exact le_rfl
  rw [List.append_nil, hnote] at hle
  have hmax := s.drain.last_le (n - (history tr).released)
  refine ⟨by omega, canGoOn_of_stopped z (life_ok (hrun.append hp)) (life_follows.stopped hp hoff),
    fun hfull => ?_⟩
  have hpub := quiet hrun hidle hp hcalls
  rw [hnote, ← hn] at hpub
  refine (Inv.of_run (hrun.append hp)).exited_of_last ?_
  rw [hpub]
  omega

/-- The destructor of the small logger starts when its record has not been forwarded. -/
def destroyed : Option (List Event × State) :=
  (machine twoSlots).exec (stopped (logged.get logged_isSome).2)
    (drainAction ++ List.replicate 4 (.drain .time))

theorem destroyed_isSome : destroyed.isSome := by decide +kernel

theorem no_call_destroyed (c : Call) : Event.call c ∉ (destroyed.get destroyed_isSome).1 := by
  have hevents : (destroyed.get destroyed_isSome).1 =
      [.drain, .drain, .drain, .drain, .drain, .forward hello.sinkRecord, .release, .drain,
        .drain, .drain, .drain] := by decide +kernel
  rw [hevents]
  simp

theorem destructor_returns_small : (destroyed.get destroyed_isSome).2.drain = .exited :=
  (destructor_returns (run_small logged_isSome) (by decide +kernel) rfl
    (.of_exec_get destroyed_isSome) no_call_destroyed).2.2 (by decide +kernel)

end RtLogger

end XmSigma
