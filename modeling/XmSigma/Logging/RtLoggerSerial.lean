import XmSigma.Lib.Serial
import XmSigma.Logging.LogQueue
import XmSigma.Logging.RtLoggerDelivery

/-!
# `RtLogger`, one operation at a time

When no thread is interrupted, a call of `Log` and an iteration of the drain loop are functions on
the shared members (`Log.ahead`, `Drain.ahead` say what is left of them at each program point), and
these functions do to the ring what the operations do to a bounded queue of `capacity_` calls.

## Main results

* `Simulates.turn`: every operation can be executed, and does what it does to the bounded queue
* `shows_iff`: a new logger shows what the bounded queue shows
-/

namespace XmSigma

namespace RtLogger

variable {z : Pow2Size} {s s' : State} {m m' : Shared} {q : LogQueue} {c : Call} {tr : List Event}
  {e : Event}

/-! ### Operations of the machine -/

/-- What an observer is told. -/
def Event.report : Event → Option Report
  | .publish c => some (.accept c)
  | .suppress c => some (.suppress c)
  | .drop c => some (.drop c)
  | .forward r => some (.forward r)
  | _ => none

/-- The choices that belong to an operation. The arguments of `sink_logger_->log` may be evaluated
in any order. -/
def choices : Op → Action → Prop
  | .log c, a => a = .call c ∨ a = .log
  | .setLevel level, a => a = .setLevel level
  | .drain, a => ∃ f, a = .drain f

/-- When an operation is over. -/
def done : Op → State → Prop
  | .log _, s => s.log = .idle
  | .setLevel _, _ => True
  | .drain, s => s.drain = .loadTail

/-- What can be seen of an operation: the reports and the count of drops. -/
def see (tr : List Event) (s : State) : Seen := ⟨tr.filterMap Event.report, s.shared.dropped_⟩

/-! ### What is left of a call -/

/-- The record is written and published. -/
def Shared.write (z : Pow2Size) (c : Call) (head : UInt64) (todo : List Field) (m : Shared) :
    Shared :=
  let i := z.slot head
  { m with
    ring_ := Function.update m.ring_ i (todo.foldl (fun r f => r.assign c f) (m.ring_ i))
    head_ := head + 1 }

/-- The call is counted as dropped. -/
def Shared.bump (m : Shared) : Shared := { m with dropped_ := m.dropped_ + 1 }

/-- A call that passed the level test. -/
def Shared.offer (z : Pow2Size) (c : Call) (m : Shared) : List Report × Shared :=
  if z.size ≤ m.head_ - m.tail_ then ([.drop c], m.bump)
  else ([.accept c], m.write z c m.head_ assignments)

/-- What a call still reports, and the shared members when it returns. -/
def Log.ahead (z : Pow2Size) (m : Shared) : Log → List Report × Shared
  | .idle => ([], m)
  | .loadLevel c => if c.level < m.min_level_ then ([.suppress c], m) else m.offer z c
  | .loadHead c => m.offer z c
  | .loadTail c head =>
    if z.size ≤ head - m.tail_ then ([.drop c], m.bump)
    else ([.accept c], m.write z c head assignments)
  | .bumpDropped c => ([.drop c], m.bump)
  | .assign c head todo => ([.accept c], m.write z c head todo)

theorem Log.step_ahead {p p' : Log} (h : p.step z m = some (m', p', e)) :
    p.ahead z m = (e.report.toList ++ (p'.ahead z m').1, (p'.ahead z m').2) := by
  cases LogMove.of_step h with
  | suppress hlt => exact if_pos hlt
  | pass hge => exact if_neg hge
  | full hfull => exact if_pos hfull
  | room hroom => exact if_neg hroom
  | assign => simp [ahead, Shared.write, Event.report]
  | publish => simp [ahead, Shared.write, Event.report]
  | _ => rfl

/-! ### What is left of an iteration -/

/-- What an iteration of the drain loop still reports, and the shared members at its end. -/
def Drain.ahead (z : Pow2Size) (m : Shared) : Drain → List Report × Shared
  | .loadHead tail =>
    if tail = m.head_ then ([], m)
    else ([.forward (m.ring_ (z.slot tail)).sinkRecord], { m with tail_ := tail + 1 })
  | .read tail v =>
    ([.forward (v.complete (m.ring_ (z.slot tail)))], { m with tail_ := tail + 1 })
  | .storeTail tail => ([], { m with tail_ := tail + 1 })
  | .loadTail | .loadRunning _ | .flushSink | .exited => ([], m)

theorem Drain.step_ahead {d d' : Drain} {f : Field} (hgo : d ≠ .loadTail)
    (h : d.step z m f = some (m', d', e)) :
    d.ahead z m = (e.report.toList ++ (d'.ahead z m').1, (d'.ahead z m').2) := by
  cases DrainMove.of_step h with
  | loadTail => exact absurd rfl hgo
  | empty heq => exact if_pos heq
  | found hne => exact if_neg hne
  | read f hv =>
    rw [ahead, ahead, View.complete_read hv]
    rfl
  | forward hx =>
    rw [ahead, View.complete_forward hx]
    rfl
  | _ => rfl

/-! ### Operations as functions -/

/-- How many steps a call has left, at most. -/
def Log.left : Log → ℕ
  | .idle => 0
  | .loadLevel _ => 8
  | .loadHead _ => 7
  | .loadTail _ _ => 6
  | .bumpDropped _ => 1
  | .assign _ _ todo => todo.length + 1

theorem Log.left_step {p p' : Log} (h : p.step z m = some (m', p', e)) : p'.left < p.left := by
  cases LogMove.of_step h <;> simp [left, assignments]

/-- What the call in progress still reports, and the state when it returns. -/
def State.logAhead (z : Pow2Size) (s : State) : List Report × State :=
  ((s.log.ahead z s.shared).1, { s with shared := (s.log.ahead z s.shared).2, log := .idle })

/-- A call is a function on the shared members. -/
theorem foretells_log (z : Pow2Size) (c : Call) :
    (machine z).Foretells (choices (.log c)) (done (.log c)) Event.report (fun _ => True)
      (State.logAhead z) (fun s => s.log.left) where
  stop {s} hidle := by
    obtain ⟨m, log, drain, flush, destructor⟩ := s
    obtain rfl : log = .idle := hidle
    rfl
  step {s a s' e} hgo _ ha hs := by
    rcases ha with rfl | rfl
    · simp only [machine, step] at hs
      split at hs
      · next hidle => exact absurd hidle hgo
      · cases hs
    · obtain ⟨⟨m, p, e⟩, hp, hx⟩ := Option.map_eq_some_iff.mp hs
      cases hx
      refine ⟨trivial, ?_⟩
      simp only [State.logAhead]
      rw [Log.step_ahead hp]
  go {s} hgo _ := by
    obtain ⟨⟨m, p, e⟩, hp⟩ := Log.exists_next hgo z s.shared
    exact ⟨.log, _, e, .inr rfl, Option.map_eq_some_iff.mpr ⟨_, hp, rfl⟩, Log.left_step hp⟩

/-- How many steps an iteration has left, at most. -/
def Drain.left : Drain → ℕ
  | .loadTail | .flushSink | .exited => 0
  | .loadHead _ => 6
  | .loadRunning _ | .storeTail _ => 1
  | .read _ v => v.missing + 2

theorem Drain.left_step {d d' : Drain} {f : Field} (hgo : d ≠ .loadTail)
    (hrun : m.running_ = true) (hloop : d.place = .busy ∨ d.place = .asking)
    (h : d.step z m f = some (m', d', e)) : d'.left < d.left := by
  cases DrainMove.of_step h with
  | loadTail => exact absurd rfl hgo
  | leave hoff =>
    rw [hrun] at hoff
    cases hoff
  | read f hv =>
    have hone := View.missing_read hv
    simp only [left]
    omega
  | flushSink => simp [place] at hloop
  | _ => simp [left, View.missing_empty]

/-- What the iteration still reports, and the state at its end. -/
def State.drainAhead (z : Pow2Size) (s : State) : List Report × State :=
  ((s.drain.ahead z s.shared).1,
    { s with shared := (s.drain.ahead z s.shared).2, drain := .loadTail })

/-- An iteration is a function on the shared members, while the logger lives. -/
theorem foretells_drain (z : Pow2Size) :
    (machine z).Foretells (choices .drain) (done .drain) Event.report
      (fun s => s.shared.running_ = true ∧ (s.drain.place = .busy ∨ s.drain.place = .asking))
      (State.drainAhead z) (fun s => s.drain.left) where
  stop {s} hhead := by
    obtain ⟨m, log, drain, flush, destructor⟩ := s
    obtain rfl : drain = .loadTail := hhead
    rfl
  step {s a s' e} hgo hloop ha hs := by
    obtain ⟨f, rfl⟩ := ha
    obtain ⟨⟨m, d, e⟩, hd, hx⟩ := Option.map_eq_some_iff.mp hs
    cases hx
    obtain ⟨hmove, hrun, -⟩ := Drain.place_move hd
    refine ⟨⟨hrun.trans hloop.1, hmove.looping hloop.1 hloop.2⟩, ?_⟩
    simp only [State.drainAhead]
    rw [Drain.step_ahead hgo hd]
  go {s} hgo hloop := by
    have hexit : s.drain ≠ .exited := fun hexit => by simp [hexit, Drain.place] at hloop
    obtain ⟨f, ⟨m, d, e⟩, hd⟩ := Drain.exists_next hexit z s.shared
    exact ⟨.drain f, _, e, ⟨f, rfl⟩, Option.map_eq_some_iff.mpr ⟨_, hd, rfl⟩,
      Drain.left_step hgo hloop.1 hloop.2 hd⟩

/-! ### The bounded queue in the ring -/

/-- The shared members implement the queue `q`. -/
structure Shared.Implements (z : Pow2Size) (m : Shared) (q : LogQueue) : Prop where
  running : m.running_ = true
  level_eq : m.min_level_ = q.level
  dropped_eq : m.dropped_ = q.dropped
  length_le : q.queue.length ≤ z.card
  ring : ∃ k, m.tail_ = .ofNat k ∧ m.head_ = .ofNat (k + q.queue.length) ∧
    RingHolds z m.ring_ k q.queue

/-- A call of `Log` is an operation on the queue. -/
theorem Shared.Implements.log (h : m.Implements z q) (c : Call) :
    ((Log.loadLevel c).ahead z m).1 = (q.apply z.card (.log c)).2 ∧
      ((Log.loadLevel c).ahead z m).2.Implements z (q.apply z.card (.log c)).1 := by
  obtain ⟨k, htail, hhead, hring⟩ := h.ring
  have hle := h.length_le
  have hcard := z.card_le
  rw [Log.ahead, LogQueue.apply, h.level_eq]
  by_cases hlt : c.level < q.level
  · rw [if_pos hlt, if_pos hlt]
    exact ⟨rfl, h⟩
  · rw [if_neg hlt, if_neg hlt, Shared.offer]
    have hfull : z.size ≤ m.head_ - m.tail_ ↔ ¬ q.queue.length < z.card := by
      rw [htail, hhead, UInt64.le_iff_toNat_le, toNat_ofNat_sub (by omega) (by omega)]
      show z.card ≤ _ ↔ _
      omega
    by_cases hroom : q.queue.length < z.card
    · rw [if_neg (by rwa [hfull, not_not]), if_pos hroom]
      refine ⟨rfl, { h with length_le := ?_, ring := ⟨k, htail, ?_, ?_⟩ }⟩
      · rw [List.length_append, List.length_singleton]
        exact hroom
      · show m.head_ + 1 = _
        rw [hhead, List.length_append]
        simp [← Nat.add_assoc]
      · show RingHolds z (Function.update m.ring_ (z.slot m.head_) _) k _
        rw [hhead, z.slot_ofNat]
        refine hring.push hroom fun f => Record.foldl_assign_holds (.inl ?_)
        cases f <;> decide
    · rw [if_pos (hfull.mpr hroom), if_neg hroom]
      refine ⟨rfl, { h with dropped_eq := ?_ }⟩
      show m.dropped_ + 1 = _
      rw [h.dropped_eq]

/-- An iteration of the drain loop is an operation on the queue. -/
theorem Shared.Implements.drain (h : m.Implements z q) :
    ((Drain.loadHead m.tail_).ahead z m).1 = (q.apply z.card .drain).2 ∧
      ((Drain.loadHead m.tail_).ahead z m).2.Implements z (q.apply z.card .drain).1 := by
  obtain ⟨k, htail, hhead, hring⟩ := h.ring
  have hle := h.length_le
  have hcard := z.card_le
  have hempty : m.tail_ = m.head_ ↔ q.queue.length = 0 := by
    rw [htail, hhead, ofNat_inj_of_le (by omega) (by omega)]
    omega
  rw [Drain.ahead, LogQueue.apply]
  cases hq : q.queue with
  | nil =>
    rw [if_pos (hempty.mpr (by rw [hq]; rfl))]
    exact ⟨rfl, h⟩
  | cons c rest =>
    rw [hq] at hring hle hhead
    obtain ⟨hfirst, hrest⟩ := hring.pop
    have hne : m.tail_ ≠ m.head_ := by
      rw [Ne, hempty, hq]
      simp
    rw [if_neg hne, htail, z.slot_ofNat, Record.sinkRecord_eq hfirst]
    refine ⟨rfl, { h with length_le := Nat.le_of_succ_le hle, ring := ⟨k + 1, ?_, ?_, hrest⟩ }⟩
    · exact (UInt64.ofNat_add k 1).symm
    · show m.head_ = .ofNat (k + 1 + rest.length)
      rw [hhead, List.length_cons]
      congr 1
      omega

/-! ### Simulation -/

/-- Both threads are at rest, and the ring implements the queue. -/
structure Simulates (z : Pow2Size) (s : State) (q : LogQueue) : Prop where
  log_idle : s.log = .idle
  drain_head : s.drain = .loadTail
  shared : s.shared.Implements z q

/-- Every operation can be executed, and does what it does to the bounded queue. -/
theorem Simulates.turn (h : Simulates z s q) (op : Op) :
    (∃ tr s', (machine z).Turn (choices op) (done op) s tr s') ∧
      ∀ {tr s'}, (machine z).Turn (choices op) (done op) s tr s' →
        see tr s' = (q.spec z.card op).2 ∧ Simulates z s' (q.spec z.card op).1 := by
  cases op with
  | log c =>
    have hcall : (machine z).step s (.call c) = some ({ s with log := .loadLevel c }, .call c) := by
      simp only [machine, step, h.log_idle]
    have hfirst {a x} (ha : choices (.log c) a) (hs : (machine z).step s a = some x) :
        x = ({ s with log := .loadLevel c }, .call c) := by
      rcases ha with rfl | rfl
      · exact (Option.some.inj (hcall.symm.trans hs)).symm
      · simp [machine, step, h.log_idle, Log.step] at hs
    obtain ⟨hexists, hall⟩ := (foretells_log z c).turn (.inl rfl) hcall hfirst rfl trivial
    refine ⟨hexists, fun hturn => ?_⟩
    obtain ⟨hreports, rfl⟩ := hall hturn
    obtain ⟨heq, himpl⟩ := h.shared.log c
    exact ⟨congrArg₂ Seen.mk (hreports.trans heq) himpl.dropped_eq, rfl, h.drain_head, himpl⟩
  | setLevel level =>
    have hfirst {a x} (ha : choices (.setLevel level) a) (hs : (machine z).step s a = some x) :
        x = ({ s with shared := { s.shared with min_level_ := level } }, .setLevel level) := by
      cases ha
      exact (Option.some.inj hs).symm
    obtain ⟨hexists, hall⟩ :=
      Machine.Turn.single (A := choices (.setLevel level)) (done (.setLevel level)) rfl rfl hfirst
        trivial
    refine ⟨hexists, fun hturn => ?_⟩
    obtain ⟨rfl, rfl⟩ := hall hturn
    exact ⟨congrArg (Seen.mk []) h.shared.dropped_eq, h.log_idle, h.drain_head,
      { h.shared with level_eq := rfl }⟩
  | drain =>
    have hload (f : Field) : (machine z).step s (.drain f) =
        some ({ s with drain := .loadHead s.shared.tail_ }, .drain) := by
      simp only [machine, step, h.drain_head, Drain.step, Option.map_some]
    have hfirst {a x} (ha : choices .drain a) (hs : (machine z).step s a = some x) :
        x = ({ s with drain := .loadHead s.shared.tail_ }, .drain) := by
      obtain ⟨f, rfl⟩ := ha
      exact (Option.some.inj ((hload f).symm.trans hs)).symm
    obtain ⟨hexists, hall⟩ := (foretells_drain z).turn ⟨.time, rfl⟩ (hload _) hfirst rfl
      ⟨h.shared.running, .inl rfl⟩
    refine ⟨hexists, fun hturn => ?_⟩
    obtain ⟨hreports, rfl⟩ := hall hturn
    obtain ⟨heq, himpl⟩ := h.shared.drain
    exact ⟨congrArg₂ Seen.mk (hreports.trans heq) himpl.dropped_eq, h.log_idle, rfl, himpl⟩

theorem Simulates.initial (raw : ℕ → Vector UInt8 kMaxMsgLen) (level : LogLevel) :
    Simulates z (RtLogger.initial raw level) (.initial level) where
  log_idle := rfl
  drain_head := rfl
  shared :=
    { running := rfl
      level_eq := rfl
      dropped_eq := rfl
      length_le := Nat.zero_le _
      ring := ⟨0, rfl, rfl, .nil⟩ }

/-- What is seen of the operations, executed one after another on a new logger. -/
def Shows (z : Pow2Size) (raw : ℕ → Vector UInt8 kMaxMsgLen) (level : LogLevel) (ops : List Op)
    (os : List Seen) : Prop :=
  (machine z).Serial choices done see (initial raw level) ops os

/-- A new logger shows what the bounded queue of `capacity_` calls shows. -/
theorem shows_iff (raw : ℕ → Vector UInt8 kMaxMsgLen) (level : LogLevel) (ops : List Op)
    (os : List Seen) :
    Shows z raw level ops os ↔ os = observe (LogQueue.spec z.card) (.initial level) ops :=
  Machine.Serial.iff_observe (fun op h => h.turn op) (Simulates.initial raw level) ops os

end RtLogger

end XmSigma
