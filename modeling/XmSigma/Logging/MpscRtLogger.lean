import XmSigma.Lib.Machine
import XmSigma.Lib.Word64
import XmSigma.Logging.Record
import Mathlib.Logic.Function.Basic

/-!
# `MpscRtLogger`: any number of producers, one drain thread

The bounded multi-producer ring of `rt_logger_mpsc.hpp` and `rt_logger_mpsc.cpp`, as a machine
whose steps are the single accesses to shared memory, in the manner of `RtLogger`. The producers
are indexed by an arbitrary type `ι`; each of them is at its own program point inside `Log`.

`compare_exchange_weak` may fail although the values are equal. The scheduler decides that with
the flag of `Action.log`; such a failure reports itself as `Event.spurious`, so that results
about runs without it can say so.

The difference `diff` of the source subtracts two `int64_t`. `signedDiff` is that subtraction in
two's complement; in C++ it is undefined where it overflows, which it does not as long as the
counters stay below `2 ^ 63` (`CountersBelow`).
-/

namespace XmSigma

namespace MpscRtLogger

/-- `MpscRtLogger::Cell`. -/
structure Cell extends Record where
  sequence : UInt64

/-- The members that more than one thread touches. -/
structure Shared where
  cells_ : ℕ → Cell
  min_level_ : LogLevel
  enqueue_pos_ : UInt64
  dequeue_pos_ : UInt64
  dropped_ : UInt64
  running_ : Bool

/-- What a step reports. -/
inductive Event (ι : Type*)
  /-- Producer `i` enters `Log`. -/
  | call (i : ι) (c : Call)
  /-- The call returns from the level test. -/
  | suppress (i : ι) (c : Call)
  /-- The call counts itself as dropped and returns. -/
  | drop (i : ι) (c : Call)
  /-- The exchange succeeds: the call owns the cell. -/
  | claim (i : ι) (c : Call)
  /-- A round of the claim loop is lost to another producer. -/
  | retry (i : ι)
  /-- The exchange fails although the values are equal. -/
  | spurious (i : ι)
  /-- The call publishes its cell and returns. -/
  | publish (i : ι) (c : Call)
  /-- Any other step of producer `i`. -/
  | log (i : ι)
  | setLevel (level : LogLevel)
  /-- The drain thread hands a record to the sink. -/
  | forward (r : SinkRecord)
  /-- The drain thread stores `dequeue_pos_`. -/
  | advance
  /-- The drain thread frees the cell. -/
  | free
  /-- Any other step of the drain thread. -/
  | drain
  /-- The destructor stores `running_`. -/
  | stop
  /-- The destructor has joined the drain thread. -/
  | join
  | flush
  deriving DecidableEq

/-! ### A producer -/

/-- The assignments to the cell, in the order of the body of `Log`. -/
def assignments : List Field := [.time, .level, .msg, .len]

/-- Where a producer is. -/
inductive Log
  | idle
  | loadLevel (c : Call)
  | loadPos (c : Call)
  /-- The head of the claim loop. -/
  | loadSeq (c : Call) (pos : UInt64)
  /-- `diff == 0`. -/
  | exchange (c : Call) (pos : UInt64)
  /-- `diff < 0`. -/
  | bumpDropped (c : Call)
  /-- `diff > 0`. -/
  | reload (c : Call) (pos : UInt64)
  | assign (c : Call) (pos : UInt64) (todo : List Field)
  deriving DecidableEq

/-- One step of `MpscRtLogger::Log` in producer `i`. -/
def Log.step {ι : Type*} (z : Pow2Size) (i : ι) (m : Shared) (spurious : Bool) :
    Log → Option (Shared × Log × Event ι)
  | .idle => none
  | .loadLevel c =>
    if c.level < m.min_level_ then some (m, .idle, .suppress i c) else some (m, .loadPos c, .log i)
  | .loadPos c => some (m, .loadSeq c m.enqueue_pos_, .log i)
  | .loadSeq c pos =>
    let diff := signedDiff (m.cells_ (z.slot pos)).sequence pos
    if diff = 0 then some (m, .exchange c pos, .log i)
    else if diff < 0 then some (m, .bumpDropped c, .log i)
    else some (m, .reload c pos, .log i)
  | .exchange c pos =>
    if m.enqueue_pos_ ≠ pos then some (m, .loadSeq c m.enqueue_pos_, .retry i)
    else if spurious then some (m, .loadSeq c pos, .spurious i)
    else some ({ m with enqueue_pos_ := pos + 1 }, .assign c pos assignments, .claim i c)
  | .bumpDropped c => some ({ m with dropped_ := m.dropped_ + 1 }, .idle, .drop i c)
  | .reload c _ => some (m, .loadSeq c m.enqueue_pos_, .retry i)
  | .assign c pos (f :: todo) =>
    let cell := m.cells_ (z.slot pos)
    some ({ m with
      cells_ := Function.update m.cells_ (z.slot pos)
        { cell with toRecord := cell.toRecord.assign c f } }, .assign c pos todo, .log i)
  | .assign c pos [] =>
    let cell := m.cells_ (z.slot pos)
    some ({ m with
      cells_ := Function.update m.cells_ (z.slot pos) { cell with sequence := pos + 1 } },
      .idle, .publish i c)

/-! ### The drain thread -/

/-- Where the drain thread is. -/
inductive Drain
  | loadPos
  | loadSeq (pos : UInt64)
  /-- `diff != 0`: the ring looked empty. -/
  | loadRunning (pos : UInt64)
  /-- `diff == 0`: the arguments of `sink_logger_->log` are being evaluated. -/
  | read (pos : UInt64) (v : View)
  | advance (pos : UInt64)
  | free (pos : UInt64)
  /-- The loop was left. -/
  | flushSink
  | exited
  deriving DecidableEq

/-- One step of `MpscRtLogger::DrainLoop`; `f` is the argument evaluated next, where one is.
Reading `msg` is part of the call that forwards the record. -/
def Drain.step {ι : Type*} (z : Pow2Size) (m : Shared) (f : Field) :
    Drain → Option (Shared × Drain × Event ι)
  | .loadPos => some (m, .loadSeq m.dequeue_pos_, .drain)
  | .loadSeq pos =>
    let diff := signedDiff (m.cells_ (z.slot pos)).sequence (pos + 1)
    if diff = 0 then some (m, .read pos {}, .drain) else some (m, .loadRunning pos, .drain)
  | .loadRunning _ =>
    if m.running_ then some (m, .loadPos, .drain) else some (m, .flushSink, .drain)
  | .read pos v =>
    let r := (m.cells_ (z.slot pos)).toRecord
    match f with
    | .msg => (v.forward r).map fun x => (m, .advance pos, .forward x)
    | f => (v.read r f).map fun v' => (m, .read pos v', .drain)
  | .advance pos => some ({ m with dequeue_pos_ := pos + 1 }, .free pos, .advance)
  | .free pos =>
    let cell := m.cells_ (z.slot pos)
    some ({ m with
      cells_ := Function.update m.cells_ (z.slot pos) { cell with sequence := pos + z.mask + 1 } },
      .loadPos, .free)
  | .flushSink => some (m, .exited, .drain)
  | .exited => none

/-! ### `Flush` and the destructor -/

/-- Where a thread calling `Flush` is. The operands of `!=` are loaded in either order. -/
inductive Flush
  | idle
  | compare
  | loadedDequeue (dequeue : UInt64)
  | loadedEnqueue (enqueue : UInt64)
  | flushSink
  deriving DecidableEq

/-- One step of `MpscRtLogger::Flush`; `dequeueFirst` chooses the operand loaded first. -/
def Flush.step (m : Shared) (dequeueFirst : Bool) : Flush → Flush
  | .idle => .compare
  | .compare => if dequeueFirst then .loadedDequeue m.dequeue_pos_ else .loadedEnqueue m.enqueue_pos_
  | .loadedDequeue dequeue => if dequeue ≠ m.enqueue_pos_ then .compare else .flushSink
  | .loadedEnqueue enqueue => if m.dequeue_pos_ ≠ enqueue then .compare else .flushSink
  | .flushSink => .idle

/-- Where the thread is that destroys the logger. -/
inductive Destructor
  | notStarted
  | joining
  | joined
  deriving DecidableEq

/-! ### The machine -/

/-- The shared members, and where each thread is. -/
structure State (ι : Type*) where
  shared : Shared
  producers : ι → Log
  drain : Drain
  flush : Flush
  destructor : Destructor

/-- The choices of the scheduler, with what comes from outside. -/
inductive Action (ι : Type*)
  | call (i : ι) (c : Call)
  | log (i : ι) (spurious : Bool)
  | setLevel (level : LogLevel)
  | drain (f : Field)
  | flush (dequeueFirst : Bool)
  | stop
  | join
  deriving DecidableEq

section
variable {ι : Type*} [DecidableEq ι]

/-- One atomic step. -/
def step (z : Pow2Size) (s : State ι) : Action ι → Option (State ι × Event ι)
  | .call i c =>
    match s.producers i with
    | .idle => some ({ s with producers := Function.update s.producers i (.loadLevel c) }, .call i c)
    | _ => none
  | .log i spurious =>
    ((s.producers i).step z i s.shared spurious).map fun (m, p, e) =>
      ({ s with shared := m, producers := Function.update s.producers i p }, e)
  | .setLevel level =>
    some ({ s with shared := { s.shared with min_level_ := level } }, .setLevel level)
  | .drain f =>
    (s.drain.step z s.shared f).map fun (m, p, e) => ({ s with shared := m, drain := p }, e)
  | .flush dequeueFirst => some ({ s with flush := s.flush.step s.shared dequeueFirst }, .flush)
  | .stop =>
    match s.destructor with
    | .notStarted =>
      some ({ s with shared := { s.shared with running_ := false }, destructor := .joining }, .stop)
    | _ => none
  | .join =>
    match s.destructor, s.drain with
    | .joining, .exited => some ({ s with destructor := .joined }, .join)
    | _, _ => none

/-- The logger as the constructor leaves it, with the drain thread started: each cell's sequence
is its index. The level comes from the environment, the message bytes of the cells are whatever
was in memory. -/
def initial (raw : ℕ → Vector UInt8 kMaxMsgLen) (level : LogLevel) : State ι where
  shared :=
    { cells_ := fun i => { Record.fresh (raw i) with sequence := .ofNat i }, min_level_ := level,
      enqueue_pos_ := 0, dequeue_pos_ := 0, dropped_ := 0, running_ := true }
  producers := fun _ => .idle
  drain := .loadPos
  flush := .idle
  destructor := .notStarted

/-- The logger with a ring of `z.size` cells. -/
def machine (z : Pow2Size) : Machine (State ι) (Action ι) (Event ι) where
  init s := ∃ raw level, s = initial raw level
  step := step z

/-- Who took a step, and what it changed. -/
inductive Move (z : Pow2Size) (s : State ι) : Event ι → State ι → Prop
  | call (i : ι) (c : Call) (hi : s.producers i = .idle) :
    Move z s (.call i c) { s with producers := Function.update s.producers i (.loadLevel c) }
  | log (i : ι) (spurious : Bool) {m : Shared} {p : Log} {e : Event ι}
    (hp : (s.producers i).step z i s.shared spurious = some (m, p, e)) :
    Move z s e { s with shared := m, producers := Function.update s.producers i p }
  | setLevel (level : LogLevel) :
    Move z s (.setLevel level) { s with shared := { s.shared with min_level_ := level } }
  | drain {m : Shared} {p : Drain} {e : Event ι} (f : Field)
    (hp : s.drain.step z s.shared f = some (m, p, e)) : Move z s e { s with shared := m, drain := p }
  | flush (dequeueFirst : Bool) :
    Move z s .flush { s with flush := s.flush.step s.shared dequeueFirst }
  | stop (hd : s.destructor = .notStarted) :
    Move z s .stop
      { s with shared := { s.shared with running_ := false }, destructor := .joining }
  | join (hd : s.destructor = .joining) (hx : s.drain = .exited) :
    Move z s .join { s with destructor := .joined }

theorem Move.of_step {z : Pow2Size} {s s' : State ι} {e : Event ι}
    (hs : (machine z).Step s e s') : Move z s e s' := by
  obtain ⟨a, ha⟩ := hs
  cases a with
  | call i c =>
    simp only [machine, step] at ha
    split at ha <;> cases ha
    next hi => exact .call i c hi
  | log i spurious =>
    obtain ⟨⟨m, p, e'⟩, hp, hx⟩ := Option.map_eq_some_iff.mp ha
    cases hx
    exact .log i spurious hp
  | setLevel level =>
    cases ha
    exact .setLevel level
  | drain f =>
    obtain ⟨⟨m, p, e'⟩, hp, hx⟩ := Option.map_eq_some_iff.mp ha
    cases hx
    exact .drain f hp
  | flush dequeueFirst =>
    cases ha
    exact .flush dequeueFirst
  | stop =>
    simp only [machine, step] at ha
    split at ha <;> cases ha
    next hd => exact .stop hd
  | join =>
    simp only [machine, step] at ha
    split at ha <;> cases ha
    next hd hx => exact .join hd hx

end

/-- What a step of producer `i` can be, one case for each branch of `Log`. -/
inductive LogMove {ι : Type*} (z : Pow2Size) (i : ι) (m : Shared) :
    Log → Shared → Log → Event ι → Prop
  | suppress {c : Call} (h : c.level < m.min_level_) :
    LogMove z i m (.loadLevel c) m .idle (.suppress i c)
  | pass {c : Call} (h : ¬ c.level < m.min_level_) :
    LogMove z i m (.loadLevel c) m (.loadPos c) (.log i)
  | loadPos {c : Call} : LogMove z i m (.loadPos c) m (.loadSeq c m.enqueue_pos_) (.log i)
  | vacant {c : Call} {pos : UInt64} (h : (m.cells_ (z.slot pos)).sequence = pos) :
    LogMove z i m (.loadSeq c pos) m (.exchange c pos) (.log i)
  | full {c : Call} {pos : UInt64} (hne : (m.cells_ (z.slot pos)).sequence ≠ pos)
    (h : signedDiff (m.cells_ (z.slot pos)).sequence pos < 0) :
    LogMove z i m (.loadSeq c pos) m (.bumpDropped c) (.log i)
  | ahead {c : Call} {pos : UInt64} (hne : (m.cells_ (z.slot pos)).sequence ≠ pos)
    (h : ¬ signedDiff (m.cells_ (z.slot pos)).sequence pos < 0) :
    LogMove z i m (.loadSeq c pos) m (.reload c pos) (.log i)
  | lost {c : Call} {pos : UInt64} (h : m.enqueue_pos_ ≠ pos) :
    LogMove z i m (.exchange c pos) m (.loadSeq c m.enqueue_pos_) (.retry i)
  | spurious {c : Call} {pos : UInt64} (h : m.enqueue_pos_ = pos) :
    LogMove z i m (.exchange c pos) m (.loadSeq c pos) (.spurious i)
  | claim {c : Call} {pos : UInt64} (h : m.enqueue_pos_ = pos) :
    LogMove z i m (.exchange c pos) { m with enqueue_pos_ := pos + 1 }
      (.assign c pos assignments) (.claim i c)
  | bumpDropped {c : Call} :
    LogMove z i m (.bumpDropped c) { m with dropped_ := m.dropped_ + 1 } .idle (.drop i c)
  | reload {c : Call} {pos : UInt64} :
    LogMove z i m (.reload c pos) m (.loadSeq c m.enqueue_pos_) (.retry i)
  | assign {c : Call} {pos : UInt64} {f : Field} {todo : List Field} :
    LogMove z i m (.assign c pos (f :: todo))
      { m with
        cells_ := Function.update m.cells_ (z.slot pos)
          { m.cells_ (z.slot pos) with
            toRecord := (m.cells_ (z.slot pos)).toRecord.assign c f } }
      (.assign c pos todo) (.log i)
  | publish {c : Call} {pos : UInt64} :
    LogMove z i m (.assign c pos [])
      { m with
        cells_ := Function.update m.cells_ (z.slot pos)
          { m.cells_ (z.slot pos) with sequence := pos + 1 } }
      .idle (.publish i c)

theorem LogMove.of_step {ι : Type*} {z : Pow2Size} {i : ι} {m m' : Shared} {p p' : Log}
    {e : Event ι} {spurious : Bool} (hs : p.step z i m spurious = some (m', p', e)) :
    LogMove z i m p m' p' e := by
  cases p with
  | idle => cases hs
  | loadLevel c =>
    simp only [Log.step] at hs
    split at hs <;> cases hs
    next hlt => exact .suppress hlt
    next hge => exact .pass hge
  | loadPos c =>
    cases hs
    exact .loadPos
  | loadSeq c pos =>
    simp only [Log.step, signedDiff_eq_zero_iff] at hs
    split at hs
    · next heq =>
      cases hs
      exact .vacant heq
    · next hne =>
      split at hs <;> cases hs
      next hneg => exact .full hne hneg
      next hpos => exact .ahead hne hpos
  | exchange c pos =>
    simp only [Log.step] at hs
    split at hs
    · next hne =>
      cases hs
      exact .lost hne
    · next heq =>
      split at hs <;> cases hs
      · exact .spurious (not_not.mp heq)
      · exact .claim (not_not.mp heq)
  | bumpDropped c =>
    cases hs
    exact .bumpDropped
  | reload c pos =>
    cases hs
    exact .reload
  | assign c pos todo =>
    cases todo with
    | nil =>
      cases hs
      exact .publish
    | cons f todo =>
      cases hs
      exact .assign

/-- What a step of the drain thread can be, one case for each branch of the loop. -/
inductive DrainMove {ι : Type*} (z : Pow2Size) (m : Shared) :
    Drain → Shared → Drain → Event ι → Prop
  | loadPos : DrainMove z m .loadPos m (.loadSeq m.dequeue_pos_) .drain
  | found {pos : UInt64} (h : (m.cells_ (z.slot pos)).sequence = pos + 1) :
    DrainMove z m (.loadSeq pos) m (.read pos {}) .drain
  | empty {pos : UInt64} (h : (m.cells_ (z.slot pos)).sequence ≠ pos + 1) :
    DrainMove z m (.loadSeq pos) m (.loadRunning pos) .drain
  | again {pos : UInt64} (h : m.running_ = true) :
    DrainMove z m (.loadRunning pos) m .loadPos .drain
  | leave {pos : UInt64} (h : m.running_ = false) :
    DrainMove z m (.loadRunning pos) m .flushSink .drain
  | read {pos : UInt64} {v v' : View} (f : Field)
    (h : v.read (m.cells_ (z.slot pos)).toRecord f = some v') :
    DrainMove z m (.read pos v) m (.read pos v') .drain
  | forward {pos : UInt64} {v : View} {x : SinkRecord}
    (h : v.forward (m.cells_ (z.slot pos)).toRecord = some x) :
    DrainMove z m (.read pos v) m (.advance pos) (.forward x)
  | advance {pos : UInt64} :
    DrainMove z m (.advance pos) { m with dequeue_pos_ := pos + 1 } (.free pos) .advance
  | free {pos : UInt64} :
    DrainMove z m (.free pos)
      { m with
        cells_ := Function.update m.cells_ (z.slot pos)
          { m.cells_ (z.slot pos) with sequence := pos + z.mask + 1 } }
      .loadPos .free
  | flushSink : DrainMove z m .flushSink m .exited .drain

theorem DrainMove.of_step {ι : Type*} {z : Pow2Size} {m m' : Shared} {p p' : Drain} {e : Event ι}
    {f : Field} (hs : p.step z m f = some (m', p', e)) : DrainMove z m p m' p' e := by
  cases p with
  | loadPos =>
    cases hs
    exact .loadPos
  | loadSeq pos =>
    simp only [Drain.step, signedDiff_eq_zero_iff] at hs
    split at hs <;> cases hs
    next heq => exact .found heq
    next hne => exact .empty hne
  | loadRunning pos =>
    simp only [Drain.step] at hs
    split at hs <;> cases hs
    next hrun => exact .again hrun
    next hrun => exact .leave (by simpa using hrun)
  | read pos v =>
    simp only [Drain.step] at hs
    cases f with
    | msg =>
      obtain ⟨x, hx, hx'⟩ := Option.map_eq_some_iff.mp hs
      cases hx'
      exact .forward hx
    | _ =>
      obtain ⟨v', hv', hx'⟩ := Option.map_eq_some_iff.mp hs
      cases hx'
      exact .read _ hv'
  | advance pos =>
    cases hs
    exact .advance
  | free pos =>
    cases hs
    exact .free
  | flushSink =>
    cases hs
    exact .flushSink
  | exited => cases hs

/-- A call in progress can always go on. -/
theorem Log.exists_next {ι : Type*} {p : Log} (hp : p ≠ .idle) (z : Pow2Size) (i : ι) (m : Shared)
    (spurious : Bool) : ∃ x, p.step z i m spurious = some x := by
  cases p with
  | idle => exact absurd rfl hp
  | loadLevel c => by_cases hlt : c.level < m.min_level_ <;> simp [Log.step, hlt]
  | loadSeq c pos =>
    simp only [Log.step]
    split
    · exact ⟨_, rfl⟩
    · split <;> exact ⟨_, rfl⟩
  | exchange c pos =>
    by_cases hne : m.enqueue_pos_ = pos <;> cases spurious <;> simp [Log.step, hne]
  | assign c pos todo => cases todo <;> exact ⟨_, rfl⟩
  | _ => exact ⟨_, rfl⟩

/-- Outside of `exited` the drain thread can always go on. -/
theorem Drain.exists_next (ι : Type*) {p : Drain} (hp : p ≠ .exited) (z : Pow2Size) (m : Shared) :
    ∃ f, ∃ x : Shared × Drain × Event ι, p.step z m f = some x := by
  cases p with
  | loadSeq pos =>
    refine ⟨.time, ?_⟩
    simp only [Drain.step]
    split <;> exact ⟨_, rfl⟩
  | loadRunning pos =>
    refine ⟨.time, ?_⟩
    simp only [Drain.step]
    split <;> exact ⟨_, rfl⟩
  | read pos v =>
    rcases v.exists_read (m.cells_ (z.slot pos)).toRecord with ⟨f, v', hf, hv⟩ | ⟨x, hx⟩
    · refine ⟨f, (m, .read pos v', .drain), ?_⟩
      cases f with
      | msg => exact absurd rfl hf
      | _ => simp only [Drain.step, hv, Option.map_some]
    · exact ⟨.msg, (m, .advance pos, .forward x), by simp [Drain.step, hx]⟩
  | exited => exact absurd rfl hp
  | _ => exact ⟨.time, _, rfl⟩

/-! ### What the events of a run say -/

/-- What an observer of a run has noted. -/
structure History (ι : Type*) where
  /-- The calls begun. -/
  calls : List (ι × Call) := []
  /-- The calls that returned from the level test. -/
  suppressed : List (ι × Call) := []
  /-- The calls dropped on a full ring. -/
  dropped : List (ι × Call) := []
  /-- The calls that claimed a cell; the `p`-th of them claimed position `p`. -/
  claims : List (ι × Call) := []
  /-- The calls that published their cell. -/
  published : List (ι × Call) := []
  /-- The records handed to the sink. -/
  forwarded : List SinkRecord := []
  /-- How often `dequeue_pos_` was stored. -/
  advanced : ℕ := 0
  /-- How many cells were freed. -/
  freed : ℕ := 0

/-- Note one more event. -/
def History.note {ι : Type*} (h : History ι) : Event ι → History ι
  | .call i c => { h with calls := h.calls ++ [(i, c)] }
  | .suppress i c => { h with suppressed := h.suppressed ++ [(i, c)] }
  | .drop i c => { h with dropped := h.dropped ++ [(i, c)] }
  | .claim i c => { h with claims := h.claims ++ [(i, c)] }
  | .publish i c => { h with published := h.published ++ [(i, c)] }
  | .forward r => { h with forwarded := h.forwarded ++ [r] }
  | .advance => { h with advanced := h.advanced + 1 }
  | .free => { h with freed := h.freed + 1 }
  | _ => h

/-- The history of a run. -/
def history {ι : Type*} (tr : List (Event ι)) : History ι := tr.foldl History.note {}

section
variable {ι : Type*}

@[simp] theorem history_snoc (tr : List (Event ι)) (e : Event ι) :
    history (tr ++ [e]) = (history tr).note e := by
  simp [history]

/-- The claims of two stretches of a run follow each other. -/
theorem claims_append (tr tr₁ : List (Event ι)) :
    (history (tr ++ tr₁)).claims = (history tr).claims ++ (history tr₁).claims := by
  induction tr₁ using List.reverseRecOn with
  | nil => simp [history]
  | append_singleton tr₁ e ih =>
    rw [← List.append_assoc, history_snoc, history_snoc]
    cases e <;> simp [History.note, ih]

/-- All positions and sequences stay below `2 ^ 63`: those are at most the number of claims plus
the capacity. -/
def CountersBelow (z : Pow2Size) (t : History ι) : Prop := t.claims.length + z.card ≤ 2 ^ 63

theorem length_claims_le_note (t : History ι) (e : Event ι) :
    t.claims.length ≤ (t.note e).claims.length := by
  cases e <;> simp [History.note]

theorem CountersBelow.of_note {z : Pow2Size} {t : History ι} {e : Event ι}
    (h : CountersBelow z (t.note e)) : CountersBelow z t :=
  (Nat.add_le_add_right (length_claims_le_note t e) _).trans h

/-- A run that stays below the bound stayed below it at every moment. -/
theorem CountersBelow.of_append {z : Pow2Size} {tr tr' : List (Event ι)}
    (h : CountersBelow z (history (tr ++ tr'))) : CountersBelow z (history tr) := by
  induction tr' using List.reverseRecOn with
  | nil => simpa using h
  | append_singleton tr' e ih =>
    rw [← List.append_assoc, history_snoc] at h
    exact ih h.of_note

end

end MpscRtLogger

end XmSigma
