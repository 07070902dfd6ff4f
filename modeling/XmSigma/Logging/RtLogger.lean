import XmSigma.Lib.Machine
import XmSigma.Lib.Word64
import XmSigma.Logging.Record
import Mathlib.Logic.Function.Basic

/-!
# `RtLogger`: one producer, one drain thread

The single-producer ring of `rt_logger.hpp` and `rt_logger.cpp` as a machine whose steps are the
single accesses to shared memory: a load or store of an atomic, a read-modify-write, one
assignment to a field of a record, one read of it. Between two steps of one thread any other
thread may run.

## The parties

* the producer, inside `Log` (`Log.step`);
* the drain thread, inside `DrainLoop` (`Drain.step`);
* any thread calling `SetLevel`: one store, so it has no program points of its own;
* a thread calling `Flush` (`Flush.step`);
* the thread that destroys the logger: it stores `running_` and then joins the drain thread.

Each program point is named after what the thread does next and carries the local variables that
are alive there. The steps say what they did as an `Event`; what was published, forwarded or
dropped in a run is read off its events.

`capacity_` and `mask_` never change after construction, so they are the parameter `z`. Nothing
in the machine keeps a `Log` call from overlapping the destruction of the logger: callers promise
that, and the results that need the promise state it.
-/

namespace XmSigma

namespace RtLogger

/-- The members that more than one thread touches. -/
structure Shared where
  ring_ : ℕ → Record
  min_level_ : LogLevel
  head_ : UInt64
  tail_ : UInt64
  dropped_ : UInt64
  running_ : Bool

/-- What a step reports. -/
inductive Event
  /-- `Log` is entered. -/
  | call (c : Call)
  /-- The call returns from the level test. -/
  | suppress (c : Call)
  /-- The call counts itself as dropped and returns. -/
  | drop (c : Call)
  /-- The call publishes its record and returns. -/
  | publish (c : Call)
  /-- Any other step of the producer. -/
  | log
  | setLevel (level : LogLevel)
  /-- The drain thread hands a record to the sink. -/
  | forward (r : SinkRecord)
  /-- The drain thread frees the slot. -/
  | release
  /-- Any other step of the drain thread. -/
  | drain
  /-- The destructor stores `running_`. -/
  | stop
  /-- The destructor has joined the drain thread. -/
  | join
  | flush
  deriving DecidableEq

/-! ### The producer -/

/-- The assignments to the record, in the order of the body of `Log`. -/
def assignments : List Field := [.level, .time, .msg, .len]

/-- Where the producer is. -/
inductive Log
  | idle
  | loadLevel (c : Call)
  | loadHead (c : Call)
  | loadTail (c : Call) (head : UInt64)
  | bumpDropped (c : Call)
  | assign (c : Call) (head : UInt64) (todo : List Field)
  deriving DecidableEq

/-- One step of `RtLogger::Log`. -/
def Log.step (z : Pow2Size) (m : Shared) : Log → Option (Shared × Log × Event)
  | .idle => none
  | .loadLevel c =>
    if c.level < m.min_level_ then some (m, .idle, .suppress c) else some (m, .loadHead c, .log)
  | .loadHead c => some (m, .loadTail c m.head_, .log)
  | .loadTail c head =>
    if z.size ≤ head - m.tail_ then some (m, .bumpDropped c, .log)
    else some (m, .assign c head assignments, .log)
  | .bumpDropped c => some ({ m with dropped_ := m.dropped_ + 1 }, .idle, .drop c)
  | .assign c head (f :: todo) =>
    let i := z.slot head
    some ({ m with ring_ := Function.update m.ring_ i ((m.ring_ i).assign c f) },
      .assign c head todo, .log)
  | .assign c head [] => some ({ m with head_ := head + 1 }, .idle, .publish c)

/-! ### The drain thread -/

/-- Where the drain thread is. -/
inductive Drain
  | loadTail
  | loadHead (tail : UInt64)
  /-- The ring looked empty. -/
  | loadRunning (tail : UInt64)
  /-- The arguments of `sink_logger_->log` are being evaluated. -/
  | read (tail : UInt64) (v : View)
  | storeTail (tail : UInt64)
  /-- The loop was left. -/
  | flushSink
  | exited
  deriving DecidableEq

/-- One step of `RtLogger::DrainLoop`; `f` is the argument evaluated next, where one is. Reading
`msg` is part of the call that forwards the record. -/
def Drain.step (z : Pow2Size) (m : Shared) (f : Field) : Drain → Option (Shared × Drain × Event)
  | .loadTail => some (m, .loadHead m.tail_, .drain)
  | .loadHead tail =>
    if tail = m.head_ then some (m, .loadRunning tail, .drain)
    else some (m, .read tail {}, .drain)
  | .loadRunning _ =>
    if m.running_ then some (m, .loadTail, .drain) else some (m, .flushSink, .drain)
  | .read tail v =>
    let r := m.ring_ (z.slot tail)
    match f with
    | .msg => (v.forward r).map fun x => (m, .storeTail tail, .forward x)
    | f => (v.read r f).map fun v' => (m, .read tail v', .drain)
  | .storeTail tail => some ({ m with tail_ := tail + 1 }, .loadTail, .release)
  | .flushSink => some (m, .exited, .drain)
  | .exited => none

/-! ### `Flush` and the destructor -/

/-- Where a thread calling `Flush` is. The operands of `!=` are loaded in either order. -/
inductive Flush
  | idle
  | compare
  | loadedTail (tail : UInt64)
  | loadedHead (head : UInt64)
  | flushSink
  deriving DecidableEq

/-- One step of `RtLogger::Flush`; `tailFirst` chooses the operand loaded first. -/
def Flush.step (m : Shared) (tailFirst : Bool) : Flush → Flush
  | .idle => .compare
  | .compare => if tailFirst then .loadedTail m.tail_ else .loadedHead m.head_
  | .loadedTail tail => if tail ≠ m.head_ then .compare else .flushSink
  | .loadedHead head => if m.tail_ ≠ head then .compare else .flushSink
  | .flushSink => .idle

/-- Where the thread is that destroys the logger. -/
inductive Destructor
  | notStarted
  | joining
  | joined
  deriving DecidableEq

/-! ### The machine -/

/-- The shared members, and where each thread is. -/
structure State where
  shared : Shared
  log : Log
  drain : Drain
  flush : Flush
  destructor : Destructor

/-- The choices of the scheduler, with what comes from outside. -/
inductive Action
  | call (c : Call)
  | log
  | setLevel (level : LogLevel)
  | drain (f : Field)
  | flush (tailFirst : Bool)
  | stop
  | join
  deriving DecidableEq

/-- One atomic step. -/
def step (z : Pow2Size) (s : State) : Action → Option (State × Event)
  | .call c =>
    match s.log with
    | .idle => some ({ s with log := .loadLevel c }, .call c)
    | _ => none
  | .log => (s.log.step z s.shared).map fun (m, p, e) => ({ s with shared := m, log := p }, e)
  | .setLevel level =>
    some ({ s with shared := { s.shared with min_level_ := level } }, .setLevel level)
  | .drain f =>
    (s.drain.step z s.shared f).map fun (m, p, e) => ({ s with shared := m, drain := p }, e)
  | .flush tailFirst => some ({ s with flush := s.flush.step s.shared tailFirst }, .flush)
  | .stop =>
    match s.destructor with
    | .notStarted =>
      some ({ s with shared := { s.shared with running_ := false }, destructor := .joining }, .stop)
    | _ => none
  | .join =>
    match s.destructor, s.drain with
    | .joining, .exited => some ({ s with destructor := .joined }, .join)
    | _, _ => none

/-- The logger as the constructor leaves it, with the drain thread started. The level comes from
the environment, the message bytes of the slots are whatever was in memory. -/
def initial (raw : ℕ → Vector UInt8 kMaxMsgLen) (level : LogLevel) : State where
  shared :=
    { ring_ := fun i => .fresh (raw i), min_level_ := level, head_ := 0, tail_ := 0, dropped_ := 0,
      running_ := true }
  log := .idle
  drain := .loadTail
  flush := .idle
  destructor := .notStarted

/-- The logger with a ring of `z.size` slots. -/
def machine (z : Pow2Size) : Machine State Action Event where
  init s := ∃ raw level, s = initial raw level
  step := step z

/-- Who took a step, and what it changed. -/
inductive Move (z : Pow2Size) (s : State) : Event → State → Prop
  | call (c : Call) (hl : s.log = .idle) : Move z s (.call c) { s with log := .loadLevel c }
  | log {m : Shared} {p : Log} {e : Event} (hp : s.log.step z s.shared = some (m, p, e)) :
    Move z s e { s with shared := m, log := p }
  | setLevel (level : LogLevel) :
    Move z s (.setLevel level) { s with shared := { s.shared with min_level_ := level } }
  | drain {m : Shared} {p : Drain} {e : Event} (f : Field)
    (hp : s.drain.step z s.shared f = some (m, p, e)) : Move z s e { s with shared := m, drain := p }
  | flush (tailFirst : Bool) :
    Move z s .flush { s with flush := s.flush.step s.shared tailFirst }
  | stop (hd : s.destructor = .notStarted) :
    Move z s .stop
      { s with shared := { s.shared with running_ := false }, destructor := .joining }
  | join (hd : s.destructor = .joining) (hx : s.drain = .exited) :
    Move z s .join { s with destructor := .joined }

theorem Move.of_step {z : Pow2Size} {s s' : State} {e : Event} (hs : (machine z).Step s e s') :
    Move z s e s' := by
  obtain ⟨a, ha⟩ := hs
  cases a with
  | call c =>
    simp only [machine, step] at ha
    split at ha <;> cases ha
    next hl => exact .call c hl
  | log =>
    obtain ⟨⟨m, p, e'⟩, hp, hx⟩ := Option.map_eq_some_iff.mp ha
    cases hx
    exact .log hp
  | setLevel level =>
    cases ha
    exact .setLevel level
  | drain f =>
    obtain ⟨⟨m, p, e'⟩, hp, hx⟩ := Option.map_eq_some_iff.mp ha
    cases hx
    exact .drain f hp
  | flush tailFirst =>
    cases ha
    exact .flush tailFirst
  | stop =>
    simp only [machine, step] at ha
    split at ha <;> cases ha
    next hd => exact .stop hd
  | join =>
    simp only [machine, step] at ha
    split at ha <;> cases ha
    next hd hx => exact .join hd hx

/-- What a step of the producer can be, one case for each branch of `Log`. -/
inductive LogMove (z : Pow2Size) (m : Shared) : Log → Shared → Log → Event → Prop
  | suppress {c : Call} (h : c.level < m.min_level_) :
    LogMove z m (.loadLevel c) m .idle (.suppress c)
  | pass {c : Call} (h : ¬ c.level < m.min_level_) :
    LogMove z m (.loadLevel c) m (.loadHead c) .log
  | loadHead {c : Call} : LogMove z m (.loadHead c) m (.loadTail c m.head_) .log
  | full {c : Call} {head : UInt64} (h : z.size ≤ head - m.tail_) :
    LogMove z m (.loadTail c head) m (.bumpDropped c) .log
  | room {c : Call} {head : UInt64} (h : ¬ z.size ≤ head - m.tail_) :
    LogMove z m (.loadTail c head) m (.assign c head assignments) .log
  | bumpDropped {c : Call} :
    LogMove z m (.bumpDropped c) { m with dropped_ := m.dropped_ + 1 } .idle (.drop c)
  | assign {c : Call} {head : UInt64} {f : Field} {todo : List Field} :
    LogMove z m (.assign c head (f :: todo))
      { m with
        ring_ := Function.update m.ring_ (z.slot head) ((m.ring_ (z.slot head)).assign c f) }
      (.assign c head todo) .log
  | publish {c : Call} {head : UInt64} :
    LogMove z m (.assign c head []) { m with head_ := head + 1 } .idle (.publish c)

theorem LogMove.of_step {z : Pow2Size} {m m' : Shared} {p p' : Log} {e : Event}
    (hs : p.step z m = some (m', p', e)) : LogMove z m p m' p' e := by
  cases p with
  | idle => cases hs
  | loadLevel c =>
    simp only [Log.step] at hs
    split at hs <;> cases hs
    next hlt => exact .suppress hlt
    next hge => exact .pass hge
  | loadHead c =>
    cases hs
    exact .loadHead
  | loadTail c head =>
    simp only [Log.step] at hs
    split at hs <;> cases hs
    next hfull => exact .full hfull
    next hroom => exact .room hroom
  | bumpDropped c =>
    cases hs
    exact .bumpDropped
  | assign c head todo =>
    cases todo with
    | nil =>
      cases hs
      exact .publish
    | cons f todo =>
      cases hs
      exact .assign

/-- What a step of the drain thread can be, one case for each branch of the loop. -/
inductive DrainMove (z : Pow2Size) (m : Shared) : Drain → Shared → Drain → Event → Prop
  | loadTail : DrainMove z m .loadTail m (.loadHead m.tail_) .drain
  | empty {tail : UInt64} (h : tail = m.head_) :
    DrainMove z m (.loadHead tail) m (.loadRunning tail) .drain
  | found {tail : UInt64} (h : tail ≠ m.head_) :
    DrainMove z m (.loadHead tail) m (.read tail {}) .drain
  | again {tail : UInt64} (h : m.running_ = true) :
    DrainMove z m (.loadRunning tail) m .loadTail .drain
  | leave {tail : UInt64} (h : m.running_ = false) :
    DrainMove z m (.loadRunning tail) m .flushSink .drain
  | read {tail : UInt64} {v v' : View} (f : Field)
    (h : v.read (m.ring_ (z.slot tail)) f = some v') :
    DrainMove z m (.read tail v) m (.read tail v') .drain
  | forward {tail : UInt64} {v : View} {x : SinkRecord}
    (h : v.forward (m.ring_ (z.slot tail)) = some x) :
    DrainMove z m (.read tail v) m (.storeTail tail) (.forward x)
  | storeTail {tail : UInt64} :
    DrainMove z m (.storeTail tail) { m with tail_ := tail + 1 } .loadTail .release
  | flushSink : DrainMove z m .flushSink m .exited .drain

theorem DrainMove.of_step {z : Pow2Size} {m m' : Shared} {p p' : Drain} {e : Event} {f : Field}
    (hs : p.step z m f = some (m', p', e)) : DrainMove z m p m' p' e := by
  cases p with
  | loadTail =>
    cases hs
    exact .loadTail
  | loadHead tail =>
    simp only [Drain.step] at hs
    split at hs <;> cases hs
    next heq => exact .empty heq
    next hne => exact .found hne
  | loadRunning tail =>
    simp only [Drain.step] at hs
    split at hs <;> cases hs
    next hrun => exact .again hrun
    next hrun => exact .leave (by simpa using hrun)
  | read tail v =>
    simp only [Drain.step] at hs
    cases f with
    | msg =>
      obtain ⟨x, hx, hx'⟩ := Option.map_eq_some_iff.mp hs
      cases hx'
      exact .forward hx
    | _ =>
      obtain ⟨v', hv', hx'⟩ := Option.map_eq_some_iff.mp hs
      cases hx'
      exact .read _ hv'
  | storeTail tail =>
    cases hs
    exact .storeTail
  | flushSink =>
    cases hs
    exact .flushSink
  | exited => cases hs

/-- A call in progress can always go on. -/
theorem Log.exists_next {p : Log} (hp : p ≠ .idle) (z : Pow2Size) (m : Shared) :
    ∃ x, p.step z m = some x := by
  cases p with
  | idle => exact absurd rfl hp
  | loadLevel c => by_cases hlt : c.level < m.min_level_ <;> simp [Log.step, hlt]
  | loadTail c head => by_cases hfull : z.size ≤ head - m.tail_ <;> simp [Log.step, hfull]
  | assign c head todo => cases todo <;> exact ⟨_, rfl⟩
  | _ => exact ⟨_, rfl⟩

/-- Outside of `exited` the drain thread can always go on. -/
theorem Drain.exists_next {p : Drain} (hp : p ≠ .exited) (z : Pow2Size) (m : Shared) :
    ∃ f x, p.step z m f = some x := by
  cases p with
  | loadHead tail =>
    by_cases heq : tail = m.head_
    · exact ⟨.time, _, if_pos heq⟩
    · exact ⟨.time, _, if_neg heq⟩
  | loadRunning tail =>
    cases hrun : m.running_ with
    | true => exact ⟨.time, _, if_pos hrun⟩
    | false => exact ⟨.time, _, if_neg (by simp [hrun])⟩
  | read tail v =>
    rcases v.exists_read (m.ring_ (z.slot tail)) with ⟨f, v', hf, hv⟩ | ⟨x, hx⟩
    · refine ⟨f, (m, .read tail v', .drain), ?_⟩
      cases f with
      | msg => exact absurd rfl hf
      | _ => simp only [Drain.step, hv, Option.map_some]
    · exact ⟨.msg, (m, .storeTail tail, .forward x), by simp [Drain.step, hx]⟩
  | exited => exact absurd rfl hp
  | _ => exact ⟨.time, _, rfl⟩

/-! ### What the events of a run say -/

/-- What an observer of a run has noted. -/
structure History where
  /-- The calls begun. -/
  calls : List Call := []
  /-- The calls that returned from the level test. -/
  suppressed : List Call := []
  /-- The calls dropped on a full ring. -/
  dropped : List Call := []
  /-- The calls whose record was published. -/
  published : List Call := []
  /-- The records handed to the sink. -/
  forwarded : List SinkRecord := []
  /-- How many slots were freed. -/
  released : ℕ := 0

/-- Note one more event. -/
def History.note (h : History) : Event → History
  | .call c => { h with calls := h.calls ++ [c] }
  | .suppress c => { h with suppressed := h.suppressed ++ [c] }
  | .drop c => { h with dropped := h.dropped ++ [c] }
  | .publish c => { h with published := h.published ++ [c] }
  | .forward r => { h with forwarded := h.forwarded ++ [r] }
  | .release => { h with released := h.released + 1 }
  | _ => h

/-- The history of a run. -/
def history (tr : List Event) : History := tr.foldl History.note {}

@[simp] theorem history_nil : history [] = {} := rfl

@[simp] theorem history_snoc (tr : List Event) (e : Event) :
    history (tr ++ [e]) = (history tr).note e := by
  simp [history]

/-- A record has been forwarded whose slot is not yet free. -/
def Drain.pending : Drain → ℕ
  | .storeTail _ => 1
  | _ => 0

end RtLogger

end XmSigma
