import XmSigma.Logging.LevelTest

/-!
# A bounded queue that many calls share

What the hard-real-time loggers are for, with nothing of how they do it: no ring, no indices and no
sequences. A call of `Log` is not one step. It is tested against the level; then, at one moment, it
finds the queue full or reserves the place behind the last entry; and its entry is ready once it
returns. The drain thread hands on the first entry when it is ready, whatever is behind it, and
takes it off the queue afterwards.

The calls, how they return, the levels and the records handed on can be seen. When a call reserves
its place, and when an entry is taken off, cannot.

## Main definitions

* `SharedQueue.machine`: the queue of at most `cap` entries
* `SharedQueue.Event.view`: what can be seen of it
* `SharedQueue.Answer`: what a step of a logger may be to the queue
-/

namespace XmSigma

namespace SharedQueue

/-- A place in the queue, and whether its record is there. -/
structure Entry (ι : Type*) where
  owner : ι
  call : Call
  ready : Bool
  deriving DecidableEq

/-- The level, the calls and the queue. -/
structure State (ι : Type*) where
  level : LogLevel
  phase : ι → Phase
  queue : List (Entry ι)
  /-- The first entry is handed on, and not yet taken off. -/
  busy : Bool

/-- What a step did. -/
inductive Event (ι : Type*)
  | call (i : ι) (c : Call)
  | suppress (i : ι) (c : Call)
  | pass (i : ι)
  | reserve (i : ι)
  | refuse (i : ι)
  | drop (i : ι) (c : Call)
  | publish (i : ι) (c : Call)
  | forward (r : SinkRecord)
  | release
  | setLevel (level : LogLevel)
  deriving DecidableEq

/-- What can be seen. -/
def Event.view {ι : Type*} : Event ι → Option (Sight ι)
  | .call i c => some (.call i c)
  | .suppress i c => some (.suppress i c)
  | .drop i c => some (.drop i c)
  | .publish i c => some (.publish i c)
  | .forward r => some (.forward r)
  | .setLevel level => some (.setLevel level)
  | .pass _ | .reserve _ | .refuse _ | .release => none

/-- The choices of the scheduler. -/
inductive Action (ι : Type*)
  | call (i : ι) (c : Call)
  /-- Producer `i` goes on with its call. -/
  | log (i : ι)
  | forward
  | release
  | setLevel (level : LogLevel)
  deriving DecidableEq

variable {ι : Type*} [DecidableEq ι]

/-- The entry that `i` has written is ready. -/
def finish (i : ι) (queue : List (Entry ι)) : List (Entry ι) :=
  queue.map fun x => if x.owner = i then { x with ready := true } else x

/-- Producer `i` comes to phase `p`. -/
def State.move (s : State ι) (i : ι) (p : Phase) : State ι :=
  { s with phase := Function.update s.phase i p }

theorem State.move_self {s : State ι} {i : ι} {p : Phase} (h : s.phase i = p) : s.move i p = s := by
  rw [State.move, ← h, Function.update_eq_self]

/-- The next step of producer `i`. -/
def State.log (cap : ℕ) (s : State ι) (i : ι) : Option (State ι × Event ι) :=
  match s.phase i with
  | .idle => none
  | .entered c =>
    if c.level < s.level then some (s.move i .idle, .suppress i c)
    else some (s.move i (.admitted c), .pass i)
  | .admitted c =>
    if s.queue.length < cap then
      some ({ s.move i (.writing c) with queue := s.queue ++ [⟨i, c, false⟩] }, .reserve i)
    else some (s.move i (.refused c), .refuse i)
  | .refused c => some (s.move i .idle, .drop i c)
  | .writing c => some ({ s.move i .idle with queue := finish i s.queue }, .publish i c)

/-- One step. The drain thread has one record in hand at a time. -/
def step (cap : ℕ) (s : State ι) : Action ι → Option (State ι × Event ι)
  | .call i c => if s.phase i = .idle then some (s.move i (.entered c), .call i c) else none
  | .log i => s.log cap i
  | .forward =>
    match s.queue with
    | [] => none
    | x :: _ =>
      if x.ready ∧ s.busy = false then
        some ({ s with busy := true }, .forward x.call.sinkRecord)
      else none
  | .release =>
    if s.busy then some ({ s with queue := s.queue.tail, busy := false }, .release) else none
  | .setLevel level => some ({ s with level := level }, .setLevel level)

/-- The queue of a new logger. -/
def initial (level : LogLevel) : State ι := ⟨level, fun _ => .idle, [], false⟩

/-- The queue of at most `cap` entries. -/
def machine (cap : ℕ) : Machine (State ι) (Action ι) (Event ι) where
  init s := ∃ level, s = initial level
  step := step cap

/-- What a step can be. -/
inductive Move (cap : ℕ) (s : State ι) : Event ι → State ι → Prop
  | call {i : ι} {c : Call} (hi : s.phase i = .idle) :
    Move cap s (.call i c) (s.move i (.entered c))
  | suppress {i : ι} {c : Call} (hi : s.phase i = .entered c) (hlt : c.level < s.level) :
    Move cap s (.suppress i c) (s.move i .idle)
  | pass {i : ι} {c : Call} (hi : s.phase i = .entered c) (hge : ¬ c.level < s.level) :
    Move cap s (.pass i) (s.move i (.admitted c))
  | reserve {i : ι} {c : Call} (hi : s.phase i = .admitted c) (hroom : s.queue.length < cap) :
    Move cap s (.reserve i) { s.move i (.writing c) with queue := s.queue ++ [⟨i, c, false⟩] }
  | refuse {i : ι} {c : Call} (hi : s.phase i = .admitted c) (hfull : ¬ s.queue.length < cap) :
    Move cap s (.refuse i) (s.move i (.refused c))
  | drop {i : ι} {c : Call} (hi : s.phase i = .refused c) : Move cap s (.drop i c) (s.move i .idle)
  | publish {i : ι} {c : Call} (hi : s.phase i = .writing c) :
    Move cap s (.publish i c) { s.move i .idle with queue := finish i s.queue }
  | forward {x : Entry ι} {rest : List (Entry ι)} (hq : s.queue = x :: rest)
    (hready : x.ready = true) (hbusy : s.busy = false) :
    Move cap s (.forward x.call.sinkRecord) { s with busy := true }
  | release (hbusy : s.busy = true) :
    Move cap s .release { s with queue := s.queue.tail, busy := false }
  | setLevel {level : LogLevel} : Move cap s (.setLevel level) { s with level := level }

variable {cap : ℕ} {s s' : State ι} {e : Event ι}

theorem Move.of_step (hs : (machine cap).Step s e s') : Move cap s e s' := by
  obtain ⟨a, ha⟩ := hs
  cases a with
  | call i c =>
    simp only [machine, step] at ha
    split at ha <;> cases ha
    next hi => exact .call hi
  | log i =>
    simp only [machine, step, State.log] at ha
    split at ha
    · cases ha
    · next hi =>
      split at ha <;> cases ha
      next hlt => exact .suppress hi hlt
      next hge => exact .pass hi hge
    · next hi =>
      split at ha <;> cases ha
      next hroom => exact .reserve hi hroom
      next hfull => exact .refuse hi hfull
    · next hi =>
      cases ha
      exact .drop hi
    · next hi =>
      cases ha
      exact .publish hi
  | forward =>
    simp only [machine, step] at ha
    split at ha
    · cases ha
    · next hq =>
      split at ha <;> cases ha
      next hcond => exact .forward hq hcond.1 hcond.2
  | release =>
    simp only [machine, step] at ha
    split at ha <;> cases ha
    next hbusy => exact .release hbusy
  | setLevel level =>
    cases ha
    exact .setLevel

theorem Move.step (h : Move cap s e s') : (machine cap).Step s e s' := by
  cases h with
  | @call i c hi => exact ⟨.call i c, if_pos hi⟩
  | @suppress i c hi hlt =>
    exact ⟨.log i, by simp only [machine, SharedQueue.step, State.log, hi, if_pos hlt]⟩
  | @pass i c hi hge =>
    exact ⟨.log i, by simp only [machine, SharedQueue.step, State.log, hi, if_neg hge]⟩
  | @reserve i c hi hroom =>
    exact ⟨.log i, by simp only [machine, SharedQueue.step, State.log, hi, if_pos hroom]⟩
  | @refuse i c hi hfull =>
    exact ⟨.log i, by simp only [machine, SharedQueue.step, State.log, hi, if_neg hfull]⟩
  | @drop i c hi => exact ⟨.log i, by simp only [machine, SharedQueue.step, State.log, hi]⟩
  | @publish i c hi => exact ⟨.log i, by simp only [machine, SharedQueue.step, State.log, hi]⟩
  | forward hq hready hbusy =>
    exact ⟨.forward, by simp only [machine, SharedQueue.step, hq, hready, hbusy, and_self, if_true]⟩
  | release hbusy => exact ⟨.release, by simp only [machine, SharedQueue.step, hbusy, if_true]⟩
  | @setLevel level => exact ⟨.setLevel level, rfl⟩

/-! ### Answers of the queue -/

/-- What a step of a logger may be to the queue, if `o` is what it shows. -/
inductive Answer (cap : ℕ) (a a' : State ι) (o : Option (Sight ι)) : Prop
  | hidden (ha : a' = a) (ho : o = none)
  | move {e : Event ι} (h : Move cap a e a') (ho : e.view = o)

section
variable {a a' a'' : State ι} {o : Option (Sight ι)}

theorem Answer.of_move (h : Move cap a e a'') (ha : a'' = a') (ho : e.view = o) :
    Answer cap a a' o := by
  subst ha
  exact .move h ho

/-- The queue shows what the logger shows. -/
theorem Answer.path (h : Answer cap a a' o) :
    ∃ tr, (machine cap).Path a tr a' ∧ tr.filterMap Event.view = o.toList := by
  cases h with
  | hidden ha ho =>
    subst ha ho
    exact ⟨[], .refl, rfl⟩
  | @move e h ho =>
    subst ho
    exact ⟨[e], h.step.path, Machine.filterMap_singleton _ e⟩

end

end SharedQueue

end XmSigma
