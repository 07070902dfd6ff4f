import XmSigma.Logging.LevelTest
import XmSigma.Logging.MpscLedger
import XmSigma.Logging.MpscSolo
import XmSigma.Logging.MpscSteps

/-!
# What `MpscRtLogger` delivers

While the logger lives, the sink has been handed the records of the first claims, in claim order
and each as its own producer wrote it, and every call of every producer is accounted for exactly
once. Delivery rests on the invariant of the ring, accounting on the books alone, and so does what
is said of the suppressed calls: the level test turned them away.

## Main results

* `forwards_in_claim_order`: delivery in every reachable state
* `accounts_for_every_call`: accounting in every reachable state
* `level_in_force_mpsc`: every call is dealt with as a level says that was in force while it was
  made
* `suppressed_below`: what it means that a call is suppressed
-/

namespace XmSigma

namespace MpscRtLogger

variable {ι : Type*} {z : Pow2Size} {s : State ι} {tr : List (Event ι)}

/-! ### A small logger

A ring of two cells and two producers, for the runs that show a hypothesis can be met or a record
lost. -/

/-- `MpscRtLogger("small", 2)`. -/
def twoCells : Pow2Size := .two

/-- The small logger, at level `kInfo`. -/
def small : State Bool := initial (fun _ => Vector.replicate _ 0) .kInfo

/-- `Log(kInfo, "hi")`. -/
def hello : Call := ⟨.kInfo, .ok [104, 105], 7⟩

/-- `Log(kWarn, ...)` with a format string that does not fit its argument. -/
def broken : Call := ⟨.kWarn, .throws [33], 8⟩

/-- A call of `Log` that is accepted, with nothing in between. -/
def logAction (i : Bool) (c : Call) : List (Action Bool) :=
  .call i c :: List.replicate 9 (.log i false)

/-- One round of the drain thread over a record. -/
def drainAction : List (Action Bool) :=
  [.time, .time, .time, .level, .len, .msg, .time, .time].map .drain

/-- A schedule of the small logger that can be executed. -/
theorem run_small {as : List (Action Bool)} (h : ((machine twoCells).exec small as).isSome) :
    (machine twoCells).Run (((machine twoCells).exec small as).get h).1
      (((machine twoCells).exec small as).get h).2 :=
  ⟨small, ⟨_, _, rfl⟩, .of_exec_get h⟩

/-- Both producers call `Log` at once; the second to start is the first to claim, and the records
are forwarded. -/
def delivered : Option (List (Event Bool) × State Bool) :=
  (machine twoCells).exec small
    ([.call false broken, .log false false, .log false false] ++ logAction true hello ++
      List.replicate 9 (.log false false) ++ drainAction ++ drainAction)

theorem delivered_isSome : delivered.isSome := by decide +kernel

/-! ### Delivery -/

/-- Where the drain thread has caught up, every claimed record was forwarded. -/
theorem Inv.caught_up {t : History ι} (h : Inv z t s)
    (heq : s.shared.dequeue_pos_ = s.shared.enqueue_pos_) :
    t.forwarded = t.claims.map fun x => x.2.sinkRecord := by
  have hlen : t.advanced = t.claims.length := by rw [← h.dequeue_eq, heq, h.enqueue_eq]
  rw [h.forwarded_eq, hlen, List.take_of_length_le (Nat.le_add_right ..)]

variable [DecidableEq ι]

/-- **Delivery.** In every reachable state the sink has been handed the records of the first `k`
claims, where `k` is `dequeue_pos_`, or one more between forwarding a record and storing
`dequeue_pos_`: in claim order, each record as its own call wrote it. The `p`-th claim is that of
position `p`, and of each producer the claims are in the order of its calls. -/
theorem forwards_in_claim_order (h : (machine z).Run tr s) (h2 : 2 ≤ z.card)
    (hb : CountersBelow z (history tr)) :
    s.shared.dequeue_pos_.toNat + s.drain.pending ≤ (history tr).claims.length ∧
    (history tr).forwarded =
      ((history tr).claims.take (s.shared.dequeue_pos_.toNat + s.drain.pending)).map
        (fun x => x.2.sinkRecord) ∧
    (∀ i c pos todo, s.producers i = .assign c pos todo →
      (history tr).claims[pos.toNat]? = some (i, c)) ∧
    ∀ i, (callsOf i ((history tr).claims.take
      (s.shared.dequeue_pos_.toNat + s.drain.pending))).Sublist (callsOf i (history tr).calls) := by
  have hi := Inv.of_run h h2 hb
  rw [hi.dequeue_eq]
  exact ⟨hi.pending_le, hi.forwarded_eq, fun i c pos todo hp => (hi.owner hp).2.1, fun i =>
    (callsOf_sublist (List.take_sublist ..)).trans ((Ledger.of_run h).claims_sublist i)⟩

theorem forwards_in_claim_order_small :
    (history (delivered.get delivered_isSome).1).forwarded =
      [⟨7, .info, [104, 105]⟩, ⟨8, .warn, kErr⟩] ∧
    (history (delivered.get delivered_isSome).1).forwarded =
      ((history (delivered.get delivered_isSome).1).claims.take
        ((delivered.get delivered_isSome).2.shared.dequeue_pos_.toNat +
          (delivered.get delivered_isSome).2.drain.pending)).map (fun x => x.2.sinkRecord) :=
  ⟨by decide +kernel, (forwards_in_claim_order (run_small delivered_isSome) (by decide)
    (by unfold CountersBelow; decide +kernel)).2.1⟩

/-! ### Accounting -/

/-- **Accounting.** In every reachable state: the calls that are not in progress were suppressed,
dropped or published, each once; `dropped_` and `enqueue_pos_` count the dropped calls and the
claims; the account of each producer is in order, so a call that owns a cell and returns has
published it, and it can always go on to publish it, whatever its formatting came to. Where no
call is in progress and the drain thread has caught up, the calls are those forwarded, dropped or
suppressed. Which are suppressed is said by `suppressed_below`: those below a level that was in
force while they were made. -/
theorem accounts_for_every_call (h : (machine z).Run tr s) :
    (∃ A, Active A s.producers ∧ (history tr).calls.length =
      (history tr).suppressed.length + (history tr).dropped.length +
        (history tr).published.length + A.card) ∧
    s.shared.dropped_ = .ofNat (history tr).dropped.length ∧
    s.shared.enqueue_pos_ = .ofNat (history tr).claims.length ∧
    (∀ i, ((history tr).account i).Ok (s.producers i)) ∧
    (∀ i c pos todo, s.producers i = .assign c pos todo →
      ∃ s', (machine z).Path s (List.replicate todo.length (.log i) ++ [.publish i c]) s') ∧
    (2 ≤ z.card → CountersBelow z (history tr) →
      s.shared.enqueue_pos_.toNat = (history tr).claims.length ∧
      ((∀ i, s.producers i = .idle) → s.shared.dequeue_pos_ = s.shared.enqueue_pos_ →
        (history tr).forwarded.length + (history tr).dropped.length +
          (history tr).suppressed.length = (history tr).calls.length)) := by
  have hl := Ledger.of_run h
  refine ⟨hl.active, hl.dropped_eq, hl.enqueue_eq, hl.account, fun i c pos todo hi => ?_,
    fun h2 hb => ?_⟩
  · have hpath := fill_path (z := z) s i c pos todo
    rw [← hi, Function.update_eq_self] at hpath
    exact ⟨_, hpath⟩
  · have hi := Inv.of_run h h2 hb
    refine ⟨hi.enqueue_eq, fun hidle heq => ?_⟩
    obtain ⟨hcalls, hclaims⟩ := hl.idle hidle
    have hlen := hcalls.length_eq
    have hpub := hclaims.length_eq
    simp only [List.length_append] at hlen
    rw [hi.caught_up heq, List.length_map]
    omega

theorem accounts_for_every_call_small :
    (history (delivered.get delivered_isSome).1).forwarded.length +
        (history (delivered.get delivered_isSome).1).dropped.length +
      (history (delivered.get delivered_isSome).1).suppressed.length =
        (history (delivered.get delivered_isSome).1).calls.length :=
  ((accounts_for_every_call (run_small delivered_isSome)).2.2.2.2.2 (by decide)
    (by unfold CountersBelow; decide +kernel)).2 (by decide +kernel) (by decide +kernel)

/-! ### The level test -/

/-- What can be seen. -/
def Event.view : Event ι → Option (Sight ι)
  | .call i c => some (.call i c)
  | .suppress i c => some (.suppress i c)
  | .drop i c => some (.drop i c)
  | .publish i c => some (.publish i c)
  | .forward r => some (.forward r)
  | .setLevel level => some (.setLevel level)
  | .claim _ _ | .retry _ | .spurious _ | .log _ | .advance | .free | .drain | .stop | .join
  | .flush => none

/-- How far a producer is with its call. -/
def Log.phase : Log → Phase
  | .idle => .idle
  | .loadLevel c => .entered c
  | .loadPos c | .loadSeq c _ | .exchange c _ | .reload c _ => .admitted c
  | .bumpDropped c => .refused c
  | .assign c _ _ => .writing c

section
variable {raw : ℕ → Vector UInt8 kMaxMsgLen} {level : LogLevel} {os : List (Sight ι)} {i : ι}
  {c : Call} {s' : State ι} {e : Event ι}

theorem levelMove_of_step (hs : (machine z).Step s e s') :
    LevelMove s.shared.min_level_ (fun i => (s.producers i).phase) e.view s'.shared.min_level_
      fun i => (s'.producers i).phase := by
  cases Move.of_step hs with
  | call i c hi =>
    simp only [Function.apply_update fun _ p => Log.phase p]
    exact .call (congrArg Log.phase hi)
  | @log i spurious m p e hp =>
    simp only [Function.apply_update fun _ p => Log.phase p]
    generalize hi : s.producers i = p₀ at hp
    have hphase : (s.producers i).phase = p₀.phase := congrArg Log.phase hi
    cases LogMove.of_step hp with
    | suppress hlt => exact .suppress hphase hlt
    | pass hge => exact .pass hphase hge
    | bumpDropped => exact .drop hphase
    | publish => exact .publish hphase
    | _ => exact .proceed ((congrArg Phase.test hphase).trans rfl)
  | drain f hp =>
    generalize s.drain = d at hp
    cases DrainMove.of_step hp with
    | forward hx => exact .forward _
    | _ => exact .quiet
  | setLevel level => exact .setLevel level
  | _ => exact .quiet

/-- **The level test.** In every run of a ring of any size, every call is suppressed, or is not, as
a level says that was in force at some moment between its beginning and its return. -/
theorem level_in_force_mpsc (h : (machine z).Shows Event.view (initial raw level) os) :
    Past.Always (Sight.Judged level) os :=
  always_judged (fun s : State ι => s.shared.min_level_) (fun s i => (s.producers i).phase)
    levelMove_of_step (fun _ => rfl) h

omit [DecidableEq ι] in
/-- The suppressed calls are those that are seen to be. -/
theorem suppressed_seen (tr : List (Event ι)) :
    (tr.filterMap Event.view).filterMap Sight.suppressed = (history tr).suppressed := by
  induction tr using List.reverseRecOn with
  | nil => rfl
  | append_singleton tr e ih =>
    rw [List.filterMap_append, List.filterMap_append, ih, history_snoc]
    cases e <;> simp [Event.view, Sight.suppressed, History.note]

/-- **What it means that a call is suppressed.** Each of the calls that `accounts_for_every_call`
counts as suppressed returned at a moment of the run at which, at some time since the call began, a
level above its own had been in force. -/
theorem suppressed_below (hp : (machine z).Path (initial raw level) tr s)
    {before after : List (ι × Call)} (hc : (history tr).suppressed = before ++ (i, c) :: after) :
    ∃ os os', tr.filterMap Event.view = os ++ .suppress i c :: os' ∧
      os.filterMap Sight.suppressed = before ∧ Sight.Met level (c.level < ·) i c os :=
  Sight.met_of_suppressed
    (always_judged (fun s : State ι => s.shared.min_level_) (fun s i => (s.producers i).phase)
      levelMove_of_step (fun _ => rfl) ⟨tr, s, hp, rfl⟩)
    (by rw [suppressed_seen, hc])

end

/-- Two producers overlap: the first to claim is the second to publish. -/
def overlapped : Option (List (Event Bool) × State Bool) :=
  (machine twoCells).exec small
    ([.call true hello, .call false broken] ++ List.replicate 4 (.log true false) ++
      List.replicate 9 (.log false false) ++ List.replicate 5 (.log true false) ++ drainAction)

theorem overlapped_isSome : overlapped.isSome := by decide +kernel

/-- What is seen of them. -/
def overlappedSeen : List (Sight Bool) :=
  [.call true hello, .call false broken, .publish false broken, .publish true hello,
    .forward ⟨7, .info, [104, 105]⟩]

theorem overlapped_seen :
    (overlapped.get overlapped_isSome).1.filterMap Event.view = overlappedSeen := by
  decide +kernel

theorem level_in_force_mpsc_overlapped : Past.Always (Sight.Judged .kInfo) overlappedSeen :=
  level_in_force_mpsc ⟨_, _, .of_exec_get overlapped_isSome, overlapped_seen⟩

end MpscRtLogger

end XmSigma
