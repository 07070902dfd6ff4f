import XmSigma.Lib.Worker
import XmSigma.Logging.LevelTest
import XmSigma.Logging.RtLoggerInvariant

/-!
# What `RtLogger` delivers

Results about whole runs. While the logger lives, the sink has been handed a prefix of what was
published, record by record as its call wrote it, and every call is accounted for exactly once;
the suppressed ones among them are those that the level test turned away. When the logger is
destroyed, whether the rest is delivered depends on one moment: the drain thread looks at `head_`
and at `running_` in two separate loads, and a record published between the two is left behind if
the destructor stores `running_` before the second.

## Main results

* `delivers`: delivery and accounting in every reachable state
* `level_in_force`: every call is dealt with as a level says that was in force while it was made
* `suppressed_below`: what it means that a call is suppressed
* `shutdown_iff`: the shutdown loses nothing exactly when the destructor does not store `running_`
  while the drain thread acts on a stale `head_`
* `shutdown_loses`: a run in which it does
-/

namespace XmSigma

namespace RtLogger

variable {z : Pow2Size} {s s₁ s₂ : State} {e : Event} {tr tr₁ tr₂ : List Event}

/-! ### Histories of parts of a run -/

/-- The history of one run after that of another. -/
def History.append (h h' : History) : History where
  calls := h.calls ++ h'.calls
  suppressed := h.suppressed ++ h'.suppressed
  dropped := h.dropped ++ h'.dropped
  published := h.published ++ h'.published
  forwarded := h.forwarded ++ h'.forwarded
  released := h.released + h'.released

theorem History.append_note (h h' : History) (e : Event) :
    h.append (h'.note e) = (h.append h').note e := by
  cases e <;> simp [append, note, Nat.add_assoc]

theorem history_append (tr tr' : List Event) :
    history (tr ++ tr') = (history tr).append (history tr') := by
  induction tr' using List.reverseRecOn with
  | nil => simp [History.append]
  | append_singleton tr' e ih =>
    rw [← List.append_assoc, history_snoc, history_snoc, ih, History.append_note]

/-- The calls published and not yet forwarded. -/
def History.pending (h : History) : List Call := h.published.drop h.forwarded.length

/-! ### A small logger

A ring of two slots, for the runs that show a hypothesis can be met or a record lost. -/

/-- `RtLogger("small", 2)`. -/
def twoSlots : Pow2Size := .two

/-- The small logger, at level `kInfo`. -/
def small : State := initial (fun _ => Vector.replicate _ 0) .kInfo

/-- `Log(kInfo, "hi")`. -/
def hello : Call := ⟨.kInfo, .ok [104, 105], 7⟩

/-- A call of `Log` that is accepted, with nothing in between. -/
def logAction (c : Call) : List Action := .call c :: List.replicate 8 .log

/-- One round of the drain thread over a record. -/
def drainAction : List Action :=
  [.time, .time, .time, .level, .len, .msg, .time].map .drain

/-- The destructor joins a drain thread that found the ring empty. -/
def leaveAction : List Action := [.drain .time, .drain .time, .join]

/-- A schedule of the small logger that can be executed. -/
theorem run_small {as : List Action} (h : ((machine twoSlots).exec small as).isSome) :
    (machine twoSlots).Run (((machine twoSlots).exec small as).get h).1
      (((machine twoSlots).exec small as).get h).2 :=
  ⟨small, ⟨_, _, rfl⟩, .of_exec_get h⟩

/-! ### Delivery -/

theorem Inv.length_forwarded {t : History} (h : Inv z t s) :
    t.forwarded.length = t.released + s.drain.pending := by
  have hle := h.pending_le
  rw [h.forwarded_eq, List.length_map, List.length_take]
  omega

/-- Only publishing moves `head_` and only dropping moves `dropped_`: a stretch of a run that
spans one suppressed call, and whatever the other threads do meanwhile, leaves both alone. -/
theorem suppressed_call_frame (h : (machine z).Run tr s) (hp : (machine z).Path s tr₁ s₁)
    (hs : s.log = .idle) (hs₁ : s₁.log = .idle) (hcalls : (history tr₁).calls.length = 1)
    (hsup : (history tr₁).suppressed.length = 1) :
    s₁.shared.head_ = s.shared.head_ ∧ s₁.shared.dropped_ = s.shared.dropped_ := by
  have hi := Inv.of_run h
  have hi₁ := Inv.of_run (h.append hp)
  rw [history_append] at hi₁
  have hc := hi.calls_eq
  have hc₁ := hi₁.calls_eq
  simp only [hs, hs₁, Log.active, History.append, List.length_append] at hc hc₁
  have hpub : (history tr₁).published.length = 0 := by omega
  have hdrop : (history tr₁).dropped.length = 0 := by omega
  rw [hi.head_eq, hi₁.head_eq, hi.dropped_eq, hi₁.dropped_eq]
  simp only [History.append, List.length_append, hpub, hdrop, Nat.add_zero, and_self]

/-- **Delivery and accounting.** In every reachable state the sink has a prefix of the published
records, each as its call wrote it; between two calls of `Log` every call is suppressed, dropped,
forwarded or published and not yet forwarded; `dropped()` counts the dropped calls modulo
`2 ^ 64`; and a suppressed call leaves `head_` and `dropped_` alone. Which calls are suppressed is
said by `suppressed_below`: those below a level that was in force while they were made. -/
theorem delivers (h : (machine z).Run tr s) :
    (history tr).forwarded <+: (history tr).published.map Call.sinkRecord ∧
    (s.log = .idle → (history tr).calls.length =
      (history tr).suppressed.length + (history tr).dropped.length +
        (history tr).forwarded.length + (history tr).pending.length) ∧
    s.shared.dropped_ = .ofNat (history tr).dropped.length ∧
    ∀ tr₁ s₁, (machine z).Path s tr₁ s₁ → s.log = .idle → s₁.log = .idle →
      (history tr₁).calls.length = 1 → (history tr₁).suppressed.length = 1 →
      s₁.shared.head_ = s.shared.head_ ∧ s₁.shared.dropped_ = s.shared.dropped_ := by
  have hi := Inv.of_run h
  refine ⟨?_, fun hidle => ?_, hi.dropped_eq, fun tr₁ s₁ hp hs hs₁ hcalls hsup =>
    suppressed_call_frame h hp hs hs₁ hcalls hsup⟩
  · rw [hi.forwarded_eq]
    exact (List.take_prefix _ _).map _
  · have hc := hi.calls_eq
    have hle := hi.pending_le
    simp only [hidle, Log.active] at hc
    rw [History.pending, List.length_drop, hi.length_forwarded]
    omega

/-- One record published and forwarded. -/
def delivered : Option (List Event × State) :=
  (machine twoSlots).exec small (logAction hello ++ drainAction)

theorem delivered_isSome : delivered.isSome := by decide +kernel

theorem delivers_hello :
    (history (delivered.get delivered_isSome).1).forwarded = [⟨7, .info, [104, 105]⟩] ∧
    (history (delivered.get delivered_isSome).1).forwarded <+:
      (history (delivered.get delivered_isSome).1).published.map Call.sinkRecord :=
  ⟨by decide +kernel, (delivers (run_small delivered_isSome)).1⟩

/-! ### The level test -/

/-- What can be seen. -/
def Event.view : Event → Option (Sight Unit)
  | .call c => some (.call () c)
  | .suppress c => some (.suppress () c)
  | .drop c => some (.drop () c)
  | .publish c => some (.publish () c)
  | .forward r => some (.forward r)
  | .setLevel level => some (.setLevel level)
  | .log | .release | .drain | .stop | .join | .flush => none

/-- How far the producer is with its call. -/
def Log.phase : Log → Phase
  | .idle => .idle
  | .loadLevel c => .entered c
  | .loadHead c | .loadTail c _ => .admitted c
  | .bumpDropped c => .refused c
  | .assign c _ _ => .writing c

theorem update_unit {β : Type*} (f : Unit → β) (b : β) : Function.update f () b = fun _ => b := by
  funext x
  rw [Function.update_self]

section
variable {raw : ℕ → Vector UInt8 kMaxMsgLen} {level : LogLevel} {os : List (Sight Unit)}
  {c : Call} {s' : State}

theorem levelMove_unit {p p' : Phase} {o : Option (Sight Unit)}
    (h : LevelMove level (fun _ : Unit => p) o level (Function.update (fun _ => p) () p')) :
    LevelMove level (fun _ => p) o level fun _ => p' := by
  rwa [update_unit] at h

theorem levelMove_of_step (hs : (machine z).Step s e s') :
    LevelMove s.shared.min_level_ (fun _ => s.log.phase) e.view s'.shared.min_level_
      fun _ => s'.log.phase := by
  obtain ⟨m, log, drain, flush, destructor⟩ := s
  cases Move.of_step hs with
  | call c hl =>
    obtain rfl : log = .idle := hl
    exact levelMove_unit (.call rfl)
  | log hp =>
    cases LogMove.of_step hp with
    | suppress hlt => exact levelMove_unit (.suppress rfl hlt)
    | pass hge => exact levelMove_unit (.pass rfl hge)
    | bumpDropped => exact levelMove_unit (.drop rfl)
    | publish => exact levelMove_unit (.publish rfl)
    | _ => exact levelMove_unit (.proceed rfl)
  | drain f hp =>
    cases DrainMove.of_step hp with
    | forward hx => exact .forward _
    | _ => exact .quiet
  | setLevel level => exact .setLevel level
  | _ => exact .quiet

/-- **The level test.** In every run, every call is suppressed, or is not, as a level says that was
in force at some moment between its beginning and its return. So a call begun after `SetLevel` goes
by the level that was set, or by a later one. -/
theorem level_in_force (h : (machine z).Shows Event.view (initial raw level) os) :
    Past.Always (Sight.Judged level) os :=
  always_judged (fun s : State => s.shared.min_level_) (fun s _ => s.log.phase)
    levelMove_of_step (fun _ => rfl) h

/-- The suppressed calls are those that are seen to be. -/
theorem suppressed_seen (tr : List Event) :
    (tr.filterMap Event.view).filterMap Sight.suppressed =
      (history tr).suppressed.map (Prod.mk ()) := by
  induction tr using List.reverseRecOn with
  | nil => rfl
  | append_singleton tr e ih =>
    rw [List.filterMap_append, List.filterMap_append, ih, history_snoc]
    cases e <;> simp [Event.view, Sight.suppressed, History.note]

/-- **What it means that a call is suppressed.** Each of the calls that `delivers` counts as
suppressed returned at a moment of the run at which, at some time since the call began, a level
above its own had been in force. -/
theorem suppressed_below (hp : (machine z).Path (initial raw level) tr s) {before after : List Call}
    (hc : (history tr).suppressed = before ++ c :: after) :
    ∃ os os', tr.filterMap Event.view = os ++ .suppress () c :: os' ∧
      os.filterMap Sight.suppressed = before.map (Prod.mk ()) ∧
      Sight.Met level (c.level < ·) () c os :=
  Sight.met_of_suppressed
    (always_judged (fun s : State => s.shared.min_level_) (fun s _ => s.log.phase)
      levelMove_of_step (fun _ => rfl) ⟨tr, s, hp, rfl⟩)
    (by rw [suppressed_seen, hc, List.map_append, List.map_cons])

end

/-- A call, `SetLevel(kWarn)`, and the same call again. -/
def raised : Option (List Event × State) :=
  (machine twoSlots).exec small
    (logAction hello ++ [.setLevel .kWarn, .call hello, .log])

theorem raised_isSome : raised.isSome := by decide +kernel

theorem raised_events : (raised.get raised_isSome).1.filterMap Event.view =
    [.call () hello, .publish () hello, .setLevel .kWarn, .call () hello, .suppress () hello] := by
  decide +kernel

theorem level_in_force_raised : Past.Always (Sight.Judged .kInfo)
    [.call () hello, .publish () hello, .setLevel .kWarn, .call () hello, .suppress () hello] :=
  level_in_force ⟨_, _, .of_exec_get raised_isSome, raised_events⟩

/-! ### Shutdown -/

/-- The drain thread is a worker, `running_` being its flag. -/
def Drain.place : Drain → Worker.Place
  | .loadTail | .loadHead _ | .read .. | .storeTail _ => .busy
  | .loadRunning _ => .asking
  | .flushSink => .left
  | .exited => .ended

/-- The destructor is the owner of the drain thread. -/
def Destructor.owner : Destructor → Worker.Owner
  | .notStarted => .active
  | .joining => .joining
  | .joined => .joined

theorem Destructor.owner_injective : Function.Injective Destructor.owner := by
  intro d d'
  cases d <;> cases d' <;> simp [Destructor.owner]

/-- The two in the state of the logger. -/
def State.life (s : State) : Worker.Life := ⟨s.shared.running_, s.drain.place, s.destructor.owner⟩

/-- The step in which the destructor stores `running_`. -/
def Event.stops : Event → Bool
  | .stop => true
  | _ => false

/-- The producer leaves `running_` alone. -/
theorem Log.running_step {m m' : Shared} {p p' : Log} (hs : p.step z m = some (m', p', e)) :
    m'.running_ = m.running_ ∧ e.stops = false := by
  cases LogMove.of_step hs <;> exact ⟨rfl, rfl⟩

/-- The drain thread leaves `running_` alone, and goes on as a worker does. -/
theorem Drain.place_move {m m' : Shared} {p p' : Drain} {f : Field}
    (hs : p.step z m f = some (m', p', e)) :
    p.place.Move m.running_ p'.place ∧ m'.running_ = m.running_ ∧ e.stops = false := by
  cases DrainMove.of_step hs with
  | empty => exact ⟨.ask, rfl, rfl⟩
  | again hrun => exact ⟨.again hrun, rfl, rfl⟩
  | leave hrun => exact ⟨.leave hrun, rfl, rfl⟩
  | flushSink => exact ⟨.finish, rfl, rfl⟩
  | _ => exact ⟨.work, rfl, rfl⟩

theorem life_follows : Worker.Follows (machine z) State.life Event.stops := by
  intro s e s' hs
  cases Move.of_step hs with
  | log hp =>
    obtain ⟨hrun, hstops⟩ := Log.running_step hp
    simp only [State.life, hrun, hstops]
    exact .rest
  | drain f hp =>
    obtain ⟨hmove, hrun, hstops⟩ := Drain.place_move hp
    simp only [State.life, hrun, hstops]
    exact .work hmove
  | stop hd => exact .stop (congrArg Destructor.owner hd)
  | join hd hx => exact .join (congrArg Destructor.owner hd) (congrArg Drain.place hx)
  | _ => exact .rest

theorem life_ok (h : (machine z).Run tr s) : s.life.Ok := by
  refine life_follows.ok ?_ h
  rintro s ⟨raw, level, rfl⟩
  exact .new

theorem Drain.place_eq_ended {p : Drain} (h : p.place = .ended) : p = .exited := by
  cases p <;> first | rfl | cases h

/-- What the destructor's store makes of a state. -/
def stopped (s : State) : State :=
  { s with shared := { s.shared with running_ := false }, destructor := .joining }

theorem stop_eq (hs : step z s .stop = some (s₁, e)) :
    s.destructor = .notStarted ∧ s₁ = stopped s := by
  simp only [step] at hs
  split at hs <;> cases hs
  next hd => exact ⟨hd, rfl⟩

/-! ### After the destructor has stored `running_` -/

/-- What a step can be once the producer is idle for good: a step of the drain thread, or one that
nobody notes. -/
theorem quiet_step (hs : (machine z).Step s e s₁) (hidle : s.log = .idle)
    (he : ∀ c, e ≠ .call c) :
    s₁.log = .idle ∧
      ((s₁.drain = s.drain ∧ ∀ t : History, t.note e = t) ∨
        ∃ f, s.drain.step z s.shared f = some (s₁.shared, s₁.drain, e)) := by
  cases Move.of_step hs with
  | call c => exact absurd rfl (he c)
  | log hp =>
    rw [hidle] at hp
    cases hp
  | drain f hp => exact ⟨hidle, .inr ⟨f, hp⟩⟩
  | _ => exact ⟨hidle, .inl ⟨rfl, fun _ => rfl⟩⟩

theorem idle_of_path (hp : (machine z).Path s tr s₁) (hidle : s.log = .idle)
    (hcalls : ∀ c, Event.call c ∉ tr) : s₁.log = .idle :=
  hp.rule (Q := fun e => ∀ c, e ≠ .call c) (I := fun _ s => s.log = .idle)
    (fun _ he c hc => hcalls c (hc ▸ he)) hidle fun he hidle hs => (quiet_step hs hidle he).1

/-- Once it has found the ring empty, nothing that the drain thread does is noted. -/
theorem Drain.note_of_asking {m m' : Shared} {p p' : Drain} {f : Field} (h : p.place ≠ .busy)
    (hs : p.step z m f = some (m', p', e)) (t : History) : t.note e = t := by
  cases DrainMove.of_step hs with
  | again | leave | flushSink => rfl
  | _ => exact absurd rfl h

/-- It finds the ring empty only when `tail_` and `head_` are equal. -/
theorem Drain.asking_of_step {m m' : Shared} {p p' : Drain} {f : Field} (h : p.place = .busy)
    (h' : p'.place = .asking) (hs : p.step z m f = some (m', p', e)) :
    p = .loadHead m.head_ ∧ ∀ t : History, t.note e = t := by
  cases DrainMove.of_step hs with
  | empty heq => exact ⟨by rw [heq], fun _ => rfl⟩
  | leave | flushSink => cases h
  | _ => cases h'

/-- Every published record is released. -/
def History.Emptied (t : History) : Prop := t.released = t.published.length

/-- Whether everything is released when the drain thread has left its loop is decided when
`running_` is stored. -/
theorem emptied_iff (hrun : (machine z).Run tr₁ s₁) (hidle : s₁.log = .idle)
    (hoff : s₁.shared.running_ = false) (hp : (machine z).Path s₁ tr₂ s₂)
    (hcalls : ∀ c, Event.call c ∉ tr₂) (hexit : s₂.drain = .exited) :
    (history (tr₁ ++ tr₂)).Emptied ↔ s₁.drain.place = .busy ∨ (history tr₁).Emptied := by
  have hend : s₂.life.place ≠ .busy := by simp [State.life, hexit, Drain.place]
  have hquiet {tr : List Event} {s : State} {e : Event} {s' : State} (rest : List Event)
      (htr : tr₂ = tr ++ e :: rest) (hp' : (machine z).Path s₁ tr s)
      (hs : (machine z).Step s e s') :=
    (quiet_step hs (idle_of_path hp' hidle fun c hmem => hcalls c (by simp [htr, hmem]))
      fun c hc => hcalls c (by simp [htr, hc])).2
  have hiff := life_follows.complete_iff (D := fun tr => (history (tr₁ ++ tr)).Emptied) hp hoff
    (fun {tr s e s'} rest htr hp' hs hplace => ?_)
    (fun {tr s e s'} rest htr hp' hs hplace hask => ?_)
    hend
  · rwa [List.append_nil] at hiff
  · have hnote : ∀ t : History, t.note e = t := by
      rcases hquiet rest htr hp' hs with ⟨-, hnote⟩ | ⟨f, hf⟩
      · exact hnote
      · exact Drain.note_of_asking hplace hf
    rw [← List.append_assoc, history_snoc, hnote]
  · rcases hquiet rest htr hp' hs with ⟨hsame, -⟩ | ⟨f, hf⟩
    · rw [State.life, hsame] at hask
      exact absurd (hplace.symm.trans hask) (by decide)
    · obtain ⟨hhead, hnote⟩ := Drain.asking_of_step hplace hask hf
      have hi := Inv.of_run (hrun.append hp')
      have hok := hi.drain_ok
      simp only [hhead, Drain.Ok] at hok
      rw [← List.append_assoc, history_snoc, hnote]
      exact hi.empty_iff.mp (hi.tail_eq.trans hok.symm)

/-- The drain thread has found the ring empty and is about to load `running_`, but the ring is no
longer empty. -/
def ActsOnStaleHead (s : State) : Prop :=
  ∃ tail, s.drain = .loadRunning tail ∧ tail ≠ s.shared.head_

/-- In its loop, the drain thread leaves something undone just then. -/
theorem Inv.fresh_iff {t : History} (h : Inv z t s)
    (hloop : s.drain.place = .busy ∨ s.drain.place = .asking) :
    s.drain.place = .busy ∨ t.Emptied ↔ ¬ ActsOnStaleHead s := by
  have hok := h.drain_ok
  cases hd : s.drain with
  | loadRunning tail =>
    simp only [hd, Drain.Ok] at hok
    have hstale : ActsOnStaleHead s ↔ tail ≠ s.shared.head_ := by
      simp [ActsOnStaleHead, hd]
    rw [hstale, not_not, hok, ← h.tail_eq, h.empty_iff]
    exact or_iff_right (by simp [Drain.place])
  | flushSink | exited => simp [hd, Drain.place] at hloop
  | _ => exact iff_of_true (.inl rfl) (by rintro ⟨tail, ht, -⟩; rw [hd] at ht; cases ht)

/-- Nothing is lost: every published record was forwarded, and the calls add up. -/
def History.Complete (h : History) : Prop :=
  h.forwarded = h.published.map Call.sinkRecord ∧
    h.calls.length = h.suppressed.length + h.dropped.length + h.forwarded.length

/-- Once the drain thread has ended, nothing is lost if everything is released. -/
theorem Inv.complete_iff {t : History} (h : Inv z t s) (hidle : s.log = .idle)
    (hexit : s.drain = .exited) : t.Complete ↔ t.Emptied := by
  have hfwd := h.forwarded_eq
  have hcnt := h.calls_eq
  simp only [hexit, Drain.pending, Nat.add_zero] at hfwd
  simp only [hidle, Log.active, Nat.add_zero] at hcnt
  constructor
  · rintro ⟨hall, -⟩
    have hlen := congrArg List.length (hfwd.symm.trans hall)
    have hle := h.released_le
    simp only [List.length_map, List.length_take] at hlen
    rw [History.Emptied]
    omega
  · intro hall
    rw [hall, List.take_length] at hfwd
    exact ⟨hfwd, by rw [hcnt, hfwd, List.length_map]⟩

/-- **Shutdown.** Take any run in which the destructor starts when all calls of `Log` have
returned, none is made afterwards, and the drain thread has been joined. Every published record
was forwarded, and calls = suppressed + dropped + forwarded, if and only if the destructor did not
store `running_` while the drain thread, having found the ring empty and about to load
`running_`, was acting on a `head_` that had moved on. -/
theorem shutdown_iff {tr₁ tr₂ : List Event} {s₁ s₂ s : State}
    (h₁ : (machine z).Run tr₁ s₁) (hret : s₁.log = .idle)
    (hstop : (machine z).step s₁ .stop = some (s₂, .stop)) (h₂ : (machine z).Path s₂ tr₂ s)
    (hcalls : ∀ c, Event.call c ∉ tr₂) (hjoined : s.destructor = .joined) :
    (history (tr₁ ++ .stop :: tr₂)).Complete ∧
        s.shared.dropped_ = .ofNat (history (tr₁ ++ .stop :: tr₂)).dropped.length ↔
      ¬ ActsOnStaleHead s₁ := by
  have hrun : (machine z).Run (tr₁ ++ [.stop]) s₂ := h₁.snoc ⟨_, hstop⟩
  have hnote : history (tr₁ ++ [.stop]) = history tr₁ := history_snoc _ _
  obtain ⟨hlive, rfl⟩ := stop_eq (z := z) hstop
  have hlife := life_ok h₁
  have hloop := hlife.looping (hlife.flag_iff.mpr (congrArg Destructor.owner hlive))
  have hend := Inv.of_run (hrun.append h₂)
  have hexit : s.drain = .exited :=
    Drain.place_eq_ended ((life_ok (hrun.append h₂)).joined (congrArg Destructor.owner hjoined))
  have happ : tr₁ ++ .stop :: tr₂ = tr₁ ++ [.stop] ++ tr₂ := by simp
  rw [happ, and_iff_left hend.dropped_eq,
    hend.complete_iff (idle_of_path h₂ hret hcalls) hexit,
    emptied_iff hrun hret rfl h₂ hcalls hexit, hnote]
  exact (Inv.of_run h₁).fresh_iff hloop

/-! ### Two shutdowns of the small logger -/

/-- The destructor starts after the record was forwarded. -/
def closed : Option (List Event × State) :=
  (machine twoSlots).exec (stopped (delivered.get delivered_isSome).2)
    ([.drain .time, .drain .time] ++ leaveAction)

theorem closed_isSome : closed.isSome := by decide +kernel

theorem closed_events :
    (closed.get closed_isSome).1 = [.drain, .drain, .drain, .drain, .join] := rfl

theorem shutdown_hello :
    (history ((delivered.get delivered_isSome).1 ++
      .stop :: (closed.get closed_isSome).1)).Complete :=
  ((shutdown_iff (run_small delivered_isSome) rfl rfl (.of_exec_get closed_isSome)
    (fun c => by
      change Event.call c ∉ (closed.get closed_isSome).1
      simp [closed_events])
    rfl).mpr (by rintro ⟨tail, h, -⟩; cases h)).1

/-- The drain thread finds the ring empty; then a record is published. -/
def late : Option (List Event × State) :=
  (machine twoSlots).exec small ([.drain .time, .drain .time] ++ logAction hello)

theorem late_isSome : late.isSome := by decide +kernel

/-- The destructor starts before the drain thread loads `running_`. -/
def abandoned : Option (List Event × State) :=
  (machine twoSlots).exec (stopped (late.get late_isSome).2) leaveAction

theorem abandoned_isSome : abandoned.isSome := by decide +kernel

theorem abandoned_events : (abandoned.get abandoned_isSome).1 = [.drain, .drain, .join] := rfl

/-- **A shutdown can lose a record.** -/
theorem shutdown_loses :
    ¬ ∀ (z : Pow2Size) (tr₁ tr₂ : List Event) (s₁ s₂ s : State), (machine z).Run tr₁ s₁ →
      s₁.log = .idle → (machine z).step s₁ .stop = some (s₂, .stop) →
      (machine z).Path s₂ tr₂ s → (∀ c, Event.call c ∉ tr₂) → s.destructor = .joined →
      (history (tr₁ ++ .stop :: tr₂)).Complete := by
  intro h
  have hall : (history ((late.get late_isSome).1 ++
      .stop :: (abandoned.get abandoned_isSome).1)).Complete :=
    h twoSlots _ _ _ (stopped _) _ (run_small late_isSome) rfl rfl
      (.of_exec_get abandoned_isSome)
      (fun c => by simp [abandoned_events])
      rfl
  have hlost : (history ((late.get late_isSome).1 ++
      .stop :: (abandoned.get abandoned_isSome).1)).forwarded = [] := rfl
  have hpub : (history ((late.get late_isSome).1 ++
      .stop :: (abandoned.get abandoned_isSome).1)).published = [hello] := rfl
  have heq := hlost.symm.trans hall.1
  rw [hpub] at heq
  cases heq

end RtLogger

end XmSigma
