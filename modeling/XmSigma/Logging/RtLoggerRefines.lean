import XmSigma.Logging.RtLoggerCapacity
import XmSigma.Logging.SharedQueue

/-!
# `RtLogger` is the shared queue of one producer

The steps of `RtLogger` are single accesses to shared memory, those of the shared queue are what a
caller thinks of. Still nothing else can be seen: whatever a run of the one shows, in whatever order
its threads take their steps, a run of the other shows as well.

The queue holds the published and unreleased records, and behind them the one that is being written.
A call reserves its place, or is refused, when it loads `tail_`.

## Main definitions

* `State.queue`: the shared queue in the state of the logger

## Main results

* `refines`: the logger shows what the shared queue shows
-/

namespace XmSigma

namespace RtLogger

variable {z : Pow2Size} {t : History} {s s' : State} {e : Event} {tr : List Event} {c : Call}

/-! ### The queue in the logger -/

/-- A record has been forwarded whose slot is not yet free. -/
def Drain.busy : Drain → Bool
  | .storeTail _ => true
  | _ => false

/-- The place of a call. -/
def entry (ready : Bool) (c : Call) : SharedQueue.Entry Unit := ⟨(), c, ready⟩

/-- The published and unreleased records, and the one that is being written. -/
def entries (t : History) (p : Log) : List (SharedQueue.Entry Unit) :=
  t.unreleased.map (entry true) ++ p.publishing.map (entry false)

/-- The shared queue in the state of the logger. -/
def State.queue (t : History) (s : State) : SharedQueue.State Unit where
  level := s.shared.min_level_
  phase _ := s.log.phase
  queue := entries t s.log
  busy := s.drain.busy

@[simp] theorem length_entries (t : History) (p : Log) :
    (entries t p).length = t.unreleased.length + p.publishing.length := by
  simp [entries]

/-- The room of the queue is the room in the ring. -/
theorem Inv.room_iff (h : Inv z t s) :
    ¬ z.size ≤ UInt64.ofNat t.published.length - s.shared.tail_ ↔ t.unreleased.length < z.card := by
  have hlen := h.length_unreleased
  rw [h.full_iff]
  omega

/-- The first entry is the record that the drain thread comes to next. -/
theorem entries_eq_cons (h : t.published[t.released]? = some c) (p : Log) :
    entries t p = entry true c :: entries (t.note .release) p := by
  obtain ⟨hlt, rfl⟩ := List.getElem?_eq_some_iff.mp h
  simp only [entries, History.unreleased, History.note, List.drop_eq_getElem_cons hlt,
    List.map_cons, List.cons_append]

/-- A record is published: its entry is ready. -/
theorem Inv.finish_entries (h : Inv z t s) (c : Call) (head : UInt64) (todo : List Field) :
    SharedQueue.finish () (entries t (.assign c head todo)) =
      entries (t.note (.publish c)) .idle := by
  simp only [entries, History.unreleased, History.note, Log.publishing,
    List.drop_append_of_le_length h.released_le, SharedQueue.finish, List.map_append, List.map_map,
    List.map_cons, List.map_nil, List.append_nil]
  rfl

/-! ### Every step is one of the queue, or hidden -/

theorem queue_move (t : History) (s : State) (p : Phase) :
    (s.queue t).move () p = { s.queue t with phase := fun _ => p } := by
  rw [SharedQueue.State.move, update_unit]

theorem Inv.answer_log {m : Shared} {p : Log} (h : Inv z t s)
    (hs : s.log.step z s.shared = some (m, p, e)) :
    SharedQueue.Answer z.card (s.queue t)
      (State.queue (t.note e) { s with shared := m, log := p }) e.view := by
  have hok := h.log_ok
  have hroom := h.room_iff
  have hfinish := h.finish_entries
  obtain ⟨m₀, p₀, drain, flush, destructor⟩ := s
  cases LogMove.of_step hs with
  | suppress hlt => exact .of_move (.suppress rfl hlt) (queue_move ..) rfl
  | pass hge => exact .of_move (.pass rfl hge) (queue_move ..) rfl
  | loadHead => exact .hidden rfl rfl
  | @full c head hfull =>
    obtain rfl : head = _ := hok
    refine .of_move (.refuse rfl fun hlt => ?_) (queue_move ..) rfl
    exact hroom.mpr (by simpa [State.queue, Log.publishing] using hlt) hfull
  | @room c head hfree =>
    obtain rfl : head = _ := hok
    refine .of_move (.reserve (i := ()) rfl ?_) ?_ rfl
    · simpa [State.queue, Log.publishing] using hroom.mp hfree
    · rw [queue_move]
      simp only [State.queue, entries, Log.publishing, List.map_nil, List.append_nil]
      rfl
  | bumpDropped => exact .of_move (.drop rfl) (queue_move ..) rfl
  | assign => exact .hidden rfl rfl
  | @publish c head =>
    refine .of_move (.publish (i := ()) rfl) ?_ rfl
    rw [queue_move]
    simp only [State.queue, hfinish]
    rfl

theorem Inv.answer_drain {m : Shared} {p : Drain} {f : Field} (h : Inv z t s)
    (hs : s.drain.step z s.shared f = some (m, p, e)) :
    SharedQueue.Answer z.card (s.queue t)
      (State.queue (t.note e) { s with shared := m, drain := p }) e.view := by
  have hok := h.drain_ok
  have hfilled := h.filled
  obtain ⟨m₀, log, p₀, flush, destructor⟩ := s
  cases DrainMove.of_step hs with
  | @forward tail v x hx =>
    obtain ⟨rfl, c, hc, hv⟩ := hok
    rw [z.slot_ofNat] at hx
    obtain rfl := hv.forward_eq (hfilled _ _ le_rfl hc) hx
    exact .of_move (.forward (x := entry true c) (entries_eq_cons hc log) rfl rfl) rfl rfl
  | storeTail =>
    refine .of_move (.release rfl) ?_ rfl
    simp only [State.queue, entries_eq_cons (List.getElem?_eq_getElem hok.2), List.tail_cons,
      Drain.busy]
  | _ => exact .hidden rfl rfl

theorem Inv.answer (h : Inv z t s) (hs : (machine z).Step s e s') :
    SharedQueue.Answer z.card (s.queue t) (s'.queue (t.note e)) e.view := by
  cases Move.of_step hs with
  | call c hl =>
    have hi : (s.queue t).phase () = .idle := congrArg Log.phase hl
    refine .of_move (.call hi) ?_ rfl
    rw [queue_move, State.queue, hl]
    rfl
  | log hp => exact h.answer_log hp
  | drain f hp => exact h.answer_drain hp
  | setLevel level => exact .of_move .setLevel rfl rfl
  | _ => exact .hidden rfl rfl

/-! ### Every step of the queue can be made -/

/-- The producer is not in the middle of a step of the queue. -/
def Log.Pausing : Log → Prop
  | .idle | .loadLevel _ | .loadHead _ | .bumpDropped _ => True
  | .loadTail _ _ => False
  | .assign _ _ todo => todo = assignments

/-- Where it is then. -/
theorem Log.Pausing.eq {p : Log} {q : Phase} (h : p.Pausing) (hq : p.phase = q) : match q with
    | .idle => p = .idle
    | .entered c => p = .loadLevel c
    | .admitted c => p = .loadHead c
    | .refused c => p = .bumpDropped c
    | .writing c => ∃ head, p = .assign c head assignments := by
  subst hq
  cases p with
  | loadTail c head => exact h.elim
  | assign c head todo =>
    obtain rfl : todo = assignments := h
    exact ⟨head, rfl⟩
  | _ => rfl

/-- Neither is the drain thread. -/
def Drain.Pausing : Drain → Prop
  | .loadTail | .storeTail _ => True
  | _ => False

theorem Drain.Pausing.loadTail {d : Drain} (h : d.Pausing) (hbusy : d.busy = false) :
    d = .loadTail := by
  cases d with
  | loadTail => rfl
  | storeTail tail => cases hbusy
  | _ => exact h.elim

theorem Drain.Pausing.storeTail {d : Drain} (h : d.Pausing) (hbusy : d.busy = true) :
    ∃ tail, d = .storeTail tail := by
  cases d with
  | loadTail => cases hbusy
  | storeTail tail => exact ⟨tail, rfl⟩
  | _ => exact h.elim

/-- No thread is in the middle of a step of the queue, and the drain thread is in its loop. -/
structure Pausing (s : State) : Prop where
  log : s.log.Pausing
  drain : s.drain.Pausing
  running : s.shared.running_ = true

theorem Pausing.update (h : Pausing s) {p : Log} (hp : p.Pausing) {m : Shared}
    (hm : m.running_ = true) : Pausing { s with shared := m, log := p } :=
  ⟨hp, h.drain, hm⟩

theorem LogMove.step {m m' : Shared} {p p' : Log} (h : LogMove z m p m' p' e) :
    p.step z m = some (m', p', e) := by
  cases h with
  | suppress h | full h => exact if_pos h
  | pass h | room h => exact if_neg h
  | _ => rfl

theorem DrainMove.step {m m' : Shared} {p p' : Drain} (h : DrainMove z m p m' p' e) :
    ∃ f, p.step z m f = some (m', p', e) := by
  cases h with
  | empty h | again h => exact ⟨.time, if_pos h⟩
  | found h => exact ⟨.time, if_neg h⟩
  | leave h => exact ⟨.time, if_neg (by simp [h])⟩
  | read f h =>
    cases f with
    | msg => cases h
    | time => exact ⟨.time, Option.map_eq_some_iff.mpr ⟨_, h, rfl⟩⟩
    | level => exact ⟨.level, Option.map_eq_some_iff.mpr ⟨_, h, rfl⟩⟩
    | len => exact ⟨.len, Option.map_eq_some_iff.mpr ⟨_, h, rfl⟩⟩
  | forward h => exact ⟨.msg, Option.map_eq_some_iff.mpr ⟨_, h, rfl⟩⟩
  | _ => exact ⟨.time, rfl⟩

/-- A step of the producer, which is at `p`. -/
theorem step_of_log {m : Shared} {p p' : Log} (hl : s.log = p) (h : LogMove z s.shared p m p' e) :
    (machine z).Step s e { s with shared := m, log := p' } :=
  ⟨.log, Option.map_eq_some_iff.mpr ⟨_, hl ▸ h.step, rfl⟩⟩

/-- A step of the drain thread, which is at `p`. -/
theorem step_of_drain {m : Shared} {p p' : Drain} (hd : s.drain = p)
    (h : DrainMove z s.shared p m p' e) :
    (machine z).Step s e { s with shared := m, drain := p' } := by
  obtain ⟨f, hf⟩ := h.step
  exact ⟨.drain f, Option.map_eq_some_iff.mpr ⟨_, hd ▸ hf, rfl⟩⟩

/-- A call finds room in the ring. -/
theorem Inv.room_path (h : Inv z t s) (hl : s.log = .loadHead c)
    (hroom : t.unreleased.length < z.card) :
    (machine z).Path s [.log, .log] { s with log := .assign c s.shared.head_ assignments } := by
  have hfree : ¬ z.size ≤ s.shared.head_ - s.shared.tail_ := by
    rw [h.head_eq]
    exact h.room_iff.mpr hroom
  exact .cons (step_of_log hl .loadHead) (step_of_log rfl (.room hfree)).path

/-- A call finds the ring full. -/
theorem Inv.full_path (h : Inv z t s) (hl : s.log = .loadHead c)
    (hfull : ¬ t.unreleased.length < z.card) :
    (machine z).Path s [.log, .log] { s with log := .bumpDropped c } := by
  have hnone : z.size ≤ s.shared.head_ - s.shared.tail_ := by
    by_contra hfree
    rw [h.head_eq] at hfree
    exact hfull (h.room_iff.mp hfree)
  exact .cons (step_of_log hl .loadHead) (step_of_log rfl (.full hnone)).path

/-- The drain thread finds a record, and hands it on. -/
theorem Inv.forward_path (h : Inv z t s) (hd : s.drain = .loadTail)
    (hc : t.published[t.released]? = some c) :
    (machine z).Path s (List.replicate 5 .drain ++ [.forward c.sinkRecord])
      { s with drain := .storeTail s.shared.tail_ } := by
  have hlt := (List.getElem?_eq_some_iff.mp hc).1
  have hne : s.shared.tail_ ≠ s.shared.head_ := fun heq => hlt.ne (h.empty_iff.mp heq)
  have hfilled := h.filled _ _ le_rfl hc
  rw [← z.slot_ofNat, ← h.tail_eq] at hfilled
  rw [← Record.sinkRecord_eq hfilled]
  exact .cons (step_of_drain hd .loadTail) <|
    .cons (step_of_drain rfl (.found hne)) <|
    .cons (step_of_drain rfl (.read .time rfl)) <|
    .cons (step_of_drain rfl (.read .level rfl)) <|
    .cons (step_of_drain rfl (.read .len rfl)) <|
    (step_of_drain rfl (.forward rfl)).path

/-- The first entry, if it is ready, is a published record. -/
theorem first_published {x : SharedQueue.Entry Unit} {rest : List (SharedQueue.Entry Unit)}
    (hq : (s.queue t).queue = x :: rest) (hready : x.ready = true) :
    t.published[t.released]? = some x.call := by
  replace hq : entries t s.log = x :: rest := hq
  cases hc : t.published[t.released]? with
  | none =>
    -- then only the record that is being written can be in the queue
    have hnil : t.unreleased = [] := List.drop_eq_nil_iff.mpr (List.getElem?_eq_none_iff.mp hc)
    have hmem : x ∈ entries t s.log := by
      rw [hq]
      exact List.mem_cons_self
    rw [entries, hnil] at hmem
    obtain ⟨c, -, rfl⟩ := List.mem_map.mp hmem
    cases hready
  | some c =>
    obtain ⟨rfl, -⟩ := List.cons.inj ((entries_eq_cons hc s.log).symm.trans hq)
    rfl

theorem history_append_foldl (tr tr₁ : List Event) :
    history (tr ++ tr₁) = tr₁.foldl History.note (history tr) :=
  List.foldl_append

/-- The logger can follow the queue to `a'`, showing just `o`. -/
def CanFollow (z : Pow2Size) (t : History) (s : State) (o : Option (Sight Unit))
    (a' : SharedQueue.State Unit) : Prop :=
  (machine z).CanShow Event.view s o fun tr₁ s₁ =>
    a' = s₁.queue (tr₁.foldl History.note t) ∧ Pausing s₁

/-- One step is enough. -/
theorem CanFollow.of_step {a' : SharedQueue.State Unit} (hs : (machine z).Step s e s')
    (ha : a' = s'.queue (t.note e)) (hp : Pausing s') : CanFollow z t s e.view a' :=
  Machine.CanShow.of_step hs ⟨ha, hp⟩

/-- The queue does not see the slots. -/
theorem queue_update (t : History) (s : State) {p : Log} {m : Shared}
    (hlevel : m.min_level_ = s.shared.min_level_) (hwriting : p.publishing = s.log.publishing) :
    (s.queue t).move () p.phase = State.queue t { s with shared := m, log := p } := by
  rw [queue_move]
  simp only [State.queue, entries, hlevel, hwriting]

/-- A step of the producer that concerns no entry. -/
theorem CanFollow.of_log {p p' : Log} {m : Shared} (hp : Pausing s) (hl : s.log = p)
    (hs : LogMove z s.shared p m p' e) (hlevel : m.min_level_ = s.shared.min_level_)
    (hwriting : p'.publishing = p.publishing)
    (hnote : ∀ s : State, s.queue (t.note e) = s.queue t) (hp' : p'.Pausing)
    (hm : m.running_ = true) : CanFollow z t s e.view ((s.queue t).move () p'.phase) := by
  refine .of_step (step_of_log hl hs) ?_ (hp.update hp' hm)
  rw [hnote]
  exact queue_update t s hlevel (hwriting.trans (by rw [hl]))

/-- A call reserves its place. -/
theorem Inv.follow_reserve (h : Inv z t s) (hp : Pausing s) (hl : s.log = .loadHead c)
    (hroom : (s.queue t).queue.length < z.card) :
    CanFollow z t s none
      { (s.queue t).move () (.writing c) with queue := (s.queue t).queue ++ [⟨(), c, false⟩] } := by
  have hlt : t.unreleased.length < z.card := by simpa [State.queue, hl, Log.publishing] using hroom
  refine ⟨_, _, h.room_path hl hlt, rfl, ?_,
    hp.update (p := .assign c _ assignments) rfl hp.running⟩
  rw [queue_move]
  simp only [State.queue, entries, hl, Log.publishing, List.map_nil, List.append_nil]
  rfl

/-- A call is refused. -/
theorem Inv.follow_refuse (h : Inv z t s) (hp : Pausing s) (hl : s.log = .loadHead c)
    (hfull : ¬ (s.queue t).queue.length < z.card) :
    CanFollow z t s none ((s.queue t).move () (.refused c)) := by
  have hge : ¬ t.unreleased.length < z.card := fun hlt =>
    hfull (by simpa [State.queue, hl, Log.publishing] using hlt)
  exact ⟨_, _, h.full_path hl hge, rfl,
    queue_update (p := .bumpDropped c) t s rfl (by rw [hl]; rfl),
    hp.update (p := .bumpDropped c) trivial hp.running⟩

/-- A call writes its record, and publishes it. -/
theorem Inv.follow_publish (h : Inv z t s) (hp : Pausing s) {head : UInt64}
    (hl : s.log = .assign c head assignments) :
    CanFollow z t s (some (.publish () c))
      { (s.queue t).move () .idle with queue := SharedQueue.finish () (s.queue t).queue } := by
  have hpath := fill_path (z := z) s c head assignments
  rw [← hl] at hpath
  refine ⟨_, _, hpath, rfl, ?_, hp.update (p := .idle) trivial hp.running⟩
  rw [queue_move]
  simp only [State.queue, hl, h.finish_entries]
  rfl

/-- The drain thread hands on the first record. -/
theorem Inv.follow_forward (h : Inv z t s) (hp : Pausing s) {x : SharedQueue.Entry Unit}
    {rest : List (SharedQueue.Entry Unit)} (hq : (s.queue t).queue = x :: rest)
    (hready : x.ready = true) (hbusy : (s.queue t).busy = false) :
    CanFollow z t s (some (.forward x.call.sinkRecord)) { s.queue t with busy := true } :=
  ⟨_, _, h.forward_path (hp.drain.loadTail hbusy) (first_published hq hready), rfl, rfl, hp.log,
    trivial, hp.running⟩

/-- The drain thread frees its slot. -/
theorem Inv.follow_release (h : Inv z t s) (hp : Pausing s) (hbusy : (s.queue t).busy = true) :
    CanFollow z t s none { s.queue t with queue := (s.queue t).queue.tail, busy := false } := by
  have hok := h.drain_ok
  obtain ⟨tail, hd⟩ := hp.drain.storeTail hbusy
  rw [hd] at hok
  refine .of_step (step_of_drain hd .storeTail) ?_ ⟨hp.log, trivial, hp.running⟩
  simp only [State.queue, entries_eq_cons (List.getElem?_eq_getElem hok.2), List.tail_cons]
  rfl

/-- **The logger can follow the queue**, one step at a time. -/
theorem Inv.follow {a' : SharedQueue.State Unit} {e : SharedQueue.Event Unit} (h : Inv z t s)
    (hp : Pausing s) (hm : SharedQueue.Move z.card (s.queue t) e a') :
    CanFollow z t s e.view a' := by
  cases hm with
  | @call i c hi =>
    have hidle : s.log = .idle := hp.log.eq hi
    have hcall : (machine z).Step s (.call c) { s with log := .loadLevel c } :=
      ⟨.call c, by simp only [machine, RtLogger.step, hidle]⟩
    refine .of_step hcall ?_ (hp.update (p := .loadLevel c) trivial hp.running)
    exact queue_update (p := .loadLevel c) t s rfl (by rw [hidle]; rfl)
  | suppress hi hlt =>
    exact .of_log hp (hp.log.eq hi) (.suppress hlt) rfl rfl (fun _ => rfl) trivial hp.running
  | pass hi hge =>
    exact .of_log hp (hp.log.eq hi) (.pass hge) rfl rfl (fun _ => rfl) trivial hp.running
  | reserve hi hroom => exact h.follow_reserve hp (hp.log.eq hi) hroom
  | refuse hi hfull => exact h.follow_refuse hp (hp.log.eq hi) hfull
  | drop hi =>
    exact .of_log hp (hp.log.eq hi) .bumpDropped rfl rfl (fun _ => rfl) trivial hp.running
  | publish hi =>
    obtain ⟨head, hwriting⟩ := hp.log.eq hi
    exact h.follow_publish hp hwriting
  | forward hq hready hbusy => exact h.follow_forward hp hq hready hbusy
  | release hbusy => exact h.follow_release hp hbusy
  | @setLevel level =>
    exact .of_step (e := .setLevel level) ⟨.setLevel level, rfl⟩ rfl
      ⟨hp.log, hp.drain, hp.running⟩

/-! ### The results -/

variable {raw : ℕ → Vector UInt8 kMaxMsgLen} {level : LogLevel} {os : List (Sight Unit)}

theorem shows_queue (h : (machine z).Shows Event.view (initial raw level) os) :
    (SharedQueue.machine z.card).Shows SharedQueue.Event.view (SharedQueue.initial level) os := by
  obtain ⟨tr, s, hp, rfl⟩ := h
  obtain ⟨tr', a, ha, hview, -⟩ := hp.simulated (A := SharedQueue.machine z.card)
    (w := SharedQueue.Event.view) (P := fun _ => True)
    (R := fun tr s _ a => a = s.queue (history tr)) (a := SharedQueue.initial level)
    trivial (fun _ => trivial) rfl fun {tr s e s' tr' a} hp _ _ ha hs => by
      subst ha
      have hi := Inv.of_run ⟨_, ⟨raw, level, rfl⟩, hp⟩
      obtain ⟨tr₁, hpath, hview⟩ := (hi.answer hs).path
      exact ⟨tr₁, _, hpath, hview, by rw [history_snoc]⟩
  exact ⟨tr', a, ha, hview⟩

theorem queue_shows (h : (SharedQueue.machine z.card).Shows SharedQueue.Event.view
    (SharedQueue.initial level) os) : (machine z).Shows Event.view (initial raw level) os := by
  obtain ⟨tr, a, hp, rfl⟩ := h
  obtain ⟨tr', s, hs, hview, -⟩ := hp.simulated (A := machine z) (w := Event.view)
    (P := fun _ => True) (R := fun _ a tr s => a = s.queue (history tr) ∧ Pausing s)
    (a := initial raw level) trivial (fun _ => trivial) ⟨rfl, trivial, trivial, rfl⟩
    fun {_ a e a' tr s} _ hp _ ha hs => by
      obtain ⟨rfl, hpausing⟩ := ha
      have hi := Inv.of_run ⟨_, ⟨raw, level, rfl⟩, hp⟩
      obtain ⟨tr₁, s₁, hpath, hview, ha', hpausing₁⟩ := hi.follow hpausing (.of_step hs)
      exact ⟨tr₁, s₁, hpath, hview, by rw [ha', history_append_foldl], hpausing₁⟩
  exact ⟨tr', s, hs, hview⟩

/-- **`RtLogger` is the shared queue of one producer.** Whatever the order in which the threads take
their steps, what can be seen of a new logger can be seen of a new queue of `capacity_` entries, and
what can be seen of the queue can be seen of the logger. -/
theorem refines (z : Pow2Size) (raw : ℕ → Vector UInt8 kMaxMsgLen) (level : LogLevel)
    (os : List (Sight Unit)) :
    (machine z).Shows Event.view (initial raw level) os ↔
      (SharedQueue.machine z.card).Shows SharedQueue.Event.view (SharedQueue.initial level) os :=
  ⟨shows_queue, queue_shows⟩

end RtLogger

end XmSigma
