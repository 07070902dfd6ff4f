import XmSigma.Logging.MpscFull
import XmSigma.Logging.SharedQueue

/-!
# `MpscRtLogger` is the shared queue of many producers

What `RtLoggerRefines` shows of one producer holds of any number of them. The queue holds the
claimed positions whose cell is not yet freed, in the order in which they were claimed. A call
reserves its place with its exchange, and is refused when it loads a sequence below its position;
an entry is ready once its call has published the cell.

So that one cell tells full from empty, the ring must have two, and the counters must stay below
`2 ^ 63`. Of what can be seen, that is a bound on the number of calls.

## Main definitions

* `State.queue`: the shared queue in the state of the logger

## Main results

* `shows_queue_iff`: the logger shows what the shared queue shows
-/

namespace XmSigma

namespace MpscRtLogger

variable {ι : Type*} {z : Pow2Size} {t : History ι} {s s' : State ι} {e : Event ι}
  {tr : List (Event ι)} {i : ι} {c : Call} {pos : UInt64} {producers : ι → Log} {p : Log}

/-! ### The queue in the logger -/

/-- The producer is not writing position `q`. -/
def Log.finished (q : ℕ) : Log → Bool
  | .assign _ pos _ => decide (pos.toNat ≠ q)
  | _ => true

/-- A record has been forwarded whose cell is not yet free. -/
def Drain.busy : Drain → Bool
  | .advance _ | .free _ => true
  | _ => false

/-- The place of a claim. -/
def entry (producers : ι → Log) (x : (ι × Call) × ℕ) : SharedQueue.Entry ι :=
  ⟨x.1.1, x.1.2, (producers x.1.1).finished x.2⟩

/-- The positions claimed and not yet freed. -/
def entries (t : History ι) (producers : ι → Log) : List (SharedQueue.Entry ι) :=
  (t.claims.zipIdx.drop t.freed).map (entry producers)

/-- The shared queue in the state of the logger. -/
def State.queue (t : History ι) (s : State ι) : SharedQueue.State ι where
  level := s.shared.min_level_
  phase i := (s.producers i).phase
  queue := entries t s.producers
  busy := s.drain.busy

theorem length_entries (t : History ι) (producers : ι → Log) :
    (entries t producers).length = t.claims.length - t.freed := by
  rw [entries, List.length_map, List.length_drop, List.length_zipIdx]

/-- The first entry is the position that the drain thread comes to next. -/
theorem entries_eq_cons (h : t.claims[t.freed]? = some (i, c)) (producers : ι → Log) :
    entries t producers =
      ⟨i, c, (producers i).finished t.freed⟩ :: entries (t.note .free) producers := by
  obtain ⟨hlt, hget⟩ := List.getElem?_eq_some_iff.mp h
  have hlt' : t.freed < t.claims.zipIdx.length := by rwa [List.length_zipIdx]
  rw [entries, List.drop_eq_getElem_cons hlt', List.map_cons, List.getElem_zipIdx, hget,
    Nat.zero_add]
  rfl

variable [DecidableEq ι]

/-- A producer that goes on writing the same position, or writes none, changes no entry. -/
theorem entries_update (t : History ι)
    (h : ∀ q, p.finished q = (producers i).finished q) :
    entries t (Function.update producers i p) = entries t producers := by
  refine List.map_congr_left fun x _ => ?_
  by_cases hx : x.1.1 = i
  · rw [entry, entry, hx, Function.update_self, h]
  · rw [entry, entry, Function.update_of_ne hx]

/-- A cell is published: its entry is ready. -/
theorem finish_entries (t : History ι) (producers : ι → Log) (i : ι) :
    SharedQueue.finish i (entries t producers) =
      entries t (Function.update producers i .idle) := by
  rw [SharedQueue.finish, entries, entries, List.map_map]
  refine List.map_congr_left fun x _ => ?_
  by_cases hx : x.1.1 = i
  · simp only [Function.comp_apply, entry, hx, if_true, Function.update_self]
    rfl
  · simp only [Function.comp_apply, entry, hx, if_false, Function.update_of_ne hx]

/-- An exchange puts its position behind the others. -/
theorem Inv.entries_claim (h : Inv z t s) (hi : ∀ q, (s.producers i).finished q = true)
    (hpos : pos.toNat = t.claims.length) (todo : List Field) :
    entries (t.note (.claim i c)) (Function.update s.producers i (.assign c pos todo)) =
      entries t s.producers ++ [⟨i, c, false⟩] := by
  have hle : t.freed ≤ t.claims.zipIdx.length := by
    rw [List.length_zipIdx]
    exact h.freed_le.trans h.advanced_le
  simp only [entries, History.note, List.zipIdx_append, List.zipIdx_singleton, Nat.zero_add,
    List.drop_append_of_le_length hle, List.map_append, List.map_singleton]
  congr 1
  · refine List.map_congr_left fun x hx => ?_
    have hlt := List.snd_lt_of_mem_zipIdx (List.mem_of_mem_drop hx)
    by_cases hxi : x.1.1 = i
    · have hfinished : (Log.assign c pos todo).finished x.2 = true :=
        decide_eq_true (by omega)
      rw [entry, entry, hxi, Function.update_self, hi, hfinished]
    · rw [entry, entry, Function.update_of_ne hxi]
  · simp only [entry, Function.update_self, Log.finished, hpos, ne_eq, not_true_eq_false,
      decide_false]

/-- The queue does not see which cell a producer is busy with. -/
theorem queue_update (t : History ι) (s : State ι) {m : Shared}
    (hlevel : m.min_level_ = s.shared.min_level_)
    (h : ∀ q, p.finished q = (s.producers i).finished q) :
    (s.queue t).move i p.phase =
      State.queue t { s with shared := m, producers := Function.update s.producers i p } := by
  simp only [SharedQueue.State.move, State.queue, entries_update t h, hlevel,
    Function.apply_update fun _ p => Log.phase p]

theorem Inv.queue_claim (h : Inv z t s) (hi : ∀ q, (s.producers i).finished q = true)
    (hpos : pos.toNat = t.claims.length) {m : Shared}
    (hlevel : m.min_level_ = s.shared.min_level_) (todo : List Field) :
    { (s.queue t).move i (.writing c) with queue := (s.queue t).queue ++ [⟨i, c, false⟩] } =
      State.queue (t.note (.claim i c)) { s with
        shared := m, producers := Function.update s.producers i (.assign c pos todo) } := by
  simp only [State.queue, SharedQueue.State.move, h.entries_claim hi hpos, hlevel,
    Function.apply_update fun _ p => Log.phase p]
  rfl

theorem queue_publish (t : History ι) (s : State ι) (i : ι) (c : Call) {m : Shared}
    (hlevel : m.min_level_ = s.shared.min_level_) :
    { (s.queue t).move i .idle with queue := SharedQueue.finish i (s.queue t).queue } =
      State.queue (t.note (.publish i c))
        { s with shared := m, producers := Function.update s.producers i .idle } := by
  simp only [State.queue, SharedQueue.State.move, finish_entries, hlevel,
    Function.apply_update fun _ p => Log.phase p]
  rfl

/-! ### Every step is one of the queue, or hidden -/

omit [DecidableEq ι] in
theorem finished_of_not_writing {q : ℕ} (h : ¬ Writing producers q) (i : ι) :
    (producers i).finished q = true := by
  cases hi : producers i with
  | assign c pos todo => exact decide_eq_true fun hpos => h ⟨i, c, pos, todo, hi, hpos⟩
  | _ => rfl

omit [DecidableEq ι] in
/-- The drain thread reads a record of the first entry, which is ready. -/
theorem Inv.first_ready (h : Inv z t s) {v : View} (hd : s.drain = .read pos v) :
    ∃ i c, (s.queue t).queue = ⟨i, c, true⟩ :: entries (t.note .free) s.producers ∧
      v.Sees c ∧ ∀ f, (s.shared.cells_ (z.slot pos)).Holds c f := by
  have hok := h.drain_ok
  have hfreed := h.freed_eq
  simp only [hd, Drain.Ok, Drain.unfreed, Nat.add_zero] at hok hfreed
  obtain ⟨hpos, hnw, i, c, hc, hv⟩ := hok
  rw [← hfreed] at hpos hnw hc
  obtain ⟨-, hholds⟩ := h.published _ i c le_rfl hc hnw
  rw [Shared.cell, ← hpos, ← z.slot_eq] at hholds
  refine ⟨i, c, ?_, hv, hholds (by omega)⟩
  rw [State.queue, entries_eq_cons hc, finished_of_not_writing hnw]

theorem Inv.answer_log {spurious : Bool} {m : Shared} (h : Inv z t s) (h2 : 2 ≤ z.card)
    (hb : CountersBelow z t) (hs : (s.producers i).step z i s.shared spurious = some (m, p, e)) :
    SharedQueue.Answer z.card (s.queue t)
      (State.queue (t.note e) { s with shared := m, producers := Function.update s.producers i p })
      e.view := by
  have hok := h.log_ok i
  generalize hi : s.producers i = p₀ at hs hok
  have hphase : (s.queue t).phase i = p₀.phase := congrArg Log.phase hi
  have hqueue {p : Log} {m : Shared} (hfin : ∀ q, p.finished q = p₀.finished q)
      (hlevel : m.min_level_ = s.shared.min_level_) : (s.queue t).move i p.phase =
        State.queue t { s with shared := m, producers := Function.update s.producers i p } :=
    queue_update t s hlevel fun q => (hfin q).trans (by rw [hi])
  have hsame {p : Log} {m : Shared} (hfin : ∀ q, p.finished q = p₀.finished q)
      (hlevel : m.min_level_ = s.shared.min_level_) (hp : p.phase = p₀.phase) :
      State.queue t { s with shared := m, producers := Function.update s.producers i p } =
        s.queue t :=
    (hqueue hfin hlevel).symm.trans (SharedQueue.State.move_self (hphase.trans hp.symm))
  cases LogMove.of_step hs with
  | suppress hlt =>
    exact .of_move (.suppress hphase hlt) (hqueue (p := .idle) (fun _ => rfl) rfl) rfl
  | pass hge =>
    exact .of_move (.pass hphase hge) (hqueue (p := .loadPos _) (fun _ => rfl) rfl) rfl
  | full hne hneg =>
    obtain ⟨-, hfull⟩ := (h.behind_iff h2 hok).mp ((h.diff_neg_iff hb hok).mp hneg)
    refine .of_move (.refuse hphase ?_) (hqueue (p := .bumpDropped _) (fun _ => rfl) rfl) rfl
    rw [State.queue, length_entries]
    omega
  | @claim c pos hpos =>
    have hn : pos.toNat = t.claims.length := by rw [← hpos, h.enqueue_eq]
    have hroom := hok.2 hn
    refine .of_move (.reserve hphase ?_) ?_ rfl
    · rw [State.queue, length_entries]
      have := h.freed_le.trans h.advanced_le
      omega
    · exact h.queue_claim (fun q => by rw [hi]; rfl) hn rfl assignments
  | bumpDropped => exact .of_move (.drop hphase) (hqueue (p := .idle) (fun _ => rfl) rfl) rfl
  | publish => exact .of_move (.publish hphase) (queue_publish t s i _ rfl) rfl
  | _ => exact .hidden (hsame (fun _ => rfl) rfl rfl) rfl

theorem Inv.answer_drain {m : Shared} {d : Drain} {f : Field} (h : Inv z t s)
    (hs : s.drain.step z s.shared f = some (m, d, e)) :
    SharedQueue.Answer z.card (s.queue t)
      (State.queue (t.note e) { s with shared := m, drain := d }) e.view := by
  have hok := h.drain_ok
  have hfreed := h.freed_eq
  have hadvanced := h.advanced_le
  have hfirst {q : UInt64} {v : View} (hd : s.drain = .read q v) := h.first_ready hd
  obtain ⟨m₀, producers, d₀, flush, destructor⟩ := s
  cases DrainMove.of_step hs with
  | forward hx =>
    obtain ⟨i, c, hq, hv, hholds⟩ := hfirst rfl
    obtain rfl := hv.forward_eq hholds hx
    exact .of_move (.forward hq rfl rfl) rfl rfl
  | free =>
    refine .of_move (.release rfl) ?_ rfl
    have hlt : t.freed < t.claims.length := by
      simp only [Drain.unfreed] at hfreed
      omega
    simp only [State.queue, entries_eq_cons (List.getElem?_eq_getElem hlt), List.tail_cons]
    rfl
  | _ => exact .hidden rfl rfl

theorem Inv.answer (h : Inv z t s) (h2 : 2 ≤ z.card) (hb : CountersBelow z t)
    (hs : (machine z).Step s e s') :
    SharedQueue.Answer z.card (s.queue t) (s'.queue (t.note e)) e.view := by
  cases Move.of_step hs with
  | call i c hi =>
    have hphase : (s.queue t).phase i = .idle := congrArg Log.phase hi
    exact .of_move (.call hphase)
      (queue_update (p := .loadLevel c) t s rfl fun q => by rw [hi]; rfl) rfl
  | log i spurious hp => exact h.answer_log h2 hb hp
  | drain f hp => exact h.answer_drain hp
  | setLevel level => exact .of_move .setLevel rfl rfl
  | _ => exact .hidden rfl rfl

/-! ### Every step of the queue can be made -/

/-- The producer is not in the middle of a step of the queue. -/
def Log.Pausing : Log → Prop
  | .idle | .loadLevel _ | .loadPos _ | .bumpDropped _ => True
  | .loadSeq _ _ | .exchange _ _ | .reload _ _ => False
  | .assign _ _ todo => todo = assignments

/-- Where it is then. -/
theorem Log.Pausing.eq {q : Phase} (h : p.Pausing) (hq : p.phase = q) : match q with
    | .idle => p = .idle
    | .entered c => p = .loadLevel c
    | .admitted c => p = .loadPos c
    | .refused c => p = .bumpDropped c
    | .writing c => ∃ pos, p = .assign c pos assignments := by
  subst hq
  cases p with
  | loadSeq c pos | exchange c pos | reload c pos => exact h.elim
  | assign c pos todo =>
    obtain rfl : todo = assignments := h
    exact ⟨pos, rfl⟩
  | _ => rfl

/-- Neither is the drain thread. -/
def Drain.Pausing : Drain → Prop
  | .loadPos | .advance _ => True
  | _ => False

theorem Drain.Pausing.loadPos {d : Drain} (h : d.Pausing) (hbusy : d.busy = false) :
    d = .loadPos := by
  cases d with
  | loadPos => rfl
  | advance pos => cases hbusy
  | _ => exact h.elim

theorem Drain.Pausing.advance {d : Drain} (h : d.Pausing) (hbusy : d.busy = true) :
    ∃ pos, d = .advance pos := by
  cases d with
  | loadPos => cases hbusy
  | advance pos => exact ⟨pos, rfl⟩
  | _ => exact h.elim

/-- No thread is in the middle of a step of the queue, and the drain thread is in its loop. -/
structure Pausing (s : State ι) : Prop where
  log : ∀ i, (s.producers i).Pausing
  drain : s.drain.Pausing
  running : s.shared.running_ = true

theorem Pausing.update (h : Pausing s) (hp : p.Pausing) {m : Shared} (hm : m.running_ = true) :
    Pausing { s with shared := m, producers := Function.update s.producers i p } where
  log j := by
    by_cases hji : j = i
    · subst hji
      simpa only [Function.update_self] using hp
    · simpa only [Function.update_of_ne hji] using h.log j
  drain := h.drain
  running := hm

omit [DecidableEq ι] in
theorem LogMove.step {m m' : Shared} {p p' : Log} (h : LogMove z i m p m' p' e) :
    ∃ spurious, p.step z i m spurious = some (m', p', e) := by
  cases h with
  | suppress h => exact ⟨false, if_pos h⟩
  | pass h => exact ⟨false, if_neg h⟩
  | vacant h => exact ⟨false, if_pos (signedDiff_eq_zero_iff.mpr h)⟩
  | full hne h => exact ⟨false, (if_neg (mt signedDiff_eq_zero_iff.mp hne)).trans (if_pos h)⟩
  | ahead hne h => exact ⟨false, (if_neg (mt signedDiff_eq_zero_iff.mp hne)).trans (if_neg h)⟩
  | lost h => exact ⟨false, if_pos h⟩
  | spurious h => exact ⟨true, (if_neg (not_not.mpr h)).trans (if_pos rfl)⟩
  | claim h => exact ⟨false, (if_neg (not_not.mpr h)).trans (if_neg Bool.false_ne_true)⟩
  | _ => exact ⟨false, rfl⟩

/-- A step of producer `i`, from the program point `p`. -/
theorem step_of_log {m : Shared} {p p' : Log} (h : LogMove z i s.shared p m p' e) :
    (machine z).Step { s with producers := Function.update s.producers i p } e
      { s with shared := m, producers := Function.update s.producers i p' } := by
  obtain ⟨spurious, hs⟩ := h.step
  exact step_log spurious hs

theorem state_at (hi : s.producers i = p) :
    { s with producers := Function.update s.producers i p } = s := by
  rw [← hi, Function.update_eq_self]

/-- A call finds room, and claims its position. -/
theorem Inv.claim_path (h : Inv z t s) (hi : s.producers i = .loadPos c)
    (hroom : t.claims.length < t.freed + z.card) :
    (machine z).Path s [.log i, .log i, .claim i c]
      { s with
        shared := { s.shared with enqueue_pos_ := s.shared.enqueue_pos_ + 1 }
        producers := Function.update s.producers i
          (.assign c s.shared.enqueue_pos_ assignments) } := by
  have hseq :
      (s.shared.cells_ (z.slot s.shared.enqueue_pos_)).sequence = s.shared.enqueue_pos_ := by
    have hvacant := h.unclaimed _ le_rfl hroom
    rw [← h.enqueue_eq, Shared.cell, ← z.slot_eq] at hvacant
    exact UInt64.toNat_inj.mp hvacant
  have hpath : (machine z).Path { s with producers := Function.update s.producers i (.loadPos c) }
      [.log i, .log i, .claim i c] _ :=
    .cons (step_of_log .loadPos) (.cons (step_of_log (.vacant hseq))
      (Machine.Step.path (step_of_log (.claim rfl))))
  rwa [state_at hi] at hpath

/-- A call finds the ring full. -/
theorem Inv.full_path (h : Inv z t s) (h2 : 2 ≤ z.card) (hb : CountersBelow z t)
    (hi : s.producers i = .loadPos c) (hfull : t.claims.length = t.freed + z.card) :
    (machine z).Path s [.log i, .log i]
      { s with producers := Function.update s.producers i (.bumpDropped c) } := by
  have hle : s.shared.enqueue_pos_.toNat ≤ t.claims.length := h.enqueue_eq.le
  have hbehind := (h.behind_iff h2 hle).mpr ⟨h.enqueue_eq, hfull⟩
  have hneg := (h.diff_neg_iff hb hle).mpr hbehind
  have hne : (s.shared.cells_ (z.slot s.shared.enqueue_pos_)).sequence ≠
      s.shared.enqueue_pos_ := by
    intro heq
    rw [Shared.cell, ← z.slot_eq, heq] at hbehind
    exact hbehind.false
  have hpath : (machine z).Path { s with producers := Function.update s.producers i (.loadPos c) }
      [.log i, .log i] _ :=
    .cons (step_of_log .loadPos) (Machine.Step.path (step_of_log (.full hne hneg)))
  rwa [state_at hi] at hpath

/-- The drain thread finds a record, and hands it on. -/
theorem forward_path (hd : s.drain = .loadPos)
    (hseq : (s.shared.cells_ (z.slot s.shared.dequeue_pos_)).sequence = s.shared.dequeue_pos_ + 1)
    (hholds : ∀ f, (s.shared.cells_ (z.slot s.shared.dequeue_pos_)).Holds c f) :
    (machine z).Path s (List.replicate 5 .drain ++ [.forward c.sinkRecord])
      { s with drain := .advance s.shared.dequeue_pos_ } := by
  rw [← Record.sinkRecord_eq hholds]
  exact .cons (step_drain .time hd rfl) <|
    .cons (step_drain .time rfl (if_pos (signedDiff_eq_zero_iff.mpr hseq))) <|
    .cons (step_drain .time rfl rfl) <|
    .cons (step_drain .level rfl rfl) <|
    .cons (step_drain .len rfl rfl) <|
    (step_drain .msg rfl rfl).path

omit [DecidableEq ι] in
/-- The first entry, if it is ready, is a published position. -/
theorem Inv.first_published (h : Inv z t s) (hd : s.drain = .loadPos) {x : SharedQueue.Entry ι}
    {rest : List (SharedQueue.Entry ι)} (hq : (s.queue t).queue = x :: rest)
    (hready : x.ready = true) (hb : CountersBelow z t) :
    (s.shared.cells_ (z.slot s.shared.dequeue_pos_)).sequence = s.shared.dequeue_pos_ + 1 ∧
      ∀ f, (s.shared.cells_ (z.slot s.shared.dequeue_pos_)).Holds x.call f := by
  have hfreed := h.freed_eq
  have hlen : (s.queue t).queue.length = t.claims.length - t.freed := length_entries t s.producers
  simp only [hd, Drain.unfreed, Nat.add_zero] at hfreed
  rw [hq, List.length_cons] at hlen
  have hlt : t.freed < t.claims.length := by omega
  obtain ⟨⟨i, c⟩, hget⟩ : ∃ y, t.claims[t.freed]? = some y := ⟨_, List.getElem?_eq_getElem hlt⟩
  obtain ⟨rfl, -⟩ := List.cons.inj ((entries_eq_cons hget s.producers).symm.trans hq)
  have hnw : ¬ Writing s.producers t.freed := by
    rintro ⟨j, c', pos, todo, hj, hpos⟩
    obtain ⟨-, howner, -⟩ := h.owner hj
    rw [hpos, hget] at howner
    cases howner
    replace hready : (s.producers i).finished t.freed = true := hready
    rw [hj] at hready
    exact of_decide_eq_true hready hpos
  obtain ⟨hseq, hholds⟩ := h.published _ _ _ le_rfl hget hnw
  rw [Shared.cell, hfreed, ← h.dequeue_eq, ← z.slot_eq] at hseq hholds
  refine ⟨?_, hholds le_rfl⟩
  have hclaims := Inv.claims_lt hb
  rw [← UInt64.toNat_inj, hseq, toNat_add_one (by rw [h.dequeue_eq]; omega)]

/-- The logger can follow the queue to `a'`, showing just `o`. -/
def CanFollow (z : Pow2Size) (t : History ι) (s : State ι) (o : Option (Sight ι))
    (a' : SharedQueue.State ι) : Prop :=
  (machine z).CanShow Event.view s o fun tr₁ s₁ =>
    a' = s₁.queue (tr₁.foldl History.note t) ∧ Pausing s₁

/-- One step is enough. -/
theorem CanFollow.of_step {a' : SharedQueue.State ι} (hs : (machine z).Step s e s')
    (ha : a' = s'.queue (t.note e)) (hp : Pausing s') : CanFollow z t s e.view a' :=
  Machine.CanShow.of_step hs ⟨ha, hp⟩

/-- A step of producer `i` that concerns no entry. -/
theorem CanFollow.of_log {p' : Log} {m : Shared} (hp : Pausing s) (hi : s.producers i = p)
    (hs : LogMove z i s.shared p m p' e) (hlevel : m.min_level_ = s.shared.min_level_)
    (hfin : ∀ q, p'.finished q = p.finished q)
    (hnote : ∀ s : State ι, s.queue (t.note e) = s.queue t) (hp' : p'.Pausing)
    (hm : m.running_ = true) : CanFollow z t s e.view ((s.queue t).move i p'.phase) := by
  have hmove := step_of_log hs
  rw [state_at hi] at hmove
  refine .of_step hmove ?_ (hp.update hp' hm)
  rw [hnote, queue_update t s hlevel fun q => (hfin q).trans (by rw [hi])]

/-- A call claims its place. -/
theorem Inv.follow_reserve (h : Inv z t s) (hp : Pausing s) (hi : s.producers i = .loadPos c)
    (hroom : (s.queue t).queue.length < z.card) :
    CanFollow z t s none
      { (s.queue t).move i (.writing c) with queue := (s.queue t).queue ++ [⟨i, c, false⟩] } := by
  have hlen : (s.queue t).queue.length = t.claims.length - t.freed := length_entries t s.producers
  have hle := h.freed_le.trans h.advanced_le
  exact ⟨_, _, h.claim_path hi (by omega), rfl,
    h.queue_claim (fun q => by rw [hi]; rfl) h.enqueue_eq rfl assignments,
    hp.update (p := .assign c _ assignments) rfl hp.running⟩

/-- A call is refused. -/
theorem Inv.follow_refuse (h : Inv z t s) (h2 : 2 ≤ z.card) (hb : CountersBelow z t)
    (hp : Pausing s) (hi : s.producers i = .loadPos c)
    (hfull : ¬ (s.queue t).queue.length < z.card) :
    CanFollow z t s none ((s.queue t).move i (.refused c)) := by
  have hlen : (s.queue t).queue.length = t.claims.length - t.freed := length_entries t s.producers
  have hle := h.freed_le.trans h.advanced_le
  have hub := h.claims_le
  exact ⟨_, _, h.full_path h2 hb hi (by omega), rfl,
    queue_update (p := .bumpDropped c) t s rfl fun q => by rw [hi]; rfl,
    hp.update (p := .bumpDropped c) trivial hp.running⟩

/-- A call writes its record, and publishes it. -/
theorem follow_publish (hp : Pausing s) (hi : s.producers i = .assign c pos assignments) :
    CanFollow z t s (some (.publish i c))
      { (s.queue t).move i .idle with queue := SharedQueue.finish i (s.queue t).queue } := by
  have hpath := fill_path (z := z) s i c pos assignments
  rw [state_at hi] at hpath
  exact ⟨_, _, hpath, rfl, queue_publish t s i c rfl,
    hp.update (p := .idle) trivial hp.running⟩

/-- The drain thread hands on the first record. -/
theorem Inv.follow_forward (h : Inv z t s) (hb : CountersBelow z t) (hp : Pausing s)
    {x : SharedQueue.Entry ι} {rest : List (SharedQueue.Entry ι)}
    (hq : (s.queue t).queue = x :: rest) (hready : x.ready = true)
    (hbusy : (s.queue t).busy = false) :
    CanFollow z t s (some (.forward x.call.sinkRecord)) { s.queue t with busy := true } := by
  have hd := hp.drain.loadPos hbusy
  obtain ⟨hseq, hholds⟩ := h.first_published hd hq hready hb
  exact ⟨_, _, forward_path hd hseq hholds, rfl, rfl, hp.log, trivial, hp.running⟩

/-- The drain thread frees its cell. -/
theorem Inv.follow_release (h : Inv z t s) (hp : Pausing s) (hbusy : (s.queue t).busy = true) :
    CanFollow z t s none { s.queue t with queue := (s.queue t).queue.tail, busy := false } := by
  have hok := h.drain_ok
  have hfreed := h.freed_eq
  obtain ⟨pos, hd⟩ := hp.drain.advance hbusy
  simp only [hd, Drain.Ok, Drain.unfreed, Nat.add_zero] at hok hfreed
  have hpath : (machine z).Path s [.advance, .free] _ :=
    .cons (step_drain .time hd rfl) (step_drain (d := .free pos) .time rfl rfl).path
  refine ⟨_, _, hpath, rfl, ?_, hp.log, trivial, hp.running⟩
  have hlt : t.freed < t.claims.length := by omega
  simp only [State.queue, entries_eq_cons (List.getElem?_eq_getElem hlt), List.tail_cons]
  rfl

/-- **The logger can follow the queue**, one step at a time. -/
theorem Inv.follow {a' : SharedQueue.State ι} {e : SharedQueue.Event ι} (h : Inv z t s)
    (h2 : 2 ≤ z.card) (hb : CountersBelow z t) (hp : Pausing s)
    (hm : SharedQueue.Move z.card (s.queue t) e a') : CanFollow z t s e.view a' := by
  cases hm with
  | @call i c hi =>
    have hidle : s.producers i = .idle := (hp.log i).eq hi
    have hcall : (machine z).Step s (.call i c)
        { s with producers := Function.update s.producers i (.loadLevel c) } :=
      ⟨.call i c, by simp only [machine, MpscRtLogger.step, hidle]⟩
    refine .of_step hcall ?_ (hp.update (p := .loadLevel c) trivial hp.running)
    exact queue_update (p := .loadLevel c) t s rfl fun q => by rw [hidle]; rfl
  | @suppress i c hi hlt =>
    exact .of_log hp ((hp.log i).eq hi) (.suppress hlt) rfl (fun _ => rfl) (fun _ => rfl) trivial
      hp.running
  | @pass i c hi hge =>
    exact .of_log hp ((hp.log i).eq hi) (.pass hge) rfl (fun _ => rfl) (fun _ => rfl) trivial
      hp.running
  | @reserve i c hi hroom => exact h.follow_reserve hp ((hp.log i).eq hi) hroom
  | @refuse i c hi hfull => exact h.follow_refuse h2 hb hp ((hp.log i).eq hi) hfull
  | @drop i c hi =>
    exact .of_log hp ((hp.log i).eq hi) .bumpDropped rfl (fun _ => rfl) (fun _ => rfl) trivial
      hp.running
  | @publish i c hi =>
    obtain ⟨pos, hwriting⟩ := (hp.log i).eq hi
    exact follow_publish hp hwriting
  | forward hq hready hbusy => exact h.follow_forward hb hp hq hready hbusy
  | release hbusy => exact h.follow_release hp hbusy
  | @setLevel level =>
    exact .of_step (e := .setLevel level) ⟨.setLevel level, rfl⟩ rfl ⟨hp.log, hp.drain, hp.running⟩

/-! ### Calls bound the counters -/

omit [DecidableEq ι] in
/-- The calls of a run are those that are seen. -/
theorem length_calls (tr : List (Event ι)) :
    (history tr).calls.length = Sight.calls (tr.filterMap Event.view) := by
  induction tr using List.reverseRecOn with
  | nil => rfl
  | append_singleton tr e ih =>
    rw [history_snoc, List.filterMap_append, Machine.filterMap_singleton, Sight.calls,
      List.countP_append]
    cases e with
    | call i c =>
      rw [History.note, List.length_append, ih]
      rfl
    | _ => exact ih

/-- Every claim is that of a call. -/
theorem length_claims_le (h : (machine z).Run tr s) :
    (history tr).claims.length ≤ (history tr).calls.length := by
  have hl := Ledger.of_run h
  refine (List.subperm_ext_iff.mpr fun x _ => ?_).length_le
  obtain ⟨i, c⟩ := x
  rw [← count_callsOf, ← count_callsOf]
  exact (hl.claims_sublist i).count_le c

/-- So a bound on the calls is one on the counters. -/
theorem CountersBelow.of_calls (h : (machine z).Run tr s)
    (hb : Sight.calls (tr.filterMap Event.view) + z.card ≤ 2 ^ 63) :
    CountersBelow z (history tr) := by
  rw [← length_calls] at hb
  exact (Nat.add_le_add_right (length_claims_le h) _).trans hb

/-! ### The results -/

variable {raw : ℕ → Vector UInt8 kMaxMsgLen} {level : LogLevel} {os : List (Sight ι)}

theorem shows_queue (h2 : 2 ≤ z.card) (hb : Sight.calls os + z.card ≤ 2 ^ 63)
    (h : (machine z).Shows Event.view (initial raw level) os) :
    (SharedQueue.machine z.card).Shows SharedQueue.Event.view (SharedQueue.initial level) os := by
  obtain ⟨tr, s, hp, rfl⟩ := h
  obtain ⟨tr', a, ha, hview, -⟩ := hp.simulated (A := SharedQueue.machine z.card)
    (w := SharedQueue.Event.view) (P := fun tr => CountersBelow z (history tr))
    (R := fun tr s _ a => a = s.queue (history tr)) (a := SharedQueue.initial level)
    (.of_calls ⟨_, ⟨raw, level, rfl⟩, hp⟩ hb) CountersBelow.of_append rfl
    fun {tr s e s' tr' a} hp _ hb ha hs => by
      subst ha
      have hi := Inv.of_run ⟨_, ⟨raw, level, rfl⟩, hp⟩ h2 hb.of_append
      obtain ⟨tr₁, hpath, hview⟩ := (hi.answer h2 hb.of_append hs).path
      exact ⟨tr₁, _, hpath, hview, by rw [history_snoc]⟩
  exact ⟨tr', a, ha, hview⟩

theorem queue_shows (h2 : 2 ≤ z.card) (hb : Sight.calls os + z.card ≤ 2 ^ 63)
    (h : (SharedQueue.machine z.card).Shows SharedQueue.Event.view (SharedQueue.initial level) os) :
    (machine z).Shows Event.view (initial raw level) os := by
  obtain ⟨tr, a, hp, rfl⟩ := h
  obtain ⟨tr', s, hs, hview, -⟩ := hp.simulated (A := machine z) (w := Event.view)
    (P := fun tr => Sight.calls (tr.filterMap SharedQueue.Event.view) + z.card ≤ 2 ^ 63)
    (R := fun tr' a tr s => a = s.queue (history tr) ∧ Pausing s ∧
      tr.filterMap Event.view = tr'.filterMap SharedQueue.Event.view)
    (a := initial raw level) hb
    (fun {tr e} hb => by
      rw [List.filterMap_append, Sight.calls_append] at hb
      omega)
    ⟨rfl, ⟨fun _ => trivial, trivial, rfl⟩, rfl⟩
    fun {tr' a e a' tr s} _ hp hb ha hs => by
      obtain ⟨rfl, hpausing, hviews⟩ := ha
      have hrun : (machine z).Run tr s := ⟨_, ⟨raw, level, rfl⟩, hp⟩
      have hbelow : CountersBelow z (history tr) := by
        refine .of_calls hrun ?_
        rw [List.filterMap_append, Sight.calls_append] at hb
        rw [hviews]
        omega
      have hi := Inv.of_run hrun h2 hbelow
      obtain ⟨tr₁, s₁, hpath, hview, ha', hpausing₁⟩ := hi.follow h2 hbelow hpausing (.of_step hs)
      refine ⟨tr₁, s₁, hpath, hview, ?_, hpausing₁, ?_⟩
      · rw [ha', history, history, List.foldl_append]
      · rw [List.filterMap_append, List.filterMap_append, hviews, hview,
          Machine.filterMap_singleton]
  exact ⟨tr', s, hs, hview⟩

/-- **`MpscRtLogger` is the shared queue of many producers.** Whatever the order in which the
threads take their steps, what can be seen of a new logger of at least two cells can be seen of a
new queue of `capacity_` entries, and what can be seen of the queue can be seen of the logger, as
long as the counters do not reach `2 ^ 63`. -/
theorem shows_queue_iff (h2 : 2 ≤ z.card) (raw : ℕ → Vector UInt8 kMaxMsgLen) (level : LogLevel)
    (os : List (Sight ι)) (hb : Sight.calls os + z.card ≤ 2 ^ 63) :
    (machine z).Shows Event.view (initial raw level) os ↔
      (SharedQueue.machine z.card).Shows SharedQueue.Event.view (SharedQueue.initial level) os :=
  ⟨shows_queue h2 hb, queue_shows h2 hb⟩

theorem shows_queue_iff_overlapped :
    (SharedQueue.machine 2).Shows SharedQueue.Event.view (SharedQueue.initial .kInfo)
      overlappedSeen :=
  (shows_queue_iff (z := twoCells) (by decide) (fun _ => Vector.replicate _ 0) .kInfo
    overlappedSeen (by decide)).mp
    ⟨_, _, .of_exec_get overlapped_isSome, overlapped_seen⟩

end MpscRtLogger

end XmSigma
