import XmSigma.Lib.Serial
import XmSigma.Logging.LogQueue
import XmSigma.Logging.MpscShutdown
import XmSigma.Logging.MpscSolo

/-!
# `MpscRtLogger`, one operation at a time

The same as for `RtLogger`, for the logger that decides between full and empty by the sequence of
one cell: as long as the operations of one producer and the drain thread do not overlap, the
sequences of all cells follow from the two positions, lap after lap.

The first test of a call finds its cell free or a full lap behind, so the claim loop goes round
again only where the exchange fails without a reason.

## Main definitions

* `Sequences`: the sequences of all cells, seen from the drain thread's position

## Main results

* `Simulates.turn`: every operation can be executed, and does what it does to the bounded queue
* `shows_iff`: a new logger shows what the bounded queue shows
-/

namespace XmSigma

namespace MpscRtLogger

variable {ι : Type*} {z : Pow2Size} {s s' : State ι} {m m' : Shared}
  {q : LogQueue} {i : ι} {c : Call} {tr : List (Event ι)} {e : Event ι} {k n : ℕ}

/-! ### Operations of the machine -/

/-- What an observer is told. -/
def Event.report : Event ι → Option Report
  | .publish _ c => some (.accept c)
  | .suppress _ c => some (.suppress c)
  | .drop _ c => some (.drop c)
  | .forward r => some (.forward r)
  | _ => none

/-- The choices that belong to an operation of producer `i` or of the drain thread. The exchange
may fail for no reason, and the arguments of `sink_logger_->log` may be evaluated in any order. -/
def choices (i : ι) : Op → Action ι → Prop
  | .log c, a => a = .call i c ∨ ∃ spurious, a = .log i spurious
  | .setLevel level, a => a = .setLevel level
  | .drain, a => ∃ f, a = .drain f

/-- When an operation is over. -/
def done (i : ι) : Op → State ι → Prop
  | .log _, s => s.producers i = .idle
  | .setLevel _, _ => True
  | .drain, s => s.drain = .loadPos

/-- What can be seen of an operation: the reports and the count of drops. -/
def see (tr : List (Event ι)) (s : State ι) : Seen :=
  ⟨tr.filterMap Event.report, s.shared.dropped_⟩

/-! ### What is left of a call -/

/-- The sequence of the cell that the next call looks at. -/
def Shared.nextSequence (z : Pow2Size) (m : Shared) : UInt64 :=
  (m.cells_ (z.slot m.enqueue_pos_)).sequence

/-- The cell that the next call looks at is free, or a lap behind. -/
def Shared.Ready (z : Pow2Size) (m : Shared) : Prop :=
  m.nextSequence z = m.enqueue_pos_ ∨ signedDiff (m.nextSequence z) m.enqueue_pos_ < 0

/-- The call is counted as dropped. -/
def Shared.bump (m : Shared) : Shared := { m with dropped_ := m.dropped_ + 1 }

/-- A call that passed the level test. -/
def Shared.offer (z : Pow2Size) (c : Call) (m : Shared) : List Report × Shared :=
  if m.nextSequence z = m.enqueue_pos_ then ([.accept c], m.accept z c) else ([.drop c], m.bump)

/-- What a call still reports, and the shared members when it returns. -/
def Log.ahead (z : Pow2Size) (m : Shared) : Log → List Report × Shared
  | .idle => ([], m)
  | .loadLevel c => if c.level < m.min_level_ then ([.suppress c], m) else m.offer z c
  | .loadPos c | .loadSeq c _ | .reload c _ => m.offer z c
  | .exchange c _ => ([.accept c], m.accept z c)
  | .bumpDropped c => ([.drop c], m.bump)
  | .assign c pos todo =>
    ([.accept c],
      { m with
        cells_ := Function.update m.cells_ (z.slot pos)
          ((m.cells_ (z.slot pos)).publish c pos todo) })

/-- What a producer knows that nobody interrupts. -/
def Log.Alone (z : Pow2Size) (m : Shared) : Log → Prop
  | .loadLevel _ | .loadPos _ => m.Ready z
  | .loadSeq _ pos => pos = m.enqueue_pos_ ∧ m.Ready z
  | .exchange _ pos => pos = m.enqueue_pos_ ∧ m.nextSequence z = pos
  | .reload .. => False
  | .idle | .bumpDropped _ | .assign .. => True

theorem Log.step_ahead {p p' : Log} {spurious : Bool} (halone : p.Alone z m)
    (h : p.step z i m spurious = some (m', p', e)) :
    p'.Alone z m' ∧
      p.ahead z m = (e.report.toList ++ (p'.ahead z m').1, (p'.ahead z m').2) := by
  cases LogMove.of_step h with
  | suppress hlt => exact ⟨trivial, if_pos hlt⟩
  | pass hge => exact ⟨halone, if_neg hge⟩
  | loadPos => exact ⟨⟨rfl, halone⟩, rfl⟩
  | vacant hfree =>
    obtain ⟨rfl, -⟩ := halone
    exact ⟨⟨rfl, hfree⟩, if_pos hfree⟩
  | full hne _ =>
    obtain ⟨rfl, -⟩ := halone
    exact ⟨trivial, if_neg hne⟩
  | ahead hne hpos =>
    obtain ⟨rfl, hready⟩ := halone
    exact absurd (hready.resolve_left hne) hpos
  | lost hne => exact absurd halone.1.symm hne
  | spurious _ =>
    -- the exchange failed although the values are equal: the next round will find the same
    obtain ⟨rfl, hfree⟩ := halone
    exact ⟨⟨rfl, .inl hfree⟩, (if_pos hfree).symm⟩
  | claim _ =>
    obtain ⟨rfl, -⟩ := halone
    exact ⟨trivial, rfl⟩
  | reload => exact halone.elim
  | assign =>
    refine ⟨trivial, ?_⟩
    simp [ahead, Cell.publish, Event.report]
  | _ => exact ⟨trivial, rfl⟩

/-! ### What is left of an iteration -/

/-- The cell is freed for the next lap. -/
def Shared.free (z : Pow2Size) (pos : UInt64) (m : Shared) : Shared :=
  { m with
    cells_ := Function.update m.cells_ (z.slot pos)
      { m.cells_ (z.slot pos) with sequence := pos + z.mask + 1 } }

/-- The position is stored and the cell is freed. -/
def Shared.pass (z : Pow2Size) (pos : UInt64) (m : Shared) : Shared :=
  Shared.free z pos { m with dequeue_pos_ := pos + 1 }

/-- What an iteration of the drain loop still reports, and the shared members at its end. -/
def Drain.ahead (z : Pow2Size) (m : Shared) : Drain → List Report × Shared
  | .loadSeq pos =>
    if (m.cells_ (z.slot pos)).sequence = pos + 1 then
      ([.forward (m.cells_ (z.slot pos)).sinkRecord], m.pass z pos)
    else ([], m)
  | .read pos v => ([.forward (v.complete (m.cells_ (z.slot pos)).toRecord)], m.pass z pos)
  | .advance pos => ([], m.pass z pos)
  | .free pos => ([], m.free z pos)
  | .loadPos | .loadRunning _ | .flushSink | .exited => ([], m)

theorem Drain.step_ahead {d d' : Drain} {f : Field} (hgo : d ≠ .loadPos)
    (h : d.step z m f = some (m', d', e)) :
    d.ahead z m = (e.report.toList ++ (d'.ahead z m').1, (d'.ahead z m').2) := by
  cases DrainMove.of_step h with
  | loadPos => exact absurd rfl hgo
  | found heq => exact if_pos heq
  | empty hne => exact if_neg hne
  | read f hv =>
    rw [ahead, ahead, View.complete_read hv]
    rfl
  | forward hx =>
    rw [ahead, View.complete_forward hx]
    rfl
  | _ => rfl

/-! ### The bounded queue in the ring -/

/-- The sequences of all cells when `n` records are queued from position `k` on: one more than the
position where a record is queued, the position itself where the cell is free. -/
def Sequences (z : Pow2Size) (cells : ℕ → Cell) (k n : ℕ) : Prop :=
  ∀ j < z.card, (cells ((k + j) % z.card)).sequence = .ofNat (k + j + if j < n then 1 else 0)

theorem Sequences.push {cells : ℕ → Cell} {x : Cell} (h : Sequences z cells k n)
    (hroom : n < z.card) (hx : x.sequence = .ofNat (k + n + 1)) :
    Sequences z (Function.update cells ((k + n) % z.card) x) k (n + 1) := by
  intro j hj
  rcases Nat.lt_trichotomy j n with hlt | rfl | hgt
  · have hne : (k + j) % z.card ≠ (k + n) % z.card := by
      intro heq
      have := z.slot_inj (Nat.le_add_right k j) (by omega) (Nat.le_add_right k n) (by omega) heq
      omega
    rw [Function.update_of_ne hne, h j hj, if_pos hlt, if_pos (by omega)]
  · rw [Function.update_self, hx, if_pos (Nat.lt_succ_self j)]
  · have hne : (k + j) % z.card ≠ (k + n) % z.card := by
      intro heq
      have := z.slot_inj (Nat.le_add_right k j) (by omega) (Nat.le_add_right k n) (by omega) heq
      omega
    rw [Function.update_of_ne hne, h j hj, if_neg (by omega), if_neg (by omega)]

theorem Sequences.pop {cells : ℕ → Cell} {x : Cell} (h : Sequences z cells k (n + 1))
    (hle : n + 1 ≤ z.card) (hx : x.sequence = .ofNat (k + z.card)) :
    Sequences z (Function.update cells (k % z.card) x) (k + 1) n := by
  intro j hj
  rcases Nat.lt_or_eq_of_le (Nat.succ_le_of_lt hj) with hlt | heq
  · have hne : (k + 1 + j) % z.card ≠ k % z.card := by
      intro heq
      have := z.slot_inj (by omega : k ≤ k + 1 + j) (by omega) le_rfl (by omega) heq
      omega
    have hnext := h (j + 1) hlt
    rw [show k + (j + 1) = k + 1 + j by omega] at hnext
    rw [Function.update_of_ne hne, hnext]
    simp only [Nat.add_lt_add_iff_right]
  · have hlap : k + 1 + j = k + z.card := by omega
    rw [hlap, Nat.add_mod_right, Function.update_self, hx, if_neg (by omega), Nat.add_zero]

/-- The drain thread finds its cell published exactly when something is queued. -/
theorem Sequences.first_iff {cells : ℕ → Cell} (h : Sequences z cells k n) :
    (cells (k % z.card)).sequence = .ofNat k + 1 ↔ 0 < n := by
  have hfirst := h 0 z.card_pos
  rw [Nat.add_zero] at hfirst
  have hsucc : UInt64.ofNat k + 1 = .ofNat (k + 1) := (UInt64.ofNat_add k 1).symm
  rw [hfirst, hsucc]
  by_cases hpos : 0 < n
  · rw [if_pos hpos]
    exact iff_of_true rfl hpos
  · rw [if_neg hpos, ofNat_inj_of_le (by omega) (by omega)]
    omega

/-- The shared members implement the queue `q`. -/
structure Shared.Implements (z : Pow2Size) (m : Shared) (q : LogQueue) : Prop where
  running : m.running_ = true
  level_eq : m.min_level_ = q.level
  dropped_eq : m.dropped_ = q.dropped
  length_le : q.queue.length ≤ z.card
  ring : ∃ k, m.dequeue_pos_ = .ofNat k ∧ m.enqueue_pos_ = .ofNat (k + q.queue.length) ∧
    Sequences z m.cells_ k q.queue.length ∧
    RingHolds z (fun j => (m.cells_ j).toRecord) k q.queue

/-- The next cell is free exactly when the queue is not full; otherwise it is a lap behind. -/
theorem Shared.Implements.ready (h : m.Implements z q) (h2 : 2 ≤ z.card) :
    m.Ready z ∧ (m.nextSequence z = m.enqueue_pos_ ↔ q.queue.length < z.card) := by
  obtain ⟨k, -, henqueue, hseq, -⟩ := h.ring
  have hcard := z.card_le
  rcases Nat.lt_or_eq_of_le h.length_le with hlt | heq
  · have hfree : m.nextSequence z = m.enqueue_pos_ := by
      rw [Shared.nextSequence, henqueue, z.slot_ofNat, hseq _ hlt, if_neg (lt_irrefl _),
        Nat.add_zero]
    exact ⟨.inl hfree, iff_of_true hfree hlt⟩
  · have hnext : m.nextSequence z = .ofNat (k + 1) := by
      rw [Shared.nextSequence, henqueue, z.slot_ofNat, heq, Nat.add_mod_right]
      have := hseq 0 z.card_pos
      rwa [if_pos (by omega)] at this
    have hbehind : signedDiff (m.nextSequence z) m.enqueue_pos_ < 0 := by
      rw [hnext, henqueue, signedDiff_neg_iff (by omega) (by omega)]
      omega
    have hne : m.nextSequence z ≠ m.enqueue_pos_ := by
      intro hfree
      rw [signedDiff_eq_zero_iff.mpr hfree] at hbehind
      exact absurd hbehind Int64.lt_irrefl
    exact ⟨.inr hbehind, iff_of_false hne (by omega)⟩

theorem toRecord_update (cells : ℕ → Cell) (j : ℕ) (x : Cell) :
    (fun l => (Function.update cells j x l).toRecord) =
      Function.update (fun l => (cells l).toRecord) j x.toRecord :=
  Function.comp_update Cell.toRecord cells j x

/-- A call of `Log` is an operation on the queue. -/
theorem Shared.Implements.log (h : m.Implements z q) (h2 : 2 ≤ z.card) (c : Call) :
    ((Log.loadLevel c).ahead z m).1 = (q.apply z.card (.log c)).2 ∧
      ((Log.loadLevel c).ahead z m).2.Implements z (q.apply z.card (.log c)).1 := by
  obtain ⟨k, hdequeue, henqueue, hseq, hring⟩ := h.ring
  rw [Log.ahead, LogQueue.apply, h.level_eq]
  by_cases hlt : c.level < q.level
  · rw [if_pos hlt, if_pos hlt]
    exact ⟨rfl, h⟩
  · rw [if_neg hlt, if_neg hlt, Shared.offer]
    obtain ⟨-, hfree⟩ := h.ready h2
    by_cases hroom : q.queue.length < z.card
    · rw [if_pos (hfree.mpr hroom), if_pos hroom]
      refine ⟨rfl, { h with length_le := ?_, ring := ⟨k, hdequeue, ?_, ?_, ?_⟩ }⟩
      · rw [List.length_append, List.length_singleton]
        exact hroom
      · show m.enqueue_pos_ + 1 = _
        rw [henqueue, List.length_append]
        simp [← Nat.add_assoc]
      · show Sequences z (Function.update m.cells_ (z.slot m.enqueue_pos_) _) k _
        rw [henqueue, z.slot_ofNat, List.length_append]
        exact hseq.push hroom (UInt64.ofNat_add _ 1).symm
      · show RingHolds z (fun j => (Function.update m.cells_ (z.slot m.enqueue_pos_) _ j).toRecord)
          k _
        rw [toRecord_update, henqueue, z.slot_ofNat]
        refine hring.push hroom fun f => Record.foldl_assign_holds (.inl ?_)
        cases f <;> decide
    · rw [if_neg (mt hfree.mp hroom), if_neg hroom]
      refine ⟨rfl, { h with dropped_eq := ?_ }⟩
      show m.dropped_ + 1 = _
      rw [h.dropped_eq]

/-- An iteration of the drain loop is an operation on the queue. -/
theorem Shared.Implements.drain (h : m.Implements z q) :
    ((Drain.loadSeq m.dequeue_pos_).ahead z m).1 = (q.apply z.card .drain).2 ∧
      ((Drain.loadSeq m.dequeue_pos_).ahead z m).2.Implements z (q.apply z.card .drain).1 := by
  obtain ⟨k, hdequeue, henqueue, hseq, hring⟩ := h.ring
  have hfirst := hseq.first_iff
  have hle := h.length_le
  rw [Drain.ahead, LogQueue.apply, hdequeue, z.slot_ofNat]
  cases hq : q.queue with
  | nil =>
    have hempty : ¬ (m.cells_ (k % z.card)).sequence = UInt64.ofNat k + 1 := by
      rw [hfirst, hq]
      exact lt_irrefl 0
    rw [if_neg hempty]
    exact ⟨rfl, h⟩
  | cons c rest =>
    rw [hq] at hring hle henqueue hseq
    obtain ⟨hholds, hrest⟩ := hring.pop
    have hpublished : (m.cells_ (k % z.card)).sequence = UInt64.ofNat k + 1 := by
      rw [hfirst, hq]
      exact Nat.succ_pos _
    rw [if_pos hpublished, Record.sinkRecord_eq hholds]
    refine ⟨rfl, { h with length_le := Nat.le_of_succ_le hle, ring := ⟨k + 1, ?_, ?_, ?_, ?_⟩ }⟩
    · exact (UInt64.ofNat_add k 1).symm
    · show m.enqueue_pos_ = .ofNat (k + 1 + rest.length)
      rw [henqueue, List.length_cons]
      congr 1
      omega
    · show Sequences z (Function.update m.cells_ (z.slot (.ofNat k)) _) (k + 1) rest.length
      rw [z.slot_ofNat]
      refine hseq.pop hle ?_
      show UInt64.ofNat k + z.mask + 1 = _
      rw [UInt64.add_assoc, z.mask_add_one, UInt64.ofNat_add, z.ofNat_card]
    · show RingHolds z (fun j => (Function.update m.cells_ (z.slot (.ofNat k)) _ j).toRecord)
        (k + 1) rest
      rw [toRecord_update]
      simpa using hrest

/-- The producer and the drain thread are at rest, and the ring implements the queue. -/
structure Simulates (z : Pow2Size) (i : ι) (s : State ι) (q : LogQueue) : Prop where
  log_idle : s.producers i = .idle
  drain_head : s.drain = .loadPos
  shared : s.shared.Implements z q

theorem Simulates.initial (i : ι) (raw : ℕ → Vector UInt8 kMaxMsgLen) (level : LogLevel) :
    Simulates z i (MpscRtLogger.initial raw level) (.initial level) where
  log_idle := rfl
  drain_head := rfl
  shared :=
    { running := rfl
      level_eq := rfl
      dropped_eq := rfl
      length_le := Nat.zero_le _
      ring := by
        refine ⟨0, rfl, rfl, fun j hj => ?_, .nil⟩
        rw [Nat.zero_add, Nat.mod_eq_of_lt hj]
        rfl }

/-! ### Operations as functions -/

/-- How many steps a call has left, at most, unless an exchange fails for no reason. -/
def Log.left : Log → ℕ
  | .idle | .reload .. => 0
  | .loadLevel _ => 9
  | .loadPos _ => 8
  | .loadSeq .. => 7
  | .exchange .. => 6
  | .bumpDropped _ => 1
  | .assign _ _ todo => todo.length + 1

theorem Log.left_step {p p' : Log} (halone : p.Alone z m)
    (h : p.step z i m false = some (m', p', e)) : p'.left < p.left := by
  cases LogMove.of_step h with
  | ahead hne hpos =>
    obtain ⟨rfl, hready⟩ := halone
    exact absurd (hready.resolve_left hne) hpos
  | lost hne => exact absurd halone.1.symm hne
  | spurious heq => simp [Log.step, heq] at h
  | reload => exact halone.elim
  | _ => simp [left, assignments]

/-- How many steps an iteration has left, at most. -/
def Drain.left : Drain → ℕ
  | .loadPos | .flushSink | .exited => 0
  | .loadSeq _ => 7
  | .loadRunning _ | .free _ => 1
  | .read _ v => v.missing + 3
  | .advance _ => 2

theorem Drain.left_step {d d' : Drain} {f : Field} (hgo : d ≠ .loadPos)
    (hrun : m.running_ = true) (hloop : d.place = .busy ∨ d.place = .asking)
    (h : d.step z m f = some (m', d', e)) : d'.left < d.left := by
  cases DrainMove.of_step h with
  | loadPos => exact absurd rfl hgo
  | leave hoff =>
    rw [hrun] at hoff
    cases hoff
  | read f hv =>
    have hone := View.missing_read hv
    simp only [left]
    omega
  | flushSink => simp [place] at hloop
  | _ => simp [left, View.missing_empty]

variable [DecidableEq ι]

/-- What the call of `i` in progress still reports, and the state when it returns. -/
def State.logAhead (z : Pow2Size) (i : ι) (s : State ι) : List Report × State ι :=
  (((s.producers i).ahead z s.shared).1,
    { s with
      shared := ((s.producers i).ahead z s.shared).2
      producers := Function.update s.producers i .idle })

/-- A call of a producer that nobody interrupts is a function on the shared members. -/
theorem foretells_log (z : Pow2Size) (i : ι) (c : Call) :
    (machine z).Foretells (choices i (.log c)) (done i (.log c)) Event.report
      (fun s => (s.producers i).Alone z s.shared) (State.logAhead z i)
      (fun s => (s.producers i).left) where
  stop {s} hidle := by
    replace hidle : s.producers i = .idle := hidle
    rw [State.logAhead, ← hidle, Function.update_eq_self, hidle]
    rfl
  step {s a s' e} hgo halone ha hs := by
    rcases ha with rfl | ⟨spurious, rfl⟩
    · simp only [machine, step] at hs
      split at hs
      · next hidle => exact absurd hidle hgo
      · cases hs
    · obtain ⟨⟨m, p, e⟩, hp, hx⟩ := Option.map_eq_some_iff.mp hs
      cases hx
      obtain ⟨halone', heq⟩ := Log.step_ahead halone hp
      simp only [State.logAhead, Function.update_self, Function.update_idem]
      rw [heq]
      exact ⟨halone', rfl⟩
  go {s} hgo halone := by
    obtain ⟨⟨m, p, e⟩, hp⟩ := Log.exists_next hgo z i s.shared false
    refine ⟨.log i false, _, e, .inr ⟨false, rfl⟩, Option.map_eq_some_iff.mpr ⟨_, hp, rfl⟩, ?_⟩
    simp only [Function.update_self]
    exact Log.left_step halone hp

/-- What the iteration still reports, and the state at its end. -/
def State.drainAhead (z : Pow2Size) (s : State ι) : List Report × State ι :=
  ((s.drain.ahead z s.shared).1,
    { s with shared := (s.drain.ahead z s.shared).2, drain := .loadPos })

/-- An iteration is a function on the shared members, while the logger lives. -/
theorem foretells_drain (z : Pow2Size) (i : ι) :
    (machine z).Foretells (choices i .drain) (done i .drain) Event.report
      (fun s => s.shared.running_ = true ∧ (s.drain.place = .busy ∨ s.drain.place = .asking))
      (State.drainAhead z) (fun s => s.drain.left) where
  stop {s} hhead := by
    obtain ⟨m, producers, drain, flush, destructor⟩ := s
    obtain rfl : drain = .loadPos := hhead
    rfl
  step {s a s' e} hgo hloop ha hs := by
    obtain ⟨f, rfl⟩ := ha
    obtain ⟨⟨m, d, e⟩, hd, hx⟩ := Option.map_eq_some_iff.mp hs
    cases hx
    obtain ⟨hmove, hrun, -⟩ := Drain.place_move hd
    refine ⟨⟨hrun.trans hloop.1, hmove.looping hloop.1 hloop.2⟩, ?_⟩
    simp only [State.drainAhead]
    rw [Drain.step_ahead hgo hd]
  go {s} hgo hloop := by
    have hexit : s.drain ≠ .exited := fun hexit => by simp [hexit, Drain.place] at hloop
    obtain ⟨f, ⟨m, d, e⟩, hd⟩ := Drain.exists_next ι hexit z s.shared
    exact ⟨.drain f, _, e, ⟨f, rfl⟩, Option.map_eq_some_iff.mpr ⟨_, hd, rfl⟩,
      Drain.left_step hgo hloop.1 hloop.2 hd⟩

/-! ### Simulation -/

/-- Every operation can be executed, and does what it does to the bounded queue. -/
theorem Simulates.turn (h : Simulates z i s q) (h2 : 2 ≤ z.card) (op : Op) :
    (∃ tr s', (machine z).Turn (choices i op) (done i op) s tr s') ∧
      ∀ {tr s'}, (machine z).Turn (choices i op) (done i op) s tr s' →
        see tr s' = (q.spec z.card op).2 ∧ Simulates z i s' (q.spec z.card op).1 := by
  cases op with
  | log c =>
    have hcall : (machine z).step s (.call i c) =
        some ({ s with producers := Function.update s.producers i (.loadLevel c) }, .call i c) := by
      simp only [machine, step, h.log_idle]
    have halone : (Function.update s.producers i (.loadLevel c) i).Alone z s.shared := by
      rw [Function.update_self]
      exact (h.shared.ready h2).1
    have hfirst {a x} (ha : choices i (.log c) a) (hs : (machine z).step s a = some x) :
        x = ({ s with producers := Function.update s.producers i (.loadLevel c) }, .call i c) := by
      rcases ha with rfl | ⟨spurious, rfl⟩
      · exact (Option.some.inj (hcall.symm.trans hs)).symm
      · simp [machine, step, h.log_idle, Log.step] at hs
    obtain ⟨hexists, hall⟩ := (foretells_log z i c).turn (.inl rfl) hcall hfirst rfl halone
    refine ⟨hexists, fun hturn => ?_⟩
    obtain ⟨hreports, rfl⟩ := hall hturn
    obtain ⟨heq, himpl⟩ := h.shared.log h2 c
    simp only [State.logAhead, Function.update_self] at hreports ⊢
    exact ⟨congrArg₂ Seen.mk (hreports.trans heq) himpl.dropped_eq, Function.update_self ..,
      h.drain_head, himpl⟩
  | setLevel level =>
    have hfirst {a x} (ha : choices i (.setLevel level) a) (hs : (machine z).step s a = some x) :
        x = ({ s with shared := { s.shared with min_level_ := level } }, .setLevel level) := by
      cases ha
      exact (Option.some.inj hs).symm
    obtain ⟨hexists, hall⟩ :=
      Machine.Turn.single (A := choices i (.setLevel level)) (done i (.setLevel level)) rfl rfl
        hfirst trivial
    refine ⟨hexists, fun hturn => ?_⟩
    obtain ⟨rfl, rfl⟩ := hall hturn
    exact ⟨congrArg (Seen.mk []) h.shared.dropped_eq, h.log_idle, h.drain_head,
      { h.shared with level_eq := rfl }⟩
  | drain =>
    have hload (f : Field) : (machine z).step s (.drain f) =
        some ({ s with drain := .loadSeq s.shared.dequeue_pos_ }, .drain) := by
      simp only [machine, step, h.drain_head, Drain.step, Option.map_some]
    have hfirst {a x} (ha : choices i .drain a) (hs : (machine z).step s a = some x) :
        x = ({ s with drain := .loadSeq s.shared.dequeue_pos_ }, .drain) := by
      obtain ⟨f, rfl⟩ := ha
      exact (Option.some.inj ((hload f).symm.trans hs)).symm
    obtain ⟨hexists, hall⟩ := (foretells_drain z i).turn ⟨.time, rfl⟩ (hload _) hfirst rfl
      ⟨h.shared.running, .inl rfl⟩
    refine ⟨hexists, fun hturn => ?_⟩
    obtain ⟨hreports, rfl⟩ := hall hturn
    obtain ⟨heq, himpl⟩ := h.shared.drain
    exact ⟨congrArg₂ Seen.mk (hreports.trans heq) himpl.dropped_eq, h.log_idle, rfl, himpl⟩

/-- What is seen of the operations, executed one after another on a new logger whose only producer
is `i`. -/
def Shows (z : Pow2Size) (i : ι) (raw : ℕ → Vector UInt8 kMaxMsgLen) (level : LogLevel)
    (ops : List Op) (os : List Seen) : Prop :=
  (machine z).Serial (choices i) (done i) see (initial raw level) ops os

/-- A new logger of at least two cells shows what the bounded queue of `capacity_` calls shows. -/
theorem shows_iff (h2 : 2 ≤ z.card) (i : ι) (raw : ℕ → Vector UInt8 kMaxMsgLen) (level : LogLevel)
    (ops : List Op) (os : List Seen) :
    Shows z i raw level ops os ↔ os = observe (LogQueue.spec z.card) (.initial level) ops :=
  Machine.Serial.iff_observe (fun op h => h.turn h2 op) (Simulates.initial i raw level) ops os

end MpscRtLogger

end XmSigma
