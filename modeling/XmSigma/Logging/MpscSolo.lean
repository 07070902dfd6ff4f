import XmSigma.Logging.MpscRtLogger

/-!
# A thread that nobody interrupts

What one call of `MpscRtLogger::Log`, and one round of the drain thread, do when the scheduler
lets the thread run to the end: the paths that exist from a given state, with the state they lead
to. They show that a call can go on to publish once it owns a cell, and they are the building
blocks of whole runs.

## Main results

* `fill_path`: from the exchange on, a producer can always go on to publish
* `accepted_path`: a whole call that finds its cell free
* `drained_path`: a round of the drain thread over a published cell
-/

namespace XmSigma

namespace MpscRtLogger

variable {ι : Type*} [DecidableEq ι] {z : Pow2Size} {s : State ι} {i : ι} {c : Call}
  {pos : UInt64} {todo : List Field}

/-- The cell at `pos` after the assignments `todo` and the publishing store. -/
def Cell.publish (x : Cell) (c : Call) (pos : UInt64) (todo : List Field) : Cell where
  toRecord := todo.foldl (fun r f => r.assign c f) x.toRecord
  sequence := pos + 1

/-- A step of producer `i`, from the program point `p`. -/
theorem step_log {p p' : Log} {m : Shared} {e : Event ι} (spurious : Bool)
    (h : p.step z i s.shared spurious = some (m, p', e)) :
    (machine z).Step { s with producers := Function.update s.producers i p } e
      { s with shared := m, producers := Function.update s.producers i p' } :=
  ⟨.log i spurious, by simp [machine, step, h]⟩

/-- From its successful exchange on, a producer can go on to publish, whatever its formatting
comes to. -/
theorem fill_path (s : State ι) (i : ι) (c : Call) (pos : UInt64) (todo : List Field) :
    (machine z).Path { s with producers := Function.update s.producers i (.assign c pos todo) }
      (List.replicate todo.length (.log i) ++ [.publish i c])
      { s with
        shared := { s.shared with
          cells_ := Function.update s.shared.cells_ (z.slot pos)
            ((s.shared.cells_ (z.slot pos)).publish c pos todo) }
        producers := Function.update s.producers i .idle } := by
  induction todo generalizing s with
  | nil => exact (step_log false rfl).path
  | cons f todo ih =>
    refine .cons (step_log false rfl) ?_
    have hpath := ih { s with
      shared := { s.shared with
        cells_ := Function.update s.shared.cells_ (z.slot pos)
          { s.shared.cells_ (z.slot pos) with
            toRecord := (s.shared.cells_ (z.slot pos)).toRecord.assign c f } } }
    simpa [Cell.publish] using hpath

/-- The shared members after an accepted call. -/
def Shared.accept (z : Pow2Size) (c : Call) (m : Shared) : Shared :=
  let pos := m.enqueue_pos_
  { m with
    cells_ := Function.update m.cells_ (z.slot pos) ((m.cells_ (z.slot pos)).publish c pos assignments)
    enqueue_pos_ := pos + 1 }

/-- A call that finds its cell free comes to its exchange. -/
theorem exchange_path (hi : s.producers i = .idle) (hlevel : ¬ c.level < s.shared.min_level_)
    (hfree : (s.shared.cells_ (z.slot s.shared.enqueue_pos_)).sequence = s.shared.enqueue_pos_) :
    (machine z).Path s [.call i c, .log i, .log i, .log i]
      { s with
        producers := Function.update s.producers i (.exchange c s.shared.enqueue_pos_) } := by
  have hcall : (machine z).Step s (.call i c)
      { s with producers := Function.update s.producers i (.loadLevel c) } :=
    ⟨.call i c, by simp only [machine, step, hi]⟩
  exact
    .cons hcall <|
    .cons (step_log false (if_neg hlevel)) <|
    .cons (step_log false rfl) <|
    .cons (step_log false (if_pos (signedDiff_eq_zero_iff.mpr hfree))) .refl

/-- The exchange succeeds. -/
theorem claim_step (s : State ι) (i : ι) (c : Call) :
    (machine z).Step
      { s with producers := Function.update s.producers i (.exchange c s.shared.enqueue_pos_) }
      (.claim i c)
      { s with
        shared := { s.shared with enqueue_pos_ := s.shared.enqueue_pos_ + 1 }
        producers := Function.update s.producers i
          (.assign c s.shared.enqueue_pos_ assignments) } :=
  step_log false (by simp [Log.step])

/-- What an accepted call reports. -/
def acceptEvents (i : ι) (c : Call) : List (Event ι) :=
  [.call i c, .log i, .log i, .log i, .claim i c, .log i, .log i, .log i, .log i, .publish i c]

/-- A whole call that finds its cell free. -/
theorem accepted_path (hi : s.producers i = .idle) (hlevel : ¬ c.level < s.shared.min_level_)
    (hfree : (s.shared.cells_ (z.slot s.shared.enqueue_pos_)).sequence = s.shared.enqueue_pos_) :
    (machine z).Path s (acceptEvents i c) { s with shared := s.shared.accept z c } := by
  have hfill := fill_path (z := z) { s with
    shared := { s.shared with enqueue_pos_ := s.shared.enqueue_pos_ + 1 } } i c
    s.shared.enqueue_pos_ assignments
  have hidle : Function.update s.producers i .idle = s.producers := by
    rw [← hi, Function.update_eq_self]
  rw [hidle] at hfill
  exact (exchange_path hi hlevel hfree).append (.cons (claim_step s i c) hfill)

/-! ### The drain thread -/

/-- A step of the drain thread. -/
theorem step_drain {d d' : Drain} {m : Shared} {e : Event ι} (f : Field) (hd : s.drain = d)
    (h : d.step z s.shared f = some (m, d', e)) :
    (machine z).Step s e { s with shared := m, drain := d' } :=
  ⟨.drain f, by simp [machine, step, hd, h]⟩

/-- The shared members after a record was forwarded and its cell freed. -/
def Shared.release (z : Pow2Size) (m : Shared) : Shared :=
  let pos := m.dequeue_pos_
  { m with
    cells_ := Function.update m.cells_ (z.slot pos)
      { m.cells_ (z.slot pos) with sequence := pos + z.mask + 1 }
    dequeue_pos_ := pos + 1 }

/-- What a round of the drain thread over the record `r` reports, from its sequence load on. -/
def drainEvents (r : Record) : List (Event ι) :=
  [.drain, .drain, .drain, .drain, .forward r.sinkRecord, .advance, .free]

/-- The rest of a round that finds its cell published. -/
theorem drained_path (hd : s.drain = .loadSeq s.shared.dequeue_pos_)
    (hseq : (s.shared.cells_ (z.slot s.shared.dequeue_pos_)).sequence =
      s.shared.dequeue_pos_ + 1) :
    (machine z).Path s (drainEvents (s.shared.cells_ (z.slot s.shared.dequeue_pos_)).toRecord)
      { s with shared := s.shared.release z, drain := .loadPos } :=
  .cons (step_drain .time hd (if_pos (signedDiff_eq_zero_iff.mpr hseq))) <|
  .cons (step_drain .time rfl rfl) <|
  .cons (step_drain .level rfl rfl) <|
  .cons (step_drain .len rfl rfl) <|
  .cons (step_drain .msg rfl rfl) <|
  .cons (step_drain .time rfl rfl) <|
  (step_drain .time rfl rfl).path

end MpscRtLogger

end XmSigma
