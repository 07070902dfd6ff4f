import XmSigma.Logging.MpscDelivery
import XmSigma.Logging.MpscRefines
import XmSigma.Logging.MpscSerial
import XmSigma.Logging.RingCapacity
import XmSigma.Logging.RtLoggerRefines
import XmSigma.Logging.RtLoggerSerial

/-!
# One producer: the loggers are interchangeable

Both loggers implement the same bounded queue, so a program with one producer sees no difference
between them as long as its operations do not overlap: they accept, suppress and drop the same
calls, count the same drops and forward the same records. A ring of one cell is the exception; there
`MpscRtLogger` is broken (`MpscRtLogger.one_cell_unsound`).

Where the operations do overlap there is more than one thing to see, but still the same for both.

## Main results

* `loggers_interchangeable`: one operation at a time
* `loggers_indistinguishable`: the threads in any order
-/

namespace XmSigma

/-- **Interchangeable loggers.** Built with the same `ring_capacity` of at least two and the same
level, and given the same operations one after another, the two loggers show the same: of each
operation the same reports and the same `dropped()`. There is exactly one thing they can show. -/
theorem loggers_interchangeable {ι : Type*} [DecidableEq ι] (i : ι) {ring_capacity : UInt64}
    (h2 : 2 ≤ ring_capacity.toNat) {z z' : Pow2Size} (hz : Built ring_capacity z)
    (hz' : Built ring_capacity z') (raw raw' : ℕ → Vector UInt8 kMaxMsgLen) (level : LogLevel)
    (ops : List Op) :
    (∀ os, RtLogger.Shows z raw level ops os ↔ MpscRtLogger.Shows z' i raw' level ops os) ∧
      ∃! os, RtLogger.Shows z raw level ops os := by
  have hcard : z'.card = z.card :=
    congrArg UInt64.toNat (Option.some.inj (hz'.symm.trans hz))
  constructor
  · intro os
    rw [RtLogger.shows_iff, MpscRtLogger.shows_iff (hz'.two_le_card_iff.mpr h2), hcard]
  · refine ⟨_, (RtLogger.shows_iff ..).mpr rfl, fun os hos => ?_⟩
    exact (RtLogger.shows_iff ..).mp hos

/-- A ring of two cells that runs full, then drains. -/
def smallOps : List Op :=
  [.log MpscRtLogger.hello, .setLevel .kWarn, .log MpscRtLogger.hello, .log MpscRtLogger.broken,
    .log MpscRtLogger.broken, .drain, .drain, .drain]

/-- What is seen of them. -/
def smallSeen : List Seen :=
  [⟨[.accept MpscRtLogger.hello], 0⟩, ⟨[], 0⟩, ⟨[.suppress MpscRtLogger.hello], 0⟩,
    ⟨[.accept MpscRtLogger.broken], 0⟩, ⟨[.drop MpscRtLogger.broken], 1⟩,
    ⟨[.forward ⟨7, .info, [104, 105]⟩], 1⟩, ⟨[.forward ⟨8, .warn, kErr⟩], 1⟩, ⟨[], 1⟩]

theorem loggers_interchangeable_small :
    RtLogger.Shows MpscRtLogger.twoCells (fun _ => Vector.replicate _ 0) .kInfo smallOps
      smallSeen ∧
    MpscRtLogger.Shows MpscRtLogger.twoCells () (fun _ => Vector.replicate _ 1) .kInfo smallOps
      smallSeen := by
  have hbuilt : Built 2 MpscRtLogger.twoCells := rfl
  have hshows : RtLogger.Shows MpscRtLogger.twoCells (fun _ => Vector.replicate _ 0) .kInfo
      smallOps smallSeen := (RtLogger.shows_iff ..).mpr (by decide +kernel)
  exact ⟨hshows, ((loggers_interchangeable () (by decide) hbuilt hbuilt _ _ _ _).1 _).mp hshows⟩

/-- **Indistinguishable loggers.** Built with the same `ring_capacity` of at least two and the same
level, and used by one producer, the two loggers can show the same, whatever the order in which
producer, drain thread and the threads calling `SetLevel` take their steps: what one of them shows
in some run the other shows in some run, as long as the counters of the second do not reach
`2 ^ 63`. -/
theorem loggers_indistinguishable {ring_capacity : UInt64} (h2 : 2 ≤ ring_capacity.toNat)
    {z z' : Pow2Size} (hz : Built ring_capacity z) (hz' : Built ring_capacity z')
    (raw raw' : ℕ → Vector UInt8 kMaxMsgLen) (level : LogLevel) (os : List (Sight Unit))
    (hb : Sight.calls os + z'.card ≤ 2 ^ 63) :
    (RtLogger.machine z).Shows RtLogger.Event.view (RtLogger.initial raw level) os ↔
      (MpscRtLogger.machine z').Shows MpscRtLogger.Event.view (MpscRtLogger.initial raw' level)
        os := by
  have hcard : z'.card = z.card :=
    congrArg UInt64.toNat (Option.some.inj (hz'.symm.trans hz))
  have htwo : 2 ≤ z'.card := hz'.two_le_card_iff.mpr h2
  constructor
  · intro h
    have hqueue := RtLogger.shows_queue h
    rw [← hcard] at hqueue
    exact MpscRtLogger.queue_shows htwo hb hqueue
  · intro h
    have hqueue := MpscRtLogger.shows_queue htwo hb h
    rw [hcard] at hqueue
    exact RtLogger.queue_shows hqueue

theorem loggers_indistinguishable_small :
    (MpscRtLogger.machine (ι := Unit) .two).Shows MpscRtLogger.Event.view
      (MpscRtLogger.initial (fun _ => Vector.replicate _ 1) .kInfo)
      [.call () RtLogger.hello, .publish () RtLogger.hello, .setLevel .kWarn,
        .call () RtLogger.hello, .suppress () RtLogger.hello] := by
  have hbuilt : Built 2 .two := rfl
  exact (loggers_indistinguishable (by decide) hbuilt hbuilt (fun _ => Vector.replicate _ 0) _
    .kInfo _ (by decide)).mp ⟨_, _, .of_exec_get RtLogger.raised_isSome, RtLogger.raised_events⟩

end XmSigma
