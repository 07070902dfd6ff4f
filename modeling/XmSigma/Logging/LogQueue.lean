import XmSigma.Lib.Word64
import XmSigma.Logging.Record
import Mathlib.Logic.Function.Basic

/-!
# The bounded queue both loggers implement

Seen from outside, and with one operation at a time, a hard-real-time logger is a queue of calls
with a bound, a level and a count of what it had to drop. Both loggers keep that queue in a ring of
slots, so what a ring says of a queue is here as well.

## Main definitions

* `Op`, `Seen`: the operations, and what can be seen of one
* `LogQueue.apply`: what an operation does
* `RingHolds`: the slots of a ring hold the calls of a queue
-/

namespace XmSigma

/-- An operation on a logger. -/
inductive Op
  | log (c : Call)
  | setLevel (level : LogLevel)
  /-- One iteration of the drain loop. -/
  | drain
  deriving DecidableEq

/-- Something that happened to a call, or to a record. -/
inductive Report
  | accept (c : Call)
  | suppress (c : Call)
  | drop (c : Call)
  | forward (r : SinkRecord)
  deriving DecidableEq

/-- What can be seen of an operation: the reports, and what `dropped()` returns after it. -/
structure Seen where
  reports : List Report
  dropped : UInt64
  deriving DecidableEq

/-- A bounded queue of calls. -/
structure LogQueue where
  level : LogLevel
  queue : List Call
  dropped : UInt64

namespace LogQueue

/-- The queue of a new logger. -/
def initial (level : LogLevel) : LogQueue := ⟨level, [], 0⟩

/-- What an operation does to a queue of at most `cap` calls. -/
def apply (cap : ℕ) (q : LogQueue) : Op → LogQueue × List Report
  | .log c =>
    if c.level < q.level then (q, [.suppress c])
    else if q.queue.length < cap then ({ q with queue := q.queue ++ [c] }, [.accept c])
    else ({ q with dropped := q.dropped + 1 }, [.drop c])
  | .setLevel level => ({ q with level := level }, [])
  | .drain =>
    match q.queue with
    | [] => (q, [])
    | c :: rest => ({ q with queue := rest }, [.forward c.sinkRecord])

/-- The same, with what can be seen of it. -/
def spec (cap : ℕ) (q : LogQueue) (op : Op) : LogQueue × Seen :=
  ((q.apply cap op).1, ⟨(q.apply cap op).2, (q.apply cap op).1.dropped⟩)

end LogQueue

/-! ### A queue in a ring -/

variable {z : Pow2Size} {ring : ℕ → Record} {k : ℕ} {queue : List Call} {c : Call}

/-- The slots from count `k` on hold the calls of a queue. -/
def RingHolds (z : Pow2Size) (ring : ℕ → Record) (k : ℕ) (queue : List Call) : Prop :=
  ∀ j c, queue[j]? = some c → ∀ f, (ring ((k + j) % z.card)).Holds c f

theorem RingHolds.nil : RingHolds z ring k [] := by
  intro j c hc
  simp at hc

/-- Writing a call into the slot behind the queue appends it. -/
theorem RingHolds.push (h : RingHolds z ring k queue) (hroom : queue.length < z.card) {r : Record}
    (hr : ∀ f, r.Holds c f) :
    RingHolds z (Function.update ring ((k + queue.length) % z.card) r) k (queue ++ [c]) := by
  intro j c' hc f
  obtain ⟨hlen, hget⟩ := List.getElem?_eq_some_iff.mp hc
  rw [List.length_append, List.length_singleton] at hlen
  rcases Nat.lt_or_eq_of_le (Nat.le_of_lt_succ hlen) with hlt | rfl
  · have hne : (k + j) % z.card ≠ (k + queue.length) % z.card := by
      intro heq
      have := z.slot_inj (Nat.le_add_right k j) (by omega) (Nat.le_add_right k queue.length)
        (by omega) heq
      omega
    rw [Function.update_of_ne hne]
    rw [List.getElem?_append_left hlt] at hc
    exact h j c' hc f
  · obtain rfl : c = c' := by simpa using hget
    rw [Function.update_self]
    exact hr f

/-- The first slot holds the oldest call, the others the rest. -/
theorem RingHolds.pop (h : RingHolds z ring k (c :: queue)) :
    (∀ f, (ring (k % z.card)).Holds c f) ∧ RingHolds z ring (k + 1) queue := by
  constructor
  · exact h 0 c rfl
  · intro j c' hc
    rw [Nat.add_assoc, Nat.add_comm 1]
    exact h (j + 1) c' hc

/-- After its assignments a record holds the call, in whatever order they are made. -/
theorem Record.foldl_assign_holds {r : Record} {f : Field} :
    ∀ {todo : List Field}, f ∈ todo ∨ r.Holds c f →
      (todo.foldl (fun r f => r.assign c f) r).Holds c f := by
  intro todo
  induction todo generalizing r with
  | nil =>
    rintro (hf | hf)
    · cases hf
    · exact hf
  | cons g todo ih =>
    intro hf
    refine ih ?_
    by_cases hgf : f = g
    · subst hgf
      exact .inr (Record.assign_holds ..)
    · rcases hf with hf | hf
      · exact .inl (List.mem_of_ne_of_mem hgf hf)
      · exact .inr (hf.assign_of_ne hgf)

/-! ### Reading a record in one go -/

/-- What the sink gets once the missing arguments have been read as well. -/
def View.complete (r : Record) (v : View) : SinkRecord :=
  ⟨v.time.getD r.time, (v.level.getD r.level).toSpdlogLevel, r.msg.take (v.len.getD r.len).toNat⟩

theorem View.complete_read {r : Record} {v v' : View} {f : Field} (h : v.read r f = some v') :
    v'.complete r = v.complete r := by
  cases f with
  | msg => cases h
  | time | level | len =>
    obtain ⟨hnone, rfl⟩ := by simpa [View.read] using h
    simp [View.complete, hnone]

theorem View.complete_forward {r : Record} {v : View} {x : SinkRecord}
    (h : v.forward r = some x) : v.complete r = x := by
  simp only [View.forward] at h
  split at h
  · next ht hl hn =>
    obtain rfl := Option.some.inj h
    rw [View.complete, ht, hl, hn]
    rfl
  · cases h

end XmSigma
