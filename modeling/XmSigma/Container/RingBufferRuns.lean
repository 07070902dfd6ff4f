import Mathlib.Data.List.DropRight
import XmSigma.Container.RingBufferContents
import XmSigma.Lib.Machine

/-!
# Runs of a `RingBuffer`

A run calls the member functions one after another, in any order and with any arguments: the lock
makes each call one step. With overwriting off the buffer is a bounded queue that loses nothing;
with overwriting on it is a sliding window on what was written.

## Main definitions

* `RingBuffer.machine`: the calls as steps, each with the count it returned and the caller's
  elements afterwards
* `RingBuffer.accepted`, `RingBuffer.returned`: what was written and read since the last `Reset`
* `RingBuffer.slideAll`: the sliding window that the operations describe

## Main results

* `lossless_fifo`: with overwriting off
* `sliding_window`: with overwriting on
-/

namespace XmSigma

namespace RingBuffer

variable {T : Type*} {z : Pow2Size} {b b' : RingBuffer T z}

/-- A call of a member function, with its arguments. -/
inductive Op (T : Type*)
  | reset
  | write (new_data : T)
  | writeBurst (new_data : List T) (btw : ℕ)
  | read (data : T)
  | readBurst (data : List T) (btr : ℕ)
  | peek (data : List T) (btp : ℕ)
  | peekAt (data : T) (n : ℕ)

/-- A call, the caller's elements when it returned, and the count it returned. -/
structure Event (T : Type*) where
  op : Op T
  data : List T
  count : ℕ

/-- What a call does to the buffer and to the caller's elements, and what it returns. -/
def apply (b : RingBuffer T z) : Op T → RingBuffer T z × List T × ℕ
  | .reset => (b.reset, [], 0)
  | .write x => ((b.write x).1, [x], (b.write x).2)
  | .writeBurst new_data btw =>
    ((b.writeBurst new_data btw).1, new_data, (b.writeBurst new_data btw).2)
  | .read data => ((b.read data).1, [(b.read data).2.1], (b.read data).2.2)
  | .readBurst data btr => b.readBurst data btr
  | .peek data btp => (b, b.peek data btp)
  | .peekAt data n => (b, [(b.peekAt data n).1], (b.peekAt data n).2)

/-- The record of a call. -/
def event (b : RingBuffer T z) (op : Op T) : Event T := ⟨op, (b.apply op).2.1, (b.apply op).2.2⟩

/-- The calls as steps, on a buffer that was constructed with the given policy. -/
def machine (T : Type*) (z : Pow2Size) (enable_overwrite : Bool) :
    Machine (RingBuffer T z) (Op T) (Event T) where
  init b := ∃ raw, b = construct raw enable_overwrite
  step b op := some ((b.apply op).1, b.event op)

/-! ### Histories -/

namespace Event

/-- It was a call of `Reset`. -/
def isReset (e : Event T) : Bool :=
  match e.op with
  | .reset => true
  | _ => false

/-- The elements a write accepted: the first ones, as many as it returned. -/
def accepted (e : Event T) : List T :=
  match e.op with
  | .write _ | .writeBurst .. => e.data.take e.count
  | _ => []

/-- The elements a read returned: the first ones, as many as it returned. -/
def returned (e : Event T) : List T :=
  match e.op with
  | .read _ | .readBurst .. => e.data.take e.count
  | _ => []

end Event

/-- The calls after the last `Reset`. -/
def sinceReset (tr : List (Event T)) : List (Event T) := tr.rtakeWhile fun e => !e.isReset

/-- All elements accepted since the last `Reset`. -/
def accepted (tr : List (Event T)) : List T := (sinceReset tr).flatMap Event.accepted

/-- All elements returned since the last `Reset`. -/
def returned (tr : List (Event T)) : List T := (sinceReset tr).flatMap Event.returned

theorem accepted_snoc (tr : List (Event T)) (e : Event T) :
    accepted (tr ++ [e]) = if e.isReset then [] else accepted tr ++ e.accepted := by
  rw [accepted, accepted, sinceReset, List.rtakeWhile_concat]
  cases e.isReset <;> simp [sinceReset]

theorem returned_snoc (tr : List (Event T)) (e : Event T) :
    returned (tr ++ [e]) = if e.isReset then [] else returned tr ++ e.returned := by
  rw [returned, returned, sinceReset, List.rtakeWhile_concat]
  cases e.isReset <;> simp [sinceReset]

/-! ### The sliding window -/

/-- What a call does to a queue that takes in a new element as `push` tells. -/
def queueOp (push : List T → T → List T) (q : List T) : Op T → List T
  | .reset => []
  | .write x => push q x
  | .writeBurst new_data btw => (new_data.take btw).foldl push q
  | .read _ => q.drop 1
  | .readBurst data btr => q.drop (min btr data.length)
  | .peek .. | .peekAt .. => q

/-- What a call does to a queue of at most `cap` elements that makes room by discarding the
oldest. -/
def slideOp (cap : ℕ) : List T → Op T → List T :=
  queueOp (BoundedQueue.slide cap)

/-- The sliding window after the calls of a run. -/
def slideAll (cap : ℕ) (tr : List (Event T)) : List T :=
  (tr.map Event.op).foldl (slideOp cap) []

theorem slideAll_snoc (cap : ℕ) (tr : List (Event T)) (e : Event T) :
    slideAll cap (tr ++ [e]) = slideOp cap (slideAll cap tr) e.op := by
  simp [slideAll]

/-! ### Steps -/

/-- Every call keeps the buffer well formed and its policy as it is. -/
theorem Ok.apply (h : b.Ok) (op : Op T) :
    (b.apply op).1.Ok ∧ (b.apply op).1.enable_overwrite_ = b.enable_overwrite_ := by
  cases op with
  | reset => exact ⟨b.reset_ok.1, rfl⟩
  | write x => exact ⟨(h.write x).1, (h.write x).2.2.1⟩
  | writeBurst new_data btw =>
    exact ⟨(h.writeBurst new_data btw).1, (h.writeBurst new_data btw).2.2.1⟩
  | read data => exact ⟨(h.read data).1, (h.read data).2.1⟩
  | readBurst data btr =>
    obtain ⟨taken, -, -, hok, hover, -, -⟩ := h.readBurst data btr
    exact ⟨hok, hover⟩
  | peek | peekAt => exact ⟨h, rfl⟩

theorem Ok.of_run {enable_overwrite : Bool} {tr : List (Event T)}
    (h : (machine T z enable_overwrite).Run tr b) :
    b.Ok ∧ b.enable_overwrite_ = enable_overwrite := by
  refine h.rule (I := fun _ b => b.Ok ∧ b.enable_overwrite_ = enable_overwrite) ?_ ?_
  · rintro _ ⟨raw, rfl⟩
    exact ⟨(construct_ok raw enable_overwrite).1, rfl⟩
  · rintro _ b _ _ ⟨hok, hover⟩ ⟨op, hs⟩
    obtain ⟨rfl, -⟩ := Prod.mk.inj (Option.some.inj hs)
    exact ⟨(hok.apply op).1, (hok.apply op).2.trans hover⟩

theorem contents_reset {op : Op T} (h : (b.event op).isReset = true) :
    (b.apply op).1.contents = [] := by
  cases op with
  | reset => exact b.reset_ok.2
  | write | writeBurst | read | readBurst | peek | peekAt => cases h

/-- With overwriting off, pushing elements one after another appends those that are accepted. -/
theorem Ok.foldl_push (h : b.Ok) (hover : b.enable_overwrite_ = false) (xs : List T) :
    xs.foldl b.push b.contents = b.contents ++ xs.take (b.accepts xs.length) := by
  have hle : b.contents.length ≤ z.card - 1 := by
    rw [length_contents]
    exact Nat.le_sub_one_of_lt h
  rw [push, accepts, hover, if_neg Bool.false_ne_true, if_neg Bool.false_ne_true,
    BoundedQueue.foldl_offer hle, length_contents, List.take_eq_take_min, Nat.min_comm]

/-- With overwriting off, what was queued and what a call accepted is what the call returned and
what is queued now; only `Reset` discards. -/
theorem Ok.apply_reject (h : b.Ok) (hover : b.enable_overwrite_ = false) (op : Op T)
    (hreset : (b.event op).isReset = false) :
    b.contents ++ (b.event op).accepted = (b.event op).returned ++ (b.apply op).1.contents := by
  cases op with
  | reset => cases hreset
  | write x =>
    obtain ⟨-, hcontents, -, hn⟩ := h.write x
    show b.contents ++ [x].take (b.write x).2 = (b.write x).1.contents
    rw [hcontents, hn]
    exact (h.foldl_push hover [x]).symm
  | writeBurst new_data btw =>
    obtain ⟨-, hcontents, -, hn⟩ := h.writeBurst new_data btw
    have hle : b.accepts (min btw new_data.length) ≤ btw := by
      rw [accepts, hover, if_neg Bool.false_ne_true]
      omega
    show b.contents ++ new_data.take (b.writeBurst new_data btw).2 =
      (b.writeBurst new_data btw).1.contents
    rw [hcontents, hn, h.foldl_push hover, List.length_take, List.take_take,
      Nat.min_eq_left hle]
  | read data =>
    obtain ⟨-, -, -, hcontents⟩ := h.read data
    show b.contents ++ [] = [(b.read data).2.1].take (b.read data).2.2 ++ (b.read data).1.contents
    rw [List.append_nil, hcontents]
  | readBurst data btr =>
    obtain ⟨taken, hcontents, -, -, -, hdata, hn⟩ := h.readBurst data btr
    show b.contents ++ [] = (b.readBurst data btr).2.1.take (b.readBurst data btr).2.2 ++
      (b.readBurst data btr).1.contents
    rw [List.append_nil, hdata, hn, List.take_left, hcontents]
  | peek | peekAt => exact List.append_nil _

/-- A single read returns and takes the oldest element. -/
theorem Ok.read_eq (h : b.Ok) (data : T) :
    (b.read data).2.2 = min 1 b.contents.length ∧
      [(b.read data).2.1].take (b.read data).2.2 = b.contents.take 1 ∧
      (b.read data).1.contents = b.contents.drop 1 := by
  obtain ⟨-, -, hn, hcontents⟩ := h.read data
  rw [← length_contents] at hn
  refine ⟨hn, BoundedQueue.eq_take_drop hcontents ?_⟩
  rw [List.length_take, List.length_singleton, hn]
  omega

/-- A burst read returns and takes the oldest elements. -/
theorem Ok.readBurst_eq (h : b.Ok) (data : List T) (btr : ℕ) :
    (b.readBurst data btr).2.2 = min btr (min data.length b.contents.length) ∧
      (b.readBurst data btr).2.1.take (b.readBurst data btr).2.2 =
        b.contents.take (min btr data.length) ∧
      (b.readBurst data btr).1.contents = b.contents.drop (min btr data.length) := by
  obtain ⟨taken, hcontents, hlen, -, -, hdata, hn⟩ := h.readBurst data btr
  rw [← length_contents] at hlen
  rw [hdata, hn, List.take_left]
  exact ⟨hlen.trans (Nat.min_assoc ..), BoundedQueue.eq_take_drop hcontents hlen⟩

/-- A call does to the contents what it does to the queue. -/
theorem Ok.apply_queue (h : b.Ok) (op : Op T) :
    (b.apply op).1.contents = queueOp b.push b.contents op := by
  cases op with
  | reset => exact b.reset_ok.2
  | write x => exact (h.write x).2.1
  | writeBurst new_data btw => exact (h.writeBurst new_data btw).2.1
  | read data => exact (h.read_eq data).2.2
  | readBurst data btr => exact (h.readBurst_eq data btr).2.2
  | peek | peekAt => rfl

/-- With overwriting on, a call does to the contents what it does to the sliding window. -/
theorem Ok.apply_slide (h : b.Ok) (hover : b.enable_overwrite_ = true) (op : Op T) :
    (b.apply op).1.contents = slideOp (z.card - 1) b.contents op := by
  have hpush : b.push = BoundedQueue.slide (z.card - 1) := by
    rw [push, hover, if_pos rfl]
  rw [slideOp, ← hpush]
  exact h.apply_queue op

/-! ### Whole runs -/

/-- **Overwriting off: a lossless bounded queue.** After every run, the elements accepted since the
last `Reset` are those returned since then, followed by the queued ones. The next write accepts
what there is room for and the next read returns what is there, both clamped to the caller's
vector, and a burst read changes only the entries it counts. -/
theorem lossless_fifo {tr : List (Event T)} (h : (machine T z false).Run tr b) :
    accepted tr = returned tr ++ b.contents ∧
    (∀ x, (b.write x).2 = min 1 (z.card - 1 - b.contents.length)) ∧
    (∀ new_data btw, (b.writeBurst new_data btw).2 =
      min btw (min new_data.length (z.card - 1 - b.contents.length))) ∧
    (∀ data, (b.read data).2.2 = min 1 b.contents.length) ∧
    ∀ data btr,
      (b.readBurst data btr).2.2 = min btr (min data.length b.contents.length) ∧
      (b.readBurst data btr).2.1.length = data.length ∧
      (b.readBurst data btr).2.1.drop (b.readBurst data btr).2.2 =
        data.drop (b.readBurst data btr).2.2 := by
  obtain ⟨hok, hover⟩ := Ok.of_run h
  refine ⟨?_, ?_, ?_, ?_, ?_⟩
  · refine h.rule_of (I := fun tr b => accepted tr = returned tr ++ b.contents) Ok.of_run ?_ ?_
    · rintro _ ⟨raw, rfl⟩
      exact (construct_ok raw false).2.symm
    · rintro tr b _ _ ⟨hok, hover⟩ ih ⟨op, hs⟩
      obtain ⟨rfl, rfl⟩ := Prod.mk.inj (Option.some.inj hs)
      rw [accepted_snoc, returned_snoc]
      cases hreset : (b.event op).isReset with
      | true => exact (contents_reset hreset).symm
      | false =>
        simp only [Bool.false_eq_true, if_false]
        rw [ih, List.append_assoc, hok.apply_reject hover op hreset, List.append_assoc]
  · intro x
    rw [(hok.write x).2.2.2, accepts, hover, if_neg Bool.false_ne_true, length_contents]
  · intro new_data btw
    rw [(hok.writeBurst new_data btw).2.2.2, accepts, hover, if_neg Bool.false_ne_true,
      length_contents, Nat.min_assoc]
  · intro data
    exact (hok.read_eq data).1
  · intro data btr
    obtain ⟨taken, -, hlen, -, -, hdata, hn⟩ := hok.readBurst data btr
    refine ⟨(hok.readBurst_eq data btr).1, ?_, ?_⟩
    · rw [hdata, List.length_append, List.length_drop]
      omega
    · rw [hdata, hn, List.drop_left]

/-- A buffer of four elements. -/
def fourSlots : Pow2Size := ⟨4, 2, by decide, rfl⟩

/-- A run of a buffer of four elements, whose first calls are before its last `Reset`. -/
def smallRun (enable_overwrite : Bool) : Option (List (Event ℕ) × RingBuffer ℕ fourSlots) :=
  (machine ℕ fourSlots enable_overwrite).exec
    (construct (Vector.replicate _ 0) enable_overwrite)
    [.write 8, .write 9, .reset, .writeBurst [1, 2, 3, 4, 5] 9, .read 0, .write 6,
      .peek [0, 0] 1, .readBurst [0, 0, 0] 2]

theorem smallRun_isSome (enable_overwrite : Bool) : (smallRun enable_overwrite).isSome := rfl

theorem smallRun_run (enable_overwrite : Bool) :
    (machine ℕ fourSlots enable_overwrite).Run
      ((smallRun enable_overwrite).get (smallRun_isSome _)).1
      ((smallRun enable_overwrite).get (smallRun_isSome _)).2 :=
  ⟨_, ⟨_, rfl⟩, .of_exec_get _⟩

theorem lossless_fifo_small :
    accepted ((smallRun false).get (smallRun_isSome _)).1 = [1, 2, 3, 6] ∧
    returned ((smallRun false).get (smallRun_isSome _)).1 = [1, 2, 3] ∧
    accepted ((smallRun false).get (smallRun_isSome _)).1 =
      returned ((smallRun false).get (smallRun_isSome _)).1 ++
        ((smallRun false).get (smallRun_isSome _)).2.contents :=
  ⟨by decide +kernel, by decide +kernel, (lossless_fifo (smallRun_run false)).1⟩

/-- **Overwriting on: a sliding window.** After every run the queued elements are those of the
sliding window. The next write returns its whole clamped count, and the next read returns the
oldest elements of the window, as many as are asked for, fit and are there. -/
theorem sliding_window {tr : List (Event T)} (h : (machine T z true).Run tr b) :
    b.contents = slideAll (z.card - 1) tr ∧
    (∀ x, (b.write x).2 = 1) ∧
    (∀ new_data btw, (b.writeBurst new_data btw).2 = min btw new_data.length) ∧
    (∀ data, (b.read data).2.2 = min 1 (slideAll (z.card - 1) tr).length ∧
      [(b.read data).2.1].take (b.read data).2.2 = (slideAll (z.card - 1) tr).take 1) ∧
    ∀ data btr,
      (b.readBurst data btr).2.2 = min btr (min data.length (slideAll (z.card - 1) tr).length) ∧
      (b.readBurst data btr).2.1.take (b.readBurst data btr).2.2 =
        (slideAll (z.card - 1) tr).take (min btr data.length) := by
  obtain ⟨hok, hover⟩ := Ok.of_run h
  have hcontents : b.contents = slideAll (z.card - 1) tr := by
    refine h.rule_of (I := fun tr b => b.contents = slideAll (z.card - 1) tr) Ok.of_run ?_ ?_
    · rintro _ ⟨raw, rfl⟩
      exact (construct_ok raw true).2
    · rintro tr b _ _ ⟨hok, hover⟩ ih ⟨op, hs⟩
      obtain ⟨rfl, rfl⟩ := Prod.mk.inj (Option.some.inj hs)
      rw [slideAll_snoc, ← ih]
      exact hok.apply_slide hover op
  rw [← hcontents]
  refine ⟨rfl, ?_, ?_, ?_, ?_⟩
  · intro x
    rw [(hok.write x).2.2.2, accepts, hover, if_pos rfl]
  · intro new_data btw
    rw [(hok.writeBurst new_data btw).2.2.2, accepts, hover, if_pos rfl]
  · intro data
    obtain ⟨hn, hreturned, -⟩ := hok.read_eq data
    exact ⟨hn, hreturned⟩
  · intro data btr
    obtain ⟨hn, hreturned, -⟩ := hok.readBurst_eq data btr
    exact ⟨hn, hreturned⟩

theorem sliding_window_small :
    slideAll 3 ((smallRun true).get (smallRun_isSome _)).1 = [6] ∧
    ((smallRun true).get (smallRun_isSome _)).2.contents =
      slideAll 3 ((smallRun true).get (smallRun_isSome _)).1 :=
  ⟨by decide +kernel, (sliding_window (smallRun_run true)).1⟩

end RingBuffer

end XmSigma
