import XmSigma.Container.RingBufferThrowing
import XmSigma.Lib.Past

/-!
# When a failed copy leaves a `RingBuffer` intact

A call that ends with an exception for element `i` should have written or taken the `i` elements
before and nothing else. It hardly ever does: the index was bumped before the assignment that
threw, so a failed write queues what that assignment left in the slot, and a failed read loses the
element it did not deliver. Only a write that makes room in a queue of nothing but what is left
changes nothing.

## Main definitions

* `RingBuffer.Intact`: a failed call has done the elements before the one it failed at
* `RingBuffer.Harmless`: no assignment of the call throws, or it is such a write
* `RingBuffer.tryMachine`: the calls as steps

## Main results

* `Ok.intact_iff`: the two are the same
* `Kept.of_run`: what a run of harmless calls keeps
* `failed_copy_iff`: what this says of runs
* `failed_write_queues`: a run of one failed write
-/

namespace XmSigma

namespace RingBuffer

variable {T : Type*} {z : Pow2Size} {b : RingBuffer T z} {op : Op T} {faults : Faults T} {i : ℕ}
  {left : T}

/-! ### What a failed call should have done -/

/-- The queue when a call has done its first `i` elements. -/
def upTo (push : List T → T → List T) (q : List T) (i : ℕ) : Op T → List T
  | .writeBurst new_data _ => (new_data.take i).foldl push q
  | .readBurst .. => q.drop i
  | .reset | .write _ | .read _ | .peek .. | .peekAt .. => q

/-- If the call ends with an exception for element `i`, the queue is as the elements before have
left it, and what is then the oldest element is what the next read returns. -/
def Intact (b : RingBuffer T z) (op : Op T) (faults : Faults T) : Prop :=
  ∀ i, (tryApply faults b op).2.2 = .error i →
    (tryApply faults b op).1.contents = upTo b.push b.contents i op ∧
    ∀ data, [((tryApply faults b op).1.read data).2.1].take
      ((tryApply faults b op).1.read data).2.2 = (upTo b.push b.contents i op).take 1

/-- Failing at element `i` and leaving `left` does no harm to a write if the queue is then full of
`left`, and to a peek. -/
def HarmlessAt (b : RingBuffer T z) (op : Op T) (i : ℕ) (left : T) : Prop :=
  match op with
  | .write _ | .writeBurst .. =>
    upTo b.push b.contents i op = List.replicate (z.card - 1) left
  | .read _ | .readBurst .. => False
  | .reset | .peek .. | .peekAt .. => True

/-- No assignment that the call makes throws, or it does no harm. -/
def Harmless (b : RingBuffer T z) (op : Op T) (faults : Faults T) : Prop :=
  ∀ i left, b.FailsAt op faults i left → b.HarmlessAt op i left

/-! ### When it has -/

/-- A buffer that accepts an element keeps its contents only if they are full of it. -/
theorem Ok.push_eq_self_iff (h : b.Ok) (hpos : b.accepts 1 ≠ 0) (x : T) :
    b.push b.contents x = b.contents ↔ b.contents = List.replicate (z.card - 1) x := by
  have hle : b.contents.length ≤ z.card - 1 := by
    rw [length_contents]
    exact Nat.le_sub_one_of_lt h
  rw [push]
  split
  · exact BoundedQueue.slide_eq_self_iff hle x
  · next hover =>
    have hlt : b.contents.length < z.card - 1 := by
      by_contra hge
      rw [length_contents] at hge
      exact hpos (accepts_one_eq_zero_iff.mpr ⟨by simpa using hover, by omega⟩)
    rw [BoundedQueue.offer_of_lt hlt]
    refine ⟨fun heq => by simpa using congrArg List.length heq, fun heq => ?_⟩
    rw [heq, List.length_replicate] at hlt
    exact absurd hlt (lt_irrefl _)

/-- A buffer that accepts more than `i` elements accepts another one after the first `i`. -/
theorem Ok.accepts_writeLoop (h : b.Ok) {n : ℕ} (hi : i < b.accepts n) (xs : List T) :
    (b.writeLoop 0 (xs.take i)).1.accepts 1 ≠ 0 := by
  obtain ⟨hok, hcontents, hover, -⟩ := h.writeLoop (xs.take i) 0
  intro hzero
  obtain ⟨hflag, hfull⟩ := accepts_one_eq_zero_iff.mp hzero
  rw [hover] at hflag
  rw [accepts, hflag, if_neg Bool.false_ne_true] at hi
  have hlen := congrArg List.length (hcontents.trans (h.foldl_push hflag (xs.take i)))
  rw [length_contents, List.length_append, length_contents, List.length_take,
    List.length_take] at hlen
  omega

/-- A failed call does what it should have done exactly where it does no harm. -/
theorem Ok.afterFailure_eq_iff (h : b.Ok) (hfails : b.FailsAt op faults i left) :
    afterFailure b.push b.contents i left op = upTo b.push b.contents i op ↔
      b.HarmlessAt op i left := by
  have hcopies := hfails.1
  cases op with
  | write x => exact h.push_eq_self_iff (Nat.ne_of_gt (Nat.zero_lt_of_lt hcopies)) left
  | writeBurst new_data btw =>
    obtain ⟨hok, hcontents, hover, -⟩ := h.writeLoop (new_data.take i) 0
    have hiff := hok.push_eq_self_iff (h.accepts_writeLoop hcopies new_data) left
    rw [push_congr hover, hcontents] at hiff
    exact hiff
  | read data =>
    have hpos : 0 < b.occupied := (Nat.zero_lt_of_lt hcopies).trans_le (Nat.min_le_right ..)
    refine ⟨fun heq => ?_, False.elim⟩
    have hlen := congrArg List.length heq
    simp only [afterFailure, upTo, List.length_drop, length_contents] at hlen
    omega
  | readBurst data btr =>
    have hlt : i < b.occupied := hcopies.trans_le (Nat.min_le_right ..)
    refine ⟨fun heq => ?_, False.elim⟩
    have hlen := congrArg List.length heq
    simp only [afterFailure, upTo, List.length_drop, length_contents] at hlen
    omega
  | reset | peek | peekAt => exact ⟨fun _ => trivial, fun _ => rfl⟩

/-- **A call leaves the buffer intact** if and only if it does no harm. -/
theorem Ok.intact_iff (h : b.Ok) (op : Op T) (faults : Faults T) :
    b.Intact op faults ↔ b.Harmless op faults := by
  constructor
  · intro hintact i left hfails
    rcases h.tryApply op faults with ⟨hnone, -⟩ | ⟨i', left', hfails', herror, -, -, hcontents⟩
    · exact absurd hfails (hnone i left)
    · obtain ⟨rfl, rfl⟩ := hfails.unique hfails'
      exact (h.afterFailure_eq_iff hfails).mp (hcontents.symm.trans (hintact i herror).1)
  · intro hharmless i herror
    rcases h.tryApply op faults with ⟨-, heq⟩ | ⟨i', left, hfails, herror', hok, -, hcontents⟩
    · rw [heq] at herror
      cases herror
    · obtain rfl : i' = i := Except.error.inj (herror'.symm.trans herror)
      have hupTo := hcontents.trans
        ((h.afterFailure_eq_iff hfails).mpr (hharmless i' left hfails))
      exact ⟨hupTo, fun data => by rw [(hok.read_eq data).2.1, hupTo]⟩

/-! ### Runs -/

/-- A call, how its assignments went, the caller's elements when it ended, and how it ended. -/
structure Attempt (T : Type*) (z : Pow2Size) where
  before : RingBuffer T z
  op : Op T
  faults : Faults T
  data : List T
  result : Except ℕ ℕ

/-- The record of a call. -/
def attempt (b : RingBuffer T z) (op : Op T) (faults : Faults T) : Attempt T z :=
  ⟨b, op, faults, (tryApply faults b op).2.1, (tryApply faults b op).2.2⟩

/-- The calls as steps, on a buffer that was constructed with the given policy. -/
def tryMachine (T : Type*) (z : Pow2Size) (enable_overwrite : Bool) :
    Machine (RingBuffer T z) (Op T × Faults T) (Attempt T z) where
  init b := ∃ raw, b = construct raw enable_overwrite
  step b call := some ((tryApply call.2 b call.1).1, b.attempt call.1 call.2)

namespace Attempt

/-- How many elements the call is through with. -/
def count (e : Attempt T z) : ℕ :=
  match e.result with
  | .ok n => n
  | .error i => i

/-- The elements whose assignment by a write succeeded. -/
def written (e : Attempt T z) : List T :=
  match e.op with
  | .write _ | .writeBurst .. => e.data.take e.count
  | _ => []

/-- The elements that a read returned. -/
def returned (e : Attempt T z) : List T :=
  match e.op with
  | .read _ | .readBurst .. => e.data.take e.count
  | _ => []

end Attempt

theorem Ok.tryApply_ok (h : b.Ok) (op : Op T) (faults : Faults T) :
    (RingBuffer.tryApply faults b op).1.Ok ∧
      (RingBuffer.tryApply faults b op).1.enable_overwrite_ = b.enable_overwrite_ := by
  rcases h.tryApply op faults with ⟨-, heq⟩ | ⟨-, -, -, -, hok, hover, -⟩
  · rw [heq]
    exact h.apply op
  · exact ⟨hok, hover⟩

theorem Ok.of_tryRun {enable_overwrite : Bool} {tr : List (Attempt T z)}
    (h : (tryMachine T z enable_overwrite).Run tr b) : b.Ok := by
  refine h.rule (I := fun _ b => b.Ok) ?_ ?_
  · rintro _ ⟨raw, rfl⟩
    exact (construct_ok raw enable_overwrite).1
  · rintro _ b _ _ hok ⟨call, hs⟩
    obtain ⟨rfl, -⟩ := Prod.mk.inj (Option.some.inj hs)
    exact (hok.tryApply_ok call.1 call.2).1

theorem mem_push {q : List T} {x y : T} (h : y ∈ b.push q x) : y ∈ q ∨ y = x := by
  rw [push] at h
  split at h
  · exact BoundedQueue.mem_slide h
  · exact BoundedQueue.mem_offer h

theorem mem_foldl_push {xs q : List T} {y : T} (h : y ∈ xs.foldl b.push q) : y ∈ q ∨ y ∈ xs := by
  induction xs generalizing q with
  | nil => exact .inl h
  | cons x xs ih =>
    rcases ih h with hq | hxs
    · rcases mem_push hq with hq | rfl
      · exact .inl hq
      · exact .inr List.mem_cons_self
    · exact .inr (.tail _ hxs)

/-- What a call that goes through leaves queued was queued before, or the call accepted it. -/
theorem Ok.mem_apply (h : b.Ok) {x : T} (hx : x ∈ (b.apply op).1.contents) :
    x ∈ b.contents ∨ x ∈ (b.event op).accepted := by
  cases hreset : (b.event op).isReset with
  | true =>
    rw [contents_reset hreset] at hx
    cases hx
  | false =>
    cases hover : b.enable_overwrite_ with
    | false =>
      have hmem : x ∈ b.contents ++ (b.event op).accepted := by
        rw [h.apply_reject hover op hreset]
        exact List.mem_append_right _ hx
      exact List.mem_append.mp hmem
    | true =>
      have hall : ∀ n, b.accepts n = n := fun n => by rw [accepts, hover, if_pos rfl]
      rw [h.apply_queue op] at hx
      cases op with
      | reset => cases hreset
      | write y =>
        refine (mem_push hx).imp_right fun heq => ?_
        show x ∈ [y].take (b.write y).2
        rw [(h.write y).2.2.2, hall, heq]
        exact List.mem_singleton_self y
      | writeBurst new_data btw =>
        refine (mem_foldl_push hx).imp_right fun hmem => ?_
        show x ∈ new_data.take (b.writeBurst new_data btw).2
        rwa [(h.writeBurst new_data btw).2.2.2, hall, ← List.take_eq_take_min]
      | read data => exact .inl (List.mem_of_mem_drop hx)
      | readBurst data btr => exact .inl (List.mem_of_mem_drop hx)
      | peek | peekAt => exact .inl hx

/-- What a call that goes through returns was queued. -/
theorem Ok.returned_subset (h : b.Ok) {x : T} (hx : x ∈ (b.event op).returned) :
    x ∈ b.contents := by
  cases op with
  | read data =>
    have hmem : x ∈ [(b.read data).2.1].take (b.read data).2.2 := hx
    rw [(h.read_eq data).2.1] at hmem
    exact List.mem_of_mem_take hmem
  | readBurst data btr =>
    have hmem : x ∈ (b.readBurst data btr).2.1.take (b.readBurst data btr).2.2 := hx
    rw [(h.readBurst_eq data btr).2.1] at hmem
    exact List.mem_of_mem_take hmem
  | reset | write | writeBurst | peek | peekAt => cases hx

/-- A call that goes through writes and returns what it does where nothing can throw. -/
theorem attempt_eq (h : RingBuffer.tryApply faults b op =
    ((b.apply op).1, (b.apply op).2.1, .ok (b.apply op).2.2)) :
    (b.attempt op faults).written = (b.event op).accepted ∧
      (b.attempt op faults).returned = (b.event op).returned := by
  rw [attempt, h]
  cases op <;> exact ⟨rfl, rfl⟩

/-- What a harmless call leaves queued was queued before, or the call has written it; and what it
returns was queued. -/
theorem Ok.mem_tryApply (h : b.Ok) (hharmless : b.Harmless op faults) {x : T} :
    (x ∈ (RingBuffer.tryApply faults b op).1.contents →
      x ∈ b.contents ∨ x ∈ (b.attempt op faults).written) ∧
    (x ∈ (b.attempt op faults).returned → x ∈ b.contents) := by
  rcases h.tryApply op faults with ⟨-, heq⟩ | ⟨i, left, hfails, herror, -, -, hcontents⟩
  · obtain ⟨hwritten, hreturned⟩ := attempt_eq heq
    rw [hwritten, hreturned, heq]
    exact ⟨h.mem_apply, h.returned_subset⟩
  · have hat := hharmless i left hfails
    have hcount : (b.attempt op faults).count = i := by
      rw [Attempt.count, attempt, herror]
    rw [hcontents, (h.afterFailure_eq_iff hfails).mpr hat]
    cases op with
    | writeBurst new_data btw =>
      refine ⟨fun hx => (mem_foldl_push hx).imp_right fun hmem => ?_, fun hx => ?_⟩
      · show x ∈ new_data.take (b.attempt (.writeBurst new_data btw) faults).count
        rwa [hcount]
      · cases hx
    | read | readBurst => exact hat.elim
    | reset | write | peek | peekAt => exact ⟨.inl, fun hx => by cases hx⟩

/-- What a run of harmless calls keeps: failed calls have left the buffer intact, and all that is
queued or was returned had been written. -/
structure Kept (tr : List (Attempt T z)) (b : RingBuffer T z) : Prop where
  intact : ∀ e ∈ tr, e.before.Intact e.op e.faults
  returned : Past.Always (fun before e => ∀ x ∈ e.returned, x ∈ before.flatMap Attempt.written) tr
  contents : ∀ x ∈ b.contents, x ∈ tr.flatMap Attempt.written

theorem Kept.step {tr : List (Attempt T z)} (h : Kept tr b) (hok : b.Ok)
    (hharmless : b.Harmless op faults) :
    Kept (tr ++ [b.attempt op faults]) (tryApply faults b op).1 where
  intact := List.forall_mem_append.mpr
    ⟨h.intact, List.forall_mem_singleton.mpr ((hok.intact_iff op faults).mpr hharmless)⟩
  returned := (Past.always_snoc ..).mpr
    ⟨h.returned, fun x hx => h.contents x ((hok.mem_tryApply hharmless).2 hx)⟩
  contents x hx := by
    rw [List.flatMap_append, List.mem_append]
    refine ((hok.mem_tryApply hharmless).1 hx).imp (h.contents x) fun hwritten => ?_
    exact List.mem_flatMap.mpr ⟨_, List.mem_singleton_self _, hwritten⟩

theorem Kept.of_run {enable_overwrite : Bool} {tr : List (Attempt T z)}
    (h : (tryMachine T z enable_overwrite).Run tr b)
    (hharmless : ∀ e ∈ tr, e.before.Harmless e.op e.faults) : Kept tr b := by
  obtain ⟨_, ⟨raw, rfl⟩, hp⟩ := h
  obtain ⟨hok, hcontents⟩ := construct_ok raw enable_overwrite
  have hkept : Kept [] (construct raw enable_overwrite) :=
    ⟨fun e he => absurd he List.not_mem_nil, Past.always_nil _, by simp [hcontents]⟩
  refine (hp.rule (I := fun tr b => b.Ok ∧ Kept tr b) hharmless ⟨hok, hkept⟩ ?_).2
  rintro tr b _ _ hthis ⟨hok, hkept⟩ ⟨⟨op, faults⟩, hs⟩
  obtain ⟨rfl, rfl⟩ := Prod.mk.inj (Option.some.inj hs)
  exact ⟨(hok.tryApply_ok op faults).1, hkept.step hok hthis⟩

/-- **Failed copies.** In every state of every run, whatever failed before, a call leaves the
buffer intact if and only if it does no harm. In a run of calls that do no harm every failed call
leaves the buffer intact, and every element that a read returns was put there by a write before,
whose assignment of it succeeded. -/
theorem failed_copy_iff {enable_overwrite : Bool} {tr : List (Attempt T z)}
    (h : (tryMachine T z enable_overwrite).Run tr b) :
    (∀ op faults, b.Intact op faults ↔ b.Harmless op faults) ∧
    ((∀ e ∈ tr, e.before.Harmless e.op e.faults) →
      (∀ e ∈ tr, e.before.Intact e.op e.faults) ∧
      Past.Always (fun before e => ∀ x ∈ e.returned, x ∈ before.flatMap Attempt.written) tr) := by
  refine ⟨(Ok.of_tryRun h).intact_iff, fun hharmless => ?_⟩
  have hkept := Kept.of_run h hharmless
  exact ⟨hkept.intact, hkept.returned⟩

/-- A buffer of two elements. -/
def twoSlots : Pow2Size := .two

/-- A write of 5, a write of 7 that fails and leaves another 5, and a read. -/
def failedRun : Option (List (Attempt ℕ twoSlots) × RingBuffer ℕ twoSlots) :=
  (tryMachine ℕ twoSlots true).exec (construct (Vector.replicate _ 0) true)
    [(.write 5, fun _ => none), (.write 7, fun _ => some 5), (.read 0, fun _ => none)]

theorem failedRun_isSome : failedRun.isSome := rfl

theorem failed_copy_iff_small :
    Past.Always (fun before e => ∀ x ∈ e.returned, x ∈ before.flatMap Attempt.written)
      (failedRun.get failedRun_isSome).1 := by
  have hrun : (tryMachine ℕ twoSlots true).Run (failedRun.get failedRun_isSome).1
      (failedRun.get failedRun_isSome).2 := ⟨_, ⟨_, rfl⟩, .of_exec_get _⟩
  refine ((failed_copy_iff hrun).2 fun e he => ?_).2
  have hnone : ∀ (b : RingBuffer ℕ twoSlots) op, b.Harmless op fun _ => none :=
    fun _ _ _ _ hfails => absurd hfails.2.2 (Option.some_ne_none _).symm
  obtain rfl | rfl | rfl : e = _ ∨ e = _ ∨ e = _ := by
    simpa [failedRun, Machine.exec, tryMachine] using he
  · exact hnone _ _
  · rintro i left ⟨-, -, hleft⟩
    cases hleft
    show (tryApply (fun _ => none) (construct (Vector.replicate twoSlots.card 0) true)
      (.write 5)).1.contents = [5]
    decide +kernel
  · exact hnone _ _

/-- **A failed write queues an element**: in an empty buffer, the one its slot held. -/
theorem failed_write_queues :
    ¬ ∀ (z : Pow2Size) (enable_overwrite : Bool) (tr : List (Attempt ℕ z)) (b : RingBuffer ℕ z),
      (tryMachine ℕ z enable_overwrite).Run tr b → ∀ op faults, b.Intact op faults := by
  intro h
  have hrun : (tryMachine ℕ fourSlots false).Run [] (construct (Vector.replicate _ 0) false) :=
    ⟨_, ⟨_, rfl⟩, .refl⟩
  obtain ⟨hcontents, -⟩ := h fourSlots false _ _ hrun (.write 7) (fun _ => some 0) 0 rfl
  exact absurd hcontents (by decide +kernel)

end RingBuffer

end XmSigma
