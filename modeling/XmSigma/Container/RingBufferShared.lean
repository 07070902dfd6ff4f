import XmSigma.Container.RingBufferObservers

/-!
# One producer and one consumer on a `RingBuffer`

Two threads share a buffer with overwriting off. The producer calls `Write` and the size queries,
the consumer `Read`, `Peek`, `PeekAt` and the size queries; nobody calls `Reset`. Between a look
at the buffer and the access that relies on it the lock is released, so the other thread may do
anything. What the look found is still good: the consumer only makes room, the producer only
appends, and nothing but the consumer's reads takes from the front.

## Main definitions

* `RingBuffer.shared`: the two threads as a machine
* `RingBuffer.requested`: how many elements the reads of a path asked for

## Main results

* `Fifo.of_path`: reads take from the front and in order, writes append
* `check_then_act`: what a look promises to the accesses that follow
-/

namespace XmSigma

namespace RingBuffer

variable {T : Type*} {z : Pow2Size} {b b₁ b₂ : RingBuffer T z}

/-! ### Two threads -/

/-- The two threads. -/
inductive Thread
  | producer
  | consumer
  deriving DecidableEq

/-- The size queries. -/
inductive Query
  | isEmpty
  | isFull
  | getFreeSize
  | getOccupiedSize
  deriving DecidableEq

/-- The answer to a query; a `bool` is 0 or 1. -/
def answer (b : RingBuffer T z) : Query → ℕ
  | .isEmpty => b.isEmpty.toNat
  | .isFull => b.isFull.toNat
  | .getFreeSize => b.getFreeSize.toNat
  | .getOccupiedSize => b.getOccupiedSize.toNat

namespace Op

/-- An operation that stores. -/
def isWrite : Op T → Bool
  | .write _ | .writeBurst .. => true
  | _ => false

/-- An operation that takes what it returns. -/
def isRead : Op T → Bool
  | .read _ | .readBurst .. => true
  | _ => false

/-- What a thread may call besides the queries. -/
def allowed (op : Op T) : Thread → Bool
  | .producer => op.isWrite
  | .consumer =>
    match op with
    | .peek .. | .peekAt .. => true
    | _ => op.isRead

/-- How many elements a read asks for, as far as they fit. -/
def requested : Op T → ℕ
  | .read _ => 1
  | .readBurst data btr => min btr data.length
  | _ => 0

end Op

/-- What a thread does under the lock. -/
inductive SharedOp (T : Type*)
  | call (thread : Thread) (op : Op T)
  | ask (thread : Thread) (query : Query)

/-- The same with its outcome. -/
inductive SharedEvent (T : Type*)
  | call (thread : Thread) (e : Event T)
  | ask (thread : Thread) (query : Query) (n : ℕ)

/-- The two threads on one buffer. -/
def shared (T : Type*) (z : Pow2Size) : Machine (RingBuffer T z) (SharedOp T) (SharedEvent T) where
  init b := ∃ raw, b = construct raw false
  step b
    | .call thread op =>
      if op.allowed thread then some ((b.apply op).1, .call thread (b.event op)) else none
    | .ask thread query => some (b, .ask thread query (b.answer query))

/-- What a step of the two threads can be. -/
theorem shared_cases {e : SharedEvent T} (hs : (shared T z).Step b e b₁) :
    (∃ thread op, op.allowed thread = true ∧ b₁ = (b.apply op).1 ∧
      e = .call thread (b.event op)) ∨
    ∃ thread query, b₁ = b ∧ e = .ask thread query (b.answer query) := by
  obtain ⟨a, ha⟩ := hs
  cases a with
  | call thread op =>
    simp only [shared] at ha
    split at ha <;> cases ha
    next hallowed => exact .inl ⟨thread, op, hallowed, rfl, rfl⟩
  | ask thread query =>
    cases ha
    exact .inr ⟨thread, query, rfl, rfl⟩

theorem shared_answer {thread : Thread} {query : Query} {n : ℕ}
    (hs : (shared T z).Step b (.ask thread query n) b₁) : b₁ = b ∧ n = b.answer query := by
  rcases shared_cases hs with ⟨thread, op, -, -, he⟩ | ⟨thread, query, rfl, he⟩
  · cases he
  · cases he
    exact ⟨rfl, rfl⟩

theorem shared_outcome {thread : Thread} {op : Op T} {data : List T} {n : ℕ}
    (hs : (shared T z).Step b (.call thread ⟨op, data, n⟩) b₁) : b.apply op = (b₁, data, n) := by
  rcases shared_cases hs with ⟨thread, op, -, rfl, he⟩ | ⟨thread, query, -, he⟩
  · obtain ⟨-, he⟩ := SharedEvent.call.inj he
    obtain ⟨rfl, rfl, rfl⟩ := Event.mk.inj he
    rfl
  · cases he

namespace SharedEvent

/-- The elements a call accepted. -/
def accepted : SharedEvent T → List T
  | .call _ e => e.accepted
  | .ask .. => []

/-- The elements a call returned. -/
def returned : SharedEvent T → List T
  | .call _ e => e.returned
  | .ask .. => []

/-- How many elements a call asked for. -/
def requested : SharedEvent T → ℕ
  | .call _ e => e.op.requested
  | .ask .. => 0

/-- It was a write. -/
def isWrite : SharedEvent T → Bool
  | .call _ e => e.op.isWrite
  | .ask .. => false

/-- It was a read. -/
def isRead : SharedEvent T → Bool
  | .call _ e => e.op.isRead
  | .ask .. => false

end SharedEvent

/-! ### What a path does to the queue -/

/-- The elements that the writes of a path have stored. -/
def stored (tr : List (SharedEvent T)) : List T := tr.flatMap SharedEvent.accepted

/-- The elements that the reads of a path have taken. -/
def taken (tr : List (SharedEvent T)) : List T := tr.flatMap SharedEvent.returned

/-- How many elements they asked for. -/
def requested (tr : List (SharedEvent T)) : ℕ := (tr.map SharedEvent.requested).sum

section
variable (tr : List (SharedEvent T)) (e : SharedEvent T)

@[simp] theorem stored_snoc : stored (tr ++ [e]) = stored tr ++ e.accepted := by simp [stored]

@[simp] theorem taken_snoc : taken (tr ++ [e]) = taken tr ++ e.returned := by simp [taken]

@[simp] theorem requested_snoc : requested (tr ++ [e]) = requested tr + e.requested := by
  simp [requested]

end

/-- From `q` on: the reads of a path have taken from the front and in order, as many elements as
they asked for as long as `q` lasted, and the writes have appended. -/
structure Fifo (q : List T) (tr : List (SharedEvent T)) (b : RingBuffer T z) : Prop where
  flow : q ++ stored tr = taken tr ++ b.contents
  taken_le : (taken tr).length ≤ requested tr
  le_taken : min (requested tr) q.length ≤ (taken tr).length

/-- How many elements a call returns. -/
theorem Ok.length_returned (h : b.Ok) (op : Op T) :
    (b.event op).returned.length = min op.requested b.contents.length := by
  cases op with
  | read data =>
    obtain ⟨-, hreturned, -⟩ := h.read_eq data
    show ([(b.read data).2.1].take (b.read data).2.2).length = _
    rw [hreturned, List.length_take]
    rfl
  | readBurst data btr =>
    obtain ⟨-, hreturned, -⟩ := h.readBurst_eq data btr
    show ((b.readBurst data btr).2.1.take (b.readBurst data btr).2.2).length = _
    rw [hreturned, List.length_take]
    rfl
  | _ => exact (Nat.zero_min _).symm

theorem Op.not_isReset {op : Op T} {thread : Thread} (h : op.allowed thread = true) :
    (b.event op).isReset = false := by
  cases op with
  | reset => cases thread <;> cases h
  | _ => rfl

/-- A state of the two threads: the buffer is well formed and refuses what does not fit. -/
def Rejecting (b : RingBuffer T z) : Prop := b.Ok ∧ b.enable_overwrite_ = false

theorem Rejecting.step {e : SharedEvent T} (h : b.Rejecting) (hs : (shared T z).Step b e b₁) :
    b₁.Rejecting := by
  rcases shared_cases hs with ⟨thread, op, -, rfl, -⟩ | ⟨thread, query, rfl, -⟩
  · exact ⟨(h.1.apply op).1, (h.1.apply op).2.trans h.2⟩
  · exact h

theorem Rejecting.of_run {tr : List (SharedEvent T)} (h : (shared T z).Run tr b) :
    b.Rejecting := by
  refine h.rule (I := fun _ b => b.Rejecting) ?_ fun h hs => h.step hs
  rintro _ ⟨raw, rfl⟩
  exact ⟨(construct_ok raw false).1, rfl⟩

theorem Fifo.step {q : List T} {tr : List (SharedEvent T)} {e : SharedEvent T}
    (h : Fifo q tr b) (hb : b.Rejecting) (hs : (shared T z).Step b e b₁) :
    Fifo q (tr ++ [e]) b₁ := by
  obtain ⟨hflow, hle, hge⟩ := h
  have hlen := congrArg List.length hflow
  rw [List.length_append, List.length_append] at hlen
  rcases shared_cases hs with ⟨thread, op, hallowed, rfl, rfl⟩ | ⟨thread, query, rfl, rfl⟩
  · have hstep := hb.1.apply_reject hb.2 op (Op.not_isReset hallowed)
    have hcount : (SharedEvent.call thread (b.event op)).returned.length =
        min (SharedEvent.call thread (b.event op)).requested b.contents.length :=
      hb.1.length_returned op
    refine ⟨?_, ?_, ?_⟩
    · rw [stored_snoc, taken_snoc, ← List.append_assoc, hflow, List.append_assoc,
        List.append_assoc]
      exact congrArg _ hstep
    · rw [taken_snoc, requested_snoc, List.length_append]
      omega
    · rw [taken_snoc, requested_snoc, List.length_append]
      omega
  · exact ⟨by simpa [SharedEvent.accepted, SharedEvent.returned] using hflow,
      by simpa [SharedEvent.requested, SharedEvent.returned] using hle,
      by simpa [SharedEvent.requested, SharedEvent.returned] using hge⟩

/-- **Reads take from the front and in order, writes append**, on every path. -/
theorem Fifo.of_path {tr tr₁ : List (SharedEvent T)} (h : (shared T z).Run tr b)
    (hp : (shared T z).Path b tr₁ b₁) : Fifo b.contents tr₁ b₁ := by
  refine h.rule_from (Q := fun _ => True) (I := fun tr₁ b₁ => Fifo b.contents tr₁ b₁) hp
    (fun _ _ => trivial) ?_ fun hrun _ hf hs => hf.step (Rejecting.of_run hrun) hs
  exact ⟨List.append_nil _, le_rfl, Nat.min_le_left ..⟩

/-- Where nothing was written, there is at least as much room. -/
theorem Fifo.length_le {q : List T} {tr : List (SharedEvent T)} (h : Fifo q tr b)
    (hw : ∀ e ∈ tr, e.isWrite = false) : b.contents.length ≤ q.length := by
  have hstored : stored tr = [] := by
    refine List.flatMap_eq_nil_iff.mpr fun e he => ?_
    have hw := hw e he
    obtain ⟨thread, op, data, count⟩ | ⟨thread, query, n⟩ := e
    · cases op <;> first | rfl | cases hw
    · rfl
  have hlen := congrArg List.length h.flow
  rw [hstored, List.append_nil, List.length_append] at hlen
  omega

/-- Where nothing was read, there is at least as much to read. -/
theorem Fifo.le_length {q : List T} {tr : List (SharedEvent T)} (h : Fifo q tr b)
    (hr : ∀ e ∈ tr, e.isRead = false) : q.length ≤ b.contents.length := by
  have htaken : taken tr = [] := by
    refine List.flatMap_eq_nil_iff.mpr fun e he => ?_
    have hr := hr e he
    obtain ⟨thread, op, data, count⟩ | ⟨thread, query, n⟩ := e
    · cases op <;> first | rfl | cases hr
    · rfl
  have hlen := congrArg List.length h.flow
  rw [htaken, List.nil_append, List.length_append] at hlen
  omega

/-- The front of the queue is what is read next. -/
theorem Fifo.take_taken {q : List T} {tr : List (SharedEvent T)} (h : Fifo q tr b) {n : ℕ}
    (hn : n ≤ q.length) : (taken tr).take n = (q.take n).take (requested tr) := by
  obtain ⟨hflow, hle, hge⟩ := h
  have hfront : taken tr = (q ++ stored tr).take (taken tr).length := by
    rw [hflow, List.take_left]
  rw [hfront, List.take_take, List.take_append_of_le_length (by omega), List.take_take]
  congr 1
  omega

/-! ### Writes and reads that find what they need -/

theorem Rejecting.writeBurst (h : b.Rejecting) {data : List T} {n : ℕ}
    (hroom : n ≤ z.card - 1 - b.contents.length) (hdata : n ≤ data.length) :
    (b.writeBurst data n).2 = n ∧
      (b.writeBurst data n).1.contents = b.contents ++ data.take n := by
  obtain ⟨hok, hover⟩ := h
  obtain ⟨-, hcontents, -, hn⟩ := hok.writeBurst data n
  have haccepts : b.accepts n = n := by
    rw [accepts, hover, if_neg Bool.false_ne_true, ← length_contents]
    omega
  have hlen : (data.take n).length = n := by
    rw [List.length_take]
    omega
  rw [Nat.min_eq_left hdata, haccepts] at hn
  refine ⟨hn, ?_⟩
  rw [hcontents, hok.foldl_push hover, hlen, haccepts, List.take_take, Nat.min_self]

theorem Rejecting.write (h : b.Rejecting) (x : T) (hroom : 1 ≤ z.card - 1 - b.contents.length) :
    (b.write x).2 = 1 ∧ (b.write x).1.contents = b.contents ++ [x] := by
  obtain ⟨hok, hover⟩ := h
  obtain ⟨-, hcontents, -, hn⟩ := hok.write x
  have haccepts : b.accepts 1 = 1 := by
    rw [accepts, hover, if_neg Bool.false_ne_true, ← length_contents]
    omega
  refine ⟨hn.trans haccepts, ?_⟩
  rw [hcontents, push, hover, if_neg Bool.false_ne_true, BoundedQueue.offer_of_lt (by omega)]

/-! ### Check, then act -/

section
variable {tr tr₁ : List (SharedEvent T)}

/-- What the producer saw of the room is still there. -/
theorem act_on_room {free : ℕ} (h : (shared T z).Run tr b)
    (hs : (shared T z).Step b (.ask .producer .getFreeSize free) b₁)
    (hp : (shared T z).Path b₁ tr₁ b₂) (hw : ∀ e ∈ tr₁, e.isWrite = false) :
    (∀ n data, n ≤ free → n ≤ data.length → (b₂.writeBurst data n).2 = n ∧
      (b₂.writeBurst data n).1.contents = b₂.contents ++ data.take n) ∧
    ∀ x, 1 ≤ free → (b₂.write x).2 = 1 ∧ (b₂.write x).1.contents = b₂.contents ++ [x] := by
  have hrejecting := Rejecting.of_run ((h.snoc hs).append hp)
  have hroom := (Fifo.of_path (h.snoc hs) hp).length_le hw
  obtain ⟨rfl, rfl⟩ := shared_answer hs
  have hfree : b₁.answer .getFreeSize = z.card - 1 - b₁.contents.length := by
    rw [length_contents]
    exact (Rejecting.of_run h).1.toNat_getFreeSize
  exact ⟨fun n data hn hdata => hrejecting.writeBurst (by omega) hdata,
    fun x hone => hrejecting.write x (by omega)⟩

/-- What the consumer saw of the elements is still there. -/
theorem act_on_count {used : ℕ} (h : (shared T z).Run tr b)
    (hs : (shared T z).Step b (.ask .consumer .getOccupiedSize used) b₁)
    (hp : (shared T z).Path b₁ tr₁ b₂) (hr : ∀ e ∈ tr₁, e.isRead = false) :
    (∀ n data, n ≤ used → n ≤ data.length → (b₂.readBurst data n).2.2 = n) ∧
    ∀ x, 1 ≤ used → (b₂.read x).2.2 = 1 := by
  have hok₂ := (Rejecting.of_run ((h.snoc hs).append hp)).1
  have hthere := (Fifo.of_path (h.snoc hs) hp).le_length hr
  obtain ⟨rfl, rfl⟩ := shared_answer hs
  have hused : b₁.answer .getOccupiedSize = b₁.contents.length := by
    rw [length_contents]
    exact (Rejecting.of_run h).1.toNat_getOccupiedSize
  refine ⟨fun n data hn hdata => ?_, fun x hone => ?_⟩
  · rw [(hok₂.readBurst_eq data n).1]
    omega
  · rw [(hok₂.read_eq x).1]
    omega

/-- What a `Peek` showed is what the reads since have returned. -/
theorem act_on_peek {data seen : List T} {btp n : ℕ} (h : (shared T z).Run tr b)
    (hs : (shared T z).Step b (.call .consumer ⟨.peek data btp, seen, n⟩) b₁)
    (hp : (shared T z).Path b₁ tr₁ b₂) :
    (taken tr₁).take n = (seen.take n).take (requested tr₁) := by
  have hfifo := Fifo.of_path (h.snoc hs) hp
  have hout : (b, b.peek data btp) = (b₁, seen, n) := shared_outcome hs
  obtain ⟨rfl, hpeek⟩ := Prod.mk.inj hout
  obtain ⟨hle, hseen⟩ := (Rejecting.of_run h).1.peek_seen hpeek
  rw [hseen]
  exact hfifo.take_taken hle

/-- What a `PeekAt` showed is what they returned at that place. -/
theorem act_on_peekAt {data : T} {seen : List T} {n : ℕ} (h : (shared T z).Run tr b)
    (hs : (shared T z).Step b (.call .consumer ⟨.peekAt data n, seen, 1⟩) b₁)
    (hp : (shared T z).Path b₁ tr₁ b₂) (hreq : n < requested tr₁) :
    ∃ x, seen = [x] ∧ (taken tr₁)[n]? = some x := by
  have hfifo := Fifo.of_path (h.snoc hs) hp
  have hok := (Rejecting.of_run h).1
  have hout : (b, [(b.peekAt data n).1], (b.peekAt data n).2) = (b₁, seen, 1) :=
    shared_outcome hs
  obtain ⟨rfl, hpeek⟩ := Prod.mk.inj hout
  obtain ⟨rfl, hone⟩ := Prod.mk.inj hpeek
  have hlt := (hok.peekAt_eq_one_iff data n).mp hone
  have hx := ((hok.peekAt_eq data n).1 hlt).1
  refine ⟨_, rfl, ?_⟩
  have hfront := hfifo.take_taken (n := n + 1) (hlt.trans_eq b.length_contents.symm)
  have hget : (taken tr₁)[n]? = ((taken tr₁).take (n + 1))[n]? :=
    (List.getElem?_take_of_lt n.lt_succ_self).symm
  rw [hget, hfront, List.getElem?_take_of_lt hreq, List.getElem?_take_of_lt n.lt_succ_self, hx]

end

/-- **Check, then act.** Let `e` be a look at the buffer and `tr₁` whatever the two threads did
since.

If the producer saw room for `n` elements and has not written since, its write of `n` elements
stores all of them. If the consumer saw `n` elements and has not read since, its read of `n`
elements returns as many. What the consumer saw in a `Peek` is what its reads since have returned,
as far as they asked for it; what it saw in a `PeekAt` is what they returned at that place. -/
theorem check_then_act {tr tr₁ : List (SharedEvent T)} {e : SharedEvent T}
    (h : (shared T z).Run tr b) (hs : (shared T z).Step b e b₁)
    (hp : (shared T z).Path b₁ tr₁ b₂) :
    (∀ free, e = .ask .producer .getFreeSize free → (∀ e ∈ tr₁, e.isWrite = false) →
      (∀ n data, n ≤ free → n ≤ data.length → (b₂.writeBurst data n).2 = n ∧
        (b₂.writeBurst data n).1.contents = b₂.contents ++ data.take n) ∧
      ∀ x, 1 ≤ free → (b₂.write x).2 = 1 ∧ (b₂.write x).1.contents = b₂.contents ++ [x]) ∧
    (∀ used, e = .ask .consumer .getOccupiedSize used → (∀ e ∈ tr₁, e.isRead = false) →
      (∀ n data, n ≤ used → n ≤ data.length → (b₂.readBurst data n).2.2 = n) ∧
      ∀ x, 1 ≤ used → (b₂.read x).2.2 = 1) ∧
    (∀ data btp seen n, e = .call .consumer ⟨.peek data btp, seen, n⟩ →
      (taken tr₁).take n = (seen.take n).take (requested tr₁)) ∧
    ∀ data n seen, e = .call .consumer ⟨.peekAt data n, seen, 1⟩ → n < requested tr₁ →
      ∃ x, seen = [x] ∧ (taken tr₁)[n]? = some x := by
  refine ⟨?_, ?_, ?_, ?_⟩
  · rintro free rfl hw
    exact act_on_room h hs hp hw
  · rintro used rfl hr
    exact act_on_count h hs hp hr
  · rintro data btp seen n rfl
    exact act_on_peek h hs hp
  · rintro data n seen rfl hreq
    exact act_on_peekAt h hs hp hreq

/-- The producer writes two elements; then the consumer peeks. -/
def looked : Option (List (SharedEvent ℕ) × RingBuffer ℕ fourSlots) :=
  (shared ℕ fourSlots).exec (construct (Vector.replicate _ 0) false)
    [.call .producer (.write 1), .call .producer (.write 2)]

theorem looked_isSome : looked.isSome := rfl

/-- Since then the producer has filled the buffer and the consumer has read twice. -/
def acted : Option (List (SharedEvent ℕ) × RingBuffer ℕ fourSlots) :=
  (shared ℕ fourSlots).exec (looked.get looked_isSome).2
    [.call .producer (.writeBurst [3, 4] 2), .ask .consumer .isFull, .call .consumer (.read 0),
      .call .producer (.write 5), .call .consumer (.readBurst [0, 0] 2)]

theorem acted_isSome : acted.isSome := rfl

theorem check_then_act_small :
    taken (acted.get acted_isSome).1 = [1, 2, 3] ∧
    (taken (acted.get acted_isSome).1).take 2 =
      ([1, 2].take 2).take (requested (acted.get acted_isSome).1) :=
  have hlook : (shared ℕ fourSlots).Step (looked.get looked_isSome).2
      (.call .consumer ⟨.peek [0, 0] 3, [1, 2], 2⟩) (looked.get looked_isSome).2 :=
    ⟨.call .consumer (.peek [0, 0] 3), rfl⟩
  ⟨by decide +kernel,
    (check_then_act ⟨_, ⟨_, rfl⟩, .of_exec_get looked_isSome⟩ hlook
      (.of_exec_get acted_isSome)).2.2.1 [0, 0] 3 [1, 2] 2 rfl⟩

end RingBuffer

end XmSigma
