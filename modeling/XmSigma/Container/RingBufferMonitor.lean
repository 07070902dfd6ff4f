import XmSigma.Container.RingBufferShared
import XmSigma.Container.RingBufferThrowing
import XmSigma.Lib.Monitor

/-!
# Any number of threads on a `RingBuffer`

`ring_buffer.hpp` promises that the buffer is thread-safe by its mutex. Here every member function
is what it is in the source: it takes the lock, loads and stores the members one by one, and gives
the lock back. Any number of threads call any of them, and between any two accesses of one thread
the others may go on.

All that the callers can see is then what they would see if each call took effect at once, as the
function of `RingBuffer` says it does; and that is what they would see of a list of at most `N - 1`
elements.

Where the language leaves open which operand of an expression is loaded first, `swap` says so, for
each expression of its own.

## Main definitions

* `Accesses`: the member functions, access by access
* `Request.run`: what the calls do to a queue

## Main results

* `thread_safe`: the calls take effect at once, without a data race and without deadlock
* `concurrent_queue`: the buffer is a bounded queue for any number of threads
-/

namespace XmSigma

namespace RingBuffer

variable {T : Type*} {z : Pow2Size}

/-- `GetBuffer`: a copy of the whole array. -/
def getBuffer (b : RingBuffer T z) : Vector T z.card := b.buffer_

/-! ### The accesses of the member functions -/

/-- The expressions that load both indices. -/
inductive Site
  | isEmpty
  | isFull
  | getFreeSize
  | getOccupiedSize
  | readBurst
  | peek
  | writeBurst
  | read
  | peekAt
  | write
  deriving DecidableEq

/-- Under the lock: the accesses, and then the caller's elements and the count. -/
abbrev Body (T : Type*) (z : Pow2Size) : Type _ := Routine (RingBuffer T z) (List T × ℕ)

namespace Accesses

variable {T : Type*} {z : Pow2Size}

/-- `Reset`. -/
def reset : Body T z :=
  .store (fun b => { b with write_index_ := 0 }) <|
    .store (fun b => { b with read_index_ := 0 }) <| .ret ([], 0)

/-- The two indices. -/
def indices (swap : Bool) (k : UInt64 → UInt64 → Body T z) : Body T z :=
  .load₂ swap write_index_ read_index_ k

/-- `IsEmpty`. -/
def isEmpty (swap : Bool) : Body T z :=
  indices swap fun w r => .ret ([], (decide (r = w)).toNat)

/-- `IsFull`. -/
def isFull (swap : Bool) : Body T z :=
  indices swap fun w r => .ret ([], (decide ((w + 1) &&& z.mask = r &&& z.mask)).toNat)

/-- `GetFreeSize`. -/
def getFreeSize (swap : Bool) : Body T z :=
  indices swap fun w r => .ret ([], (z.size - 1 - ((w - r) &&& z.mask)).toNat)

/-- `GetOccupiedSize`. -/
def getOccupiedSize (swap : Bool) : Body T z :=
  indices swap fun w r => .ret ([], ((w - r) &&& z.mask).toNat)

/-- The copy of the array, element by element. -/
def copyLoop (seen : List T) : List (Fin z.card) → Body T z
  | [] => .ret (seen, 0)
  | i :: rest => .load (fun b => b.buffer_[i]) fun x => copyLoop (seen ++ [x]) rest

/-- `GetBuffer`. -/
def getBuffer : Body T z := copyLoop [] (List.finRange z.card)

/-- `buffer_[read_index_++ & size_mask_]`. -/
def take (k : T → Body T z) : Body T z :=
  .load read_index_ fun r =>
    .store (fun b => { b with read_index_ := r + 1 }) <| .load (fun b => b.get r) k

/-- `buffer_[(write_index_++) & size_mask_] = x`. -/
def put (x : T) (k : Body T z) : Body T z :=
  .load write_index_ fun w =>
    .store (fun b => { b with write_index_ := w + 1 }) <| .store (fun b => b.set w x) k

/-- `++read_index_`. -/
def skip (k : Body T z) : Body T z :=
  .load read_index_ fun r => .store (fun b => { b with read_index_ := r + 1 }) k

/-- The loop of `Read` over a burst: it ends when the buffer is empty. -/
def readLoop (swap : Bool) (data : List T) (i : ℕ) : ℕ → Body T z
  | 0 => .ret (data, i)
  | todo + 1 =>
    indices swap fun w r =>
      if r = w then .ret (data, i)
      else take fun x => readLoop swap (data.set i x) (i + 1) todo

/-- `Read` of a burst, which the vector given to it bounds. -/
def readBurst (swap : Bool) (data : List T) (btr : ℕ) : Body T z :=
  readLoop swap data 0 (if btr > data.length then data.length else btr)

/-- The loop of `Peek`. -/
def peekLoop (n : ℕ) (data : List T) (i : ℕ) : ℕ → Body T z
  | 0 => .ret (data, n)
  | todo + 1 =>
    .load read_index_ fun r =>
      .load (fun b => b.get (r + .ofNat i)) fun x => peekLoop n (data.set i x) (i + 1) todo

/-- `Peek`: what is there is counted first. -/
def peek (swap : Bool) (data : List T) (btp : ℕ) : Body T z :=
  indices swap fun w r =>
    let available := ((w - r) &&& z.mask).toNat
    let n := min (min btp data.length) available
    peekLoop n data 0 n

/-- What comes after the test whether the buffer is full: `full` where it may not be overwritten,
else room is made for what comes next. -/
def makeRoom (swap : Bool) (full next : Body T z) : Body T z :=
  indices swap fun w r =>
    if (w + 1) &&& z.mask = r &&& z.mask then
      .load enable_overwrite_ fun enable_overwrite =>
        if !enable_overwrite then full else skip next
    else next

/-- The loop of `Write` over a burst: it ends when the buffer is full and may not be overwritten. -/
def writeLoop (swap : Bool) (new_data : List T) (i : ℕ) : List T → Body T z
  | [] => .ret (new_data, i)
  | x :: rest =>
    makeRoom swap (.ret (new_data, i)) <| put x <| writeLoop swap new_data (i + 1) rest

/-- `Write` of a burst, which the vector given to it bounds. -/
def writeBurst (swap : Bool) (new_data : List T) (btw : ℕ) : Body T z :=
  let btw := if btw > new_data.length then new_data.length else btw
  writeLoop swap new_data 0 (new_data.take btw)

/-- `Read` of one element. -/
def read (swap : Bool) (data : T) : Body T z :=
  indices swap fun w r =>
    if r = w then .ret ([data], 0) else take fun x => .ret ([x], 1)

/-- `PeekAt`. -/
def peekAt (swap : Bool) (data : T) (n : ℕ) : Body T z :=
  indices swap fun w r =>
    if n ≥ ((w - r) &&& z.mask).toNat then .ret ([data], 0)
    else .load read_index_ fun r => .load (fun b => b.get (r + .ofNat n)) fun x => .ret ([x], 1)

/-- `Write` of one element. -/
def write (swap : Bool) (new_data : T) : Body T z :=
  makeRoom swap (.ret ([new_data], 0)) <| put new_data <| .ret ([new_data], 1)

end Accesses

/-! ### The calls -/

/-- What can be called, but for `GetBuffer`. -/
inductive Request (T : Type*)
  | ask (query : Query)
  | call (op : Op T)

/-- What can be called. -/
inductive Member (T : Type*)
  | request (r : Request T)
  | getBuffer

/-- What a request does under the lock. -/
def Request.code (swap : Site → Bool) : Request T → Body T z
  | .ask .isEmpty => Accesses.isEmpty (swap .isEmpty)
  | .ask .isFull => Accesses.isFull (swap .isFull)
  | .ask .getFreeSize => Accesses.getFreeSize (swap .getFreeSize)
  | .ask .getOccupiedSize => Accesses.getOccupiedSize (swap .getOccupiedSize)
  | .call .reset => Accesses.reset
  | .call (.write x) => Accesses.write (swap .write) x
  | .call (.writeBurst new_data btw) => Accesses.writeBurst (swap .writeBurst) new_data btw
  | .call (.read data) => Accesses.read (swap .read) data
  | .call (.readBurst data btr) => Accesses.readBurst (swap .readBurst) data btr
  | .call (.peek data btp) => Accesses.peek (swap .peek) data btp
  | .call (.peekAt data n) => Accesses.peekAt (swap .peekAt) data n

/-- What a call does under the lock. -/
def Member.code (swap : Site → Bool) : Member T → Body T z
  | .request r => r.code swap
  | .getBuffer => Accesses.getBuffer

/-- What a request does if it takes effect at once. -/
def Request.apply : Request T → RingBuffer T z → RingBuffer T z × List T × ℕ
  | .ask query, b => (b, [], b.answer query)
  | .call op, b => b.apply op

/-- What a call does if it takes effect at once. -/
def Member.apply : Member T → RingBuffer T z → RingBuffer T z × List T × ℕ
  | .request r, b => r.apply b
  | .getBuffer, b => (b, b.getBuffer.toList, 0)

namespace Accesses

variable {b : RingBuffer T z} {swap : Bool}

@[simp] theorem exec_indices (k : UInt64 → UInt64 → Body T z) :
    (indices swap k).exec b = (k b.write_index_ b.read_index_).exec b := Routine.exec_load₂ ..

@[simp] theorem exec_take (k : T → Body T z) :
    (take k).exec b = (k (b.get b.read_index_)).exec b.skip := rfl

@[simp] theorem exec_put (x : T) (k : Body T z) : (put x k).exec b = k.exec (b.put x) := rfl

/-- Refuse, make room, or find room. -/
theorem exec_makeRoom (full next : Body T z) :
    (makeRoom swap full next).exec b =
      if (b.write_index_ + 1) &&& z.mask = b.read_index_ &&& z.mask then
        if !b.enable_overwrite_ then full.exec b else next.exec b.skip
      else next.exec b := by
  rw [makeRoom, exec_indices]
  split
  · rw [Routine.exec_load]
    split <;> rfl
  · rfl

theorem exec_copyLoop (seen : List T) (is : List (Fin z.card)) :
    (copyLoop seen is).exec b = (b, seen ++ is.map fun i => b.buffer_[i], 0) := by
  induction is generalizing seen with
  | nil => simp [copyLoop]
  | cons i is ih => simp [copyLoop, ih]

theorem exec_getBuffer : getBuffer.exec b = (b, b.getBuffer.toList, 0) := by
  have hcopy : (List.finRange z.card).map (fun i => b.buffer_[i]) = b.buffer_.toList :=
    List.ext_getElem (by simp) fun i _ _ => by simp
  rw [getBuffer, exec_copyLoop, List.nil_append, hcopy, RingBuffer.getBuffer]

theorem exec_readLoop (data : List T) (i todo : ℕ) :
    (readLoop swap data i todo).exec b = b.readLoop data i todo := by
  induction todo generalizing b data i with
  | zero => rfl
  | succ todo ih =>
    rw [readLoop, RingBuffer.readLoop, exec_indices]
    split
    · rfl
    · rw [exec_take, ih]

theorem exec_peekLoop (n : ℕ) (data : List T) (i todo : ℕ) :
    (peekLoop n data i todo).exec b = (b, b.peekLoop data i todo, n) := by
  induction todo generalizing data i with
  | zero => rfl
  | succ todo ih => exact ih ..

theorem exec_writeLoop (new_data : List T) (i : ℕ) (xs : List T) :
    (writeLoop swap new_data i xs).exec b =
      ((b.writeLoop i xs).1, new_data, (b.writeLoop i xs).2) := by
  induction xs generalizing b i with
  | nil => rfl
  | cons x xs ih =>
    rw [writeLoop, exec_makeRoom, exec_put, exec_put, ih, ih, RingBuffer.writeLoop]
    split
    · split <;> rfl
    · rfl

theorem exec_read (data : T) :
    (read swap data).exec b = ((b.read data).1, [(b.read data).2.1], (b.read data).2.2) := by
  rw [read, exec_indices, RingBuffer.read]
  split <;> rfl

theorem exec_peekAt (data : T) (n : ℕ) :
    (peekAt swap data n).exec b = (b, [(b.peekAt data n).1], (b.peekAt data n).2) := by
  rw [peekAt, exec_indices, RingBuffer.peekAt]
  split <;> rfl

theorem exec_write (new_data : T) :
    (write swap new_data).exec b = ((b.write new_data).1, [new_data], (b.write new_data).2) := by
  rw [write, exec_makeRoom, RingBuffer.write]
  split
  · split <;> rfl
  · rfl

end Accesses

/-- What the accesses of a request come to is what the function on the members says. -/
theorem Request.exec_code (swap : Site → Bool) (r : Request T) (b : RingBuffer T z) :
    (r.code swap).exec b = r.apply b := by
  cases r with
  | ask query => cases query <;> exact Accesses.exec_indices _
  | call op =>
    cases op with
    | reset => rfl
    | write x => exact Accesses.exec_write x
    | writeBurst new_data btw => exact Accesses.exec_writeLoop ..
    | read data => exact Accesses.exec_read data
    | readBurst data btr => exact Accesses.exec_readLoop ..
    | peek data btp => exact (Accesses.exec_indices _).trans (Accesses.exec_peekLoop ..)
    | peekAt data n => exact Accesses.exec_peekAt data n

theorem Member.exec_code (swap : Site → Bool) (m : Member T) (b : RingBuffer T z) :
    (m.code swap).exec b = m.apply b := by
  cases m with
  | request r => exact r.exec_code swap b
  | getBuffer => exact Accesses.exec_getBuffer

/-! ### The abstract queue -/

/-- The caller's elements once the first ones are `front`. -/
def fill (data front : List T) : List T := front ++ data.drop front.length

/-- How many of `n` elements a queue of at most `cap` takes in. -/
def admitted (enable_overwrite : Bool) (cap : ℕ) (q : List T) (n : ℕ) : ℕ :=
  if enable_overwrite then n else min n (cap - q.length)

/-- What a request does to a queue of at most `cap` elements, and what it returns. -/
def Request.queue (enable_overwrite : Bool) (cap : ℕ) : Request T → List T → List T × List T × ℕ
  | .ask .isEmpty, q => (q, [], q.isEmpty.toNat)
  | .ask .isFull, q => (q, [], (decide (q.length = cap)).toNat)
  | .ask .getFreeSize, q => (q, [], cap - q.length)
  | .ask .getOccupiedSize, q => (q, [], q.length)
  | .call .reset, _ => ([], [], 0)
  | .call (.write x), q =>
    (policy enable_overwrite cap q x, [x], admitted enable_overwrite cap q 1)
  | .call (.writeBurst new_data btw), q =>
    ((new_data.take btw).foldl (policy enable_overwrite cap) q, new_data,
      admitted enable_overwrite cap q (min btw new_data.length))
  | .call (.read data), q => (q.drop 1, fill [data] (q.take 1), (q.take 1).length)
  | .call (.readBurst data btr), q =>
    let n := min btr data.length
    (q.drop n, fill data (q.take n), (q.take n).length)
  | .call (.peek data btp), q =>
    let n := min btp data.length
    (q, fill data (q.take n), (q.take n).length)
  | .call (.peekAt data n), q => (q, fill [data] ((q.drop n).take 1), ((q.drop n).take 1).length)

namespace Ok

variable {b : RingBuffer T z}

/-- A burst read returns the front of the queue. -/
theorem readBurst_fill (h : b.Ok) (data : List T) (btr : ℕ) :
    b.readBurst data btr = ((b.readBurst data btr).1,
      fill data (b.contents.take (min btr data.length)),
      (b.contents.take (min btr data.length)).length) := by
  obtain ⟨taken, hcontents, hlen, -, -, hdata, hn⟩ := h.readBurst data btr
  rw [← length_contents] at hlen
  obtain ⟨rfl, -⟩ := BoundedQueue.eq_take_drop hcontents hlen
  exact Prod.ext rfl (Prod.ext hdata hn)

theorem peekAt_fill (h : b.Ok) (data : T) (n : ℕ) :
    ([(b.peekAt data n).1], (b.peekAt data n).2) =
      (fill [data] ((b.contents.drop n).take 1), ((b.contents.drop n).take 1).length) := by
  obtain ⟨hin, hout⟩ := h.peekAt_eq data n
  rcases Nat.lt_or_ge n b.occupied with hlt | hge
  · obtain ⟨hseen, hone⟩ := hin hlt
    have hfront : (b.contents.drop n).take 1 = [(b.peekAt data n).1] := by
      rw [List.take_one, List.head?_drop, hseen]
      rfl
    rw [hfront, hone]
    rfl
  · have hfront : (b.contents.drop n).take 1 = [] := by
      rw [List.drop_eq_nil_of_le (by rwa [length_contents]), List.take_nil]
    rw [hfront, hout hge]
    rfl

/-- A query answers what it would answer of the queue. -/
theorem ask_queue (h : b.Ok) (query : Query) (enable_overwrite : Bool) :
    (Request.ask query).queue enable_overwrite (z.card - 1) b.contents =
      (b.contents, [], b.answer query) := by
  cases query with
  | isEmpty =>
    have hempty : b.contents.isEmpty = b.isEmpty := by
      rw [Bool.eq_iff_iff, isEmpty_iff, List.isEmpty_iff, ← List.length_eq_zero_iff,
        length_contents]
    simp only [Request.queue, answer, hempty]
  | isFull =>
    have hfull : decide (b.contents.length = z.card - 1) = b.isFull := by
      rw [Bool.eq_iff_iff, h.isFull_iff, decide_eq_true_iff, length_contents]
    simp only [Request.queue, answer, hfull]
  | getFreeSize =>
    simp only [Request.queue, answer, h.toNat_getFreeSize, length_contents]
  | getOccupiedSize =>
    simp only [Request.queue, answer, h.toNat_getOccupiedSize, length_contents]

/-- A call does to the contents what it does to the queue, and returns the same. -/
theorem call_queue (h : b.Ok) (op : Op T) :
    (Request.call op).queue b.enable_overwrite_ (z.card - 1) b.contents =
      ((b.apply op).1.contents, (b.apply op).2) := by
  have hpush : policy b.enable_overwrite_ (z.card - 1) = b.push := rfl
  have hadmitted (n : ℕ) :
      admitted b.enable_overwrite_ (z.card - 1) b.contents n = b.accepts n := by
    rw [admitted, length_contents, accepts]
  refine Prod.ext ?_ ?_
  · rw [h.apply_queue op]
    cases op <;> rfl
  · cases op with
    | reset => rfl
    | write x => exact Prod.ext rfl ((hadmitted 1).trans (h.write x).2.2.2.symm)
    | writeBurst new_data btw =>
      exact Prod.ext rfl ((hadmitted _).trans (h.writeBurst new_data btw).2.2.2.symm)
    | read data =>
      rw [apply_read]
      exact (congrArg Prod.snd (h.readBurst_fill [data] 1)).symm
    | readBurst data btr => exact (congrArg Prod.snd (h.readBurst_fill data btr)).symm
    | peek data btp =>
      exact ((h.peek_eq data btp).trans (congrArg Prod.snd (h.readBurst_fill data btp))).symm
    | peekAt data n => exact (h.peekAt_fill data n).symm

end Ok

/-- A well-formed buffer with one policy stands for its contents. -/
theorem represents (z : Pow2Size) (enable_overwrite : Bool) :
    Atomic.Represents (fun b : RingBuffer T z => b.Ok ∧ b.enable_overwrite_ = enable_overwrite)
      contents Request.apply (Request.queue enable_overwrite (z.card - 1)) := by
  rintro r b ⟨hok, rfl⟩
  cases r with
  | ask query => exact ⟨⟨hok, rfl⟩, hok.ask_queue query _⟩
  | call op => exact ⟨hok.apply op, hok.call_queue op⟩

/-! ### Any number of threads -/

variable {θ : Type*} [DecidableEq θ]

/-- Threads that call any member function of a buffer they share. -/
def callers (θ T : Type*) [DecidableEq θ] (z : Pow2Size) (swap : Site → Bool) :
    Machine (Monitor.State θ (RingBuffer T z) (Member T) (List T × ℕ))
      (Monitor.Action θ (Member T)) (Monitor.Event θ (Member T) (List T × ℕ)) :=
  Monitor.machine (Member.code swap)

/-- **The mutex makes every member function one step.** What any number of threads can see of the
calls, each made of its accesses under the lock, is what they could see if each call took effect at
once; no two accesses race, and there is no deadlock. -/
theorem thread_safe (swap : Site → Bool) (b : RingBuffer T z) :
    (∀ os, (callers θ T z swap).Shows Monitor.Event.view (Monitor.initial b) os ↔
      (Atomic.machine Member.apply).Shows Atomic.Event.view (Atomic.initial b) os) ∧
    (∀ tr s, ((callers θ T z swap).annotate Monitor.access).Run tr s →
      Ordered (tr.map Prod.snd)) ∧
    ∀ tr s t, (callers θ T z swap).Path (Monitor.initial b) tr s → s.point t ≠ .idle →
      ∃ j, ((callers θ T z swap).step s (.go j)).isSome :=
  ⟨Monitor.shows_iff (fun m b => m.exec_code swap b) b, fun _ _ h => Monitor.ordered h,
    fun _ _ _ hp ht => (Monitor.Exclusive.of_path hp).exists_go ht⟩

/-- **A bounded queue for any number of threads**, which call any member functions but `GetBuffer`.
What they can see of a buffer that was just constructed is what they could see of a list of at most
`N - 1` elements, with calls that take effect at once. -/
theorem concurrent_queue (swap : Site → Bool) (raw : Vector T z.card) (enable_overwrite : Bool)
    (os : List (CallSight θ (Request T) (List T × ℕ))) :
    (Monitor.machine (Request.code swap)).Shows Monitor.Event.view
        (Monitor.initial (construct raw enable_overwrite)) os ↔
      (Atomic.machine (Request.queue enable_overwrite (z.card - 1))).Shows Atomic.Event.view
        (Atomic.initial []) os := by
  have hok := construct_ok raw enable_overwrite
  rw [Monitor.shows_iff (fun r b => r.exec_code swap b),
    (represents z enable_overwrite).shows_iff ⟨hok.1, rfl⟩, hok.2]

end RingBuffer

end XmSigma
