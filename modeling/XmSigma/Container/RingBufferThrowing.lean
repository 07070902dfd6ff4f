import XmSigma.Container.RingBufferRuns

/-!
# A `RingBuffer` of elements whose copy assignment may throw

The member functions once more, for an element type whose copy assignment may throw. In
`buffer_[(write_index_++) & size_mask_] = new_data` and `data = buffer_[read_index_++ & size_mask_]`
both operands are evaluated before the assignment operator is called, and the index is bumped with
its operand. So when the assignment throws, the index has moved, and the target holds whatever the
failed assignment left in it.

Which assignments of a call throw, and what they leave, is an argument of the call. A call that
ends with an exception says which element it was thrown for.

## Main definitions

* `RingBuffer.tryApply`: the calls
* `RingBuffer.FailsAt`: the first assignment of a call that throws

## Main results

* `tryWriteLoop_cases`, `tryReadLoop_cases`: a failed call is a shorter call and one step more
* `Ok.tryApply`: how a call goes
-/

namespace XmSigma

namespace RingBuffer

variable {T : Type*} {z : Pow2Size} {b : RingBuffer T z}

/-- How the copy assignments of a call go, by the index of their element: `none` for one that
succeeds, what is left in the target for one that throws. -/
abbrev Faults (T : Type*) := ℕ → Option T

/-! ### Burst read and write -/

/-- The loop of the burst `Read`. -/
def tryReadLoop (faults : Faults T) (b : RingBuffer T z) (data : List T) (i : ℕ) :
    ℕ → RingBuffer T z × List T × Except ℕ ℕ
  | 0 => (b, data, .ok i)
  | todo + 1 =>
    if b.read_index_ = b.write_index_ then (b, data, .ok i)
    else
      match faults i with
      | none => tryReadLoop faults b.skip (data.set i (b.get b.read_index_)) (i + 1) todo
      | some left => (b.skip, data.set i left, .error i)

/-- `Read(std::vector<T>& data, std::size_t btr)`. -/
def tryReadBurst (faults : Faults T) (b : RingBuffer T z) (data : List T) (btr : ℕ) :
    RingBuffer T z × List T × Except ℕ ℕ :=
  let btr := if btr > data.length then data.length else btr
  tryReadLoop faults b data 0 btr

/-- The loop of `Peek`. -/
def tryPeekLoop (faults : Faults T) (b : RingBuffer T z) (data : List T) (i : ℕ) :
    ℕ → List T × Except ℕ Unit
  | 0 => (data, .ok ())
  | todo + 1 =>
    match faults i with
    | none => tryPeekLoop faults b (data.set i (b.get (b.read_index_ + .ofNat i))) (i + 1) todo
    | some left => (data.set i left, .error i)

/-- `Peek(std::vector<T>& data, std::size_t btp)`. -/
def tryPeek (faults : Faults T) (b : RingBuffer T z) (data : List T) (btp : ℕ) :
    List T × Except ℕ ℕ :=
  let available := ((b.write_index_ - b.read_index_) &&& z.mask).toNat
  let n := min (min btp data.length) available
  let done := tryPeekLoop faults b data 0 n
  (done.1, done.2.map fun _ => n)

/-- The loop of the burst `Write`. -/
def tryWriteLoop (faults : Faults T) (b : RingBuffer T z) (i : ℕ) :
    List T → RingBuffer T z × Except ℕ ℕ
  | [] => (b, .ok i)
  | x :: rest =>
    if (b.write_index_ + 1) &&& z.mask = b.read_index_ &&& z.mask then
      if !b.enable_overwrite_ then (b, .ok i)
      else
        match faults i with
        | none => tryWriteLoop faults (b.skip.put x) (i + 1) rest
        | some left => (b.skip.put left, .error i)
    else
      match faults i with
      | none => tryWriteLoop faults (b.put x) (i + 1) rest
      | some left => (b.put left, .error i)

/-- `Write(const std::vector<T>& new_data, std::size_t btw)`. -/
def tryWriteBurst (faults : Faults T) (b : RingBuffer T z) (new_data : List T) (btw : ℕ) :
    RingBuffer T z × Except ℕ ℕ :=
  let btw := if btw > new_data.length then new_data.length else btw
  tryWriteLoop faults b 0 (new_data.take btw)

/-! ### Single read and write -/

/-- `Read(T& data)`. -/
def tryRead (faults : Faults T) (b : RingBuffer T z) (data : T) :
    RingBuffer T z × T × Except ℕ ℕ :=
  if b.read_index_ = b.write_index_ then (b, data, .ok 0)
  else
    match faults 0 with
    | none => (b.skip, b.get b.read_index_, .ok 1)
    | some left => (b.skip, left, .error 0)

/-- `PeekAt(T& data, std::size_t n)`. -/
def tryPeekAt (faults : Faults T) (b : RingBuffer T z) (data : T) (n : ℕ) : T × Except ℕ ℕ :=
  if n ≥ ((b.write_index_ - b.read_index_) &&& z.mask).toNat then (data, .ok 0)
  else
    match faults 0 with
    | none => (b.get (b.read_index_ + .ofNat n), .ok 1)
    | some left => (left, .error 0)

/-- `Write(const T& new_data)`. -/
def tryWrite (faults : Faults T) (b : RingBuffer T z) (new_data : T) :
    RingBuffer T z × Except ℕ ℕ :=
  if (b.write_index_ + 1) &&& z.mask = b.read_index_ &&& z.mask then
    if !b.enable_overwrite_ then (b, .ok 0)
    else
      match faults 0 with
      | none => (b.skip.put new_data, .ok 1)
      | some left => (b.skip.put left, .error 0)
  else
    match faults 0 with
    | none => (b.put new_data, .ok 1)
    | some left => (b.put left, .error 0)

/-- What a call does to the buffer and to the caller's elements, and how it ends. -/
def tryApply (faults : Faults T) (b : RingBuffer T z) : Op T → RingBuffer T z × List T × Except ℕ ℕ
  | .reset => (b.reset, [], .ok 0)
  | .write x => ((tryWrite faults b x).1, [x], (tryWrite faults b x).2)
  | .writeBurst new_data btw =>
    ((tryWriteBurst faults b new_data btw).1, new_data, (tryWriteBurst faults b new_data btw).2)
  | .read data =>
    ((tryRead faults b data).1, [(tryRead faults b data).2.1], (tryRead faults b data).2.2)
  | .readBurst data btr => tryReadBurst faults b data btr
  | .peek data btp => (b, tryPeek faults b data btp)
  | .peekAt data n => (b, [(tryPeekAt faults b data n).1], (tryPeekAt faults b data n).2)

/-! ### Loops that fail -/

/-- No assignment from `i` to before `n` throws. -/
def NoFault (faults : Faults T) (i n : ℕ) : Prop := ∀ j, i ≤ j → j < n → faults j = none

/-- From `i` on, the first assignment that throws is the one `k` further. -/
def FirstFault (faults : Faults T) (i k : ℕ) (left : T) : Prop :=
  NoFault faults i (i + k) ∧ faults (i + k) = some left

section
variable {faults : Faults T} {i n k : ℕ} {left : T}

theorem NoFault.of_le (h : n ≤ i) : NoFault faults i n :=
  fun _ hij hj => absurd (h.trans hij) (Nat.not_le.mpr hj)

theorem NoFault.succ (hi : faults i = none) (h : NoFault faults (i + 1) n) :
    NoFault faults i n := by
  intro j hij hj
  rcases Nat.eq_or_lt_of_le hij with rfl | hlt
  · exact hi
  · exact h j hlt hj

theorem FirstFault.zero (h : faults i = some left) : FirstFault faults i 0 left :=
  ⟨.of_le le_rfl, h⟩

theorem FirstFault.succ (hi : faults i = none) (h : FirstFault faults (i + 1) k left) :
    FirstFault faults i (k + 1) left := by
  have hindex : i + 1 + k = i + (k + 1) := by omega
  exact ⟨.succ hi (hindex ▸ h.1), hindex ▸ h.2⟩

end

theorem write_count_eq_zero_iff (b : RingBuffer T z) (x y : T) :
    (b.write x).2 = 0 ↔ (b.write y).2 = 0 := by
  rw [write, write]
  split
  · split <;> simp
  · simp

/-- One round is a single write, of what the assignment leaves where it throws. -/
theorem tryWriteLoop_cons (faults : Faults T) (b : RingBuffer T z) (i : ℕ) (x : T) (xs : List T) :
    tryWriteLoop faults b i (x :: xs) =
      if (b.write x).2 = 0 then (b, .ok i)
      else
        match faults i with
        | none => tryWriteLoop faults (b.write x).1 (i + 1) xs
        | some left => ((b.write left).1, .error i) := by
  rw [tryWriteLoop]
  simp only [write]
  split
  · split <;> rfl
  · rfl

theorem le_writeLoop (b : RingBuffer T z) (i : ℕ) (xs : List T) : i ≤ (b.writeLoop i xs).2 := by
  induction xs generalizing b i with
  | nil => exact le_rfl
  | cons x xs ih =>
    rw [writeLoop_cons]
    split
    · exact le_rfl
    · exact (Nat.le_succ i).trans (ih _ _)

/-- The loop of the burst write either goes through or stops at the first assignment that throws;
then it has written the elements before, and what the assignment left. -/
theorem tryWriteLoop_cases (faults : Faults T) (b : RingBuffer T z) (i : ℕ) (xs : List T) :
    (NoFault faults i (b.writeLoop i xs).2 ∧
      tryWriteLoop faults b i xs = ((b.writeLoop i xs).1, .ok (b.writeLoop i xs).2)) ∨
    ∃ k left, i + k < (b.writeLoop i xs).2 ∧ FirstFault faults i k left ∧
      tryWriteLoop faults b i xs = ((b.writeLoop i (xs.take k ++ [left])).1, .error (i + k)) := by
  induction xs generalizing b i with
  | nil => exact .inl ⟨.of_le le_rfl, rfl⟩
  | cons x xs ih =>
    rw [tryWriteLoop_cons, writeLoop_cons]
    by_cases hzero : (b.write x).2 = 0
    · rw [if_pos hzero, if_pos hzero]
      exact .inl ⟨.of_le le_rfl, rfl⟩
    · rw [if_neg hzero, if_neg hzero]
      cases hfault : faults i with
      | none =>
        rcases ih (b.write x).1 (i + 1) with ⟨hnone, heq⟩ | ⟨k, left, hk, hfirst, heq⟩
        · exact .inl ⟨.succ hfault hnone, heq⟩
        · refine .inr ⟨k + 1, left, by omega, .succ hfault hfirst, ?_⟩
          dsimp only
          rw [heq, List.take_succ_cons, List.cons_append, writeLoop_cons, if_neg hzero,
            Nat.add_right_comm]
          rfl
      | some left =>
        have hle := le_writeLoop (b.write x).1 (i + 1) xs
        refine .inr ⟨0, left, by omega, .zero hfault, ?_⟩
        rw [List.take_zero, List.nil_append, writeLoop_cons,
          if_neg (mt (b.write_count_eq_zero_iff x left).mpr hzero)]
        rfl

theorem readLoop_succ {b : RingBuffer T z} (hne : ¬ b.read_index_ = b.write_index_) (data : List T)
    (i todo : ℕ) : b.readLoop data i (todo + 1) =
      b.skip.readLoop (data.set i (b.get b.read_index_)) (i + 1) todo := by
  rw [readLoop, if_neg hne]

theorem le_readLoop (b : RingBuffer T z) (data : List T) (i todo : ℕ) :
    i ≤ (b.readLoop data i todo).2.2 := by
  induction todo generalizing b data i with
  | zero => exact le_rfl
  | succ todo ih =>
    rw [readLoop]
    split
    · exact le_rfl
    · exact (Nat.le_succ i).trans (ih _ _ _)

/-- The loop of the burst read either goes through or stops at the first assignment that throws;
then it has taken one element more than it has stored. -/
theorem tryReadLoop_cases (faults : Faults T) (b : RingBuffer T z) (data : List T) (i todo : ℕ) :
    (NoFault faults i (b.readLoop data i todo).2.2 ∧
      tryReadLoop faults b data i todo = ((b.readLoop data i todo).1,
        (b.readLoop data i todo).2.1, .ok (b.readLoop data i todo).2.2)) ∨
    ∃ k left, i + k < (b.readLoop data i todo).2.2 ∧ FirstFault faults i k left ∧
      tryReadLoop faults b data i todo = ((b.readLoop data i (k + 1)).1,
        (b.readLoop data i k).2.1.set (i + k) left, .error (i + k)) := by
  induction todo generalizing b data i with
  | zero => exact .inl ⟨.of_le le_rfl, rfl⟩
  | succ todo ih =>
    rw [tryReadLoop]
    by_cases hempty : b.read_index_ = b.write_index_
    · rw [if_pos hempty, readLoop, if_pos hempty]
      exact .inl ⟨.of_le le_rfl, rfl⟩
    · rw [if_neg hempty, readLoop_succ hempty]
      cases hfault : faults i with
      | none =>
        rcases ih b.skip (data.set i (b.get b.read_index_)) (i + 1) with
          ⟨hnone, heq⟩ | ⟨k, left, hk, hfirst, heq⟩
        · exact .inl ⟨.succ hfault hnone, heq⟩
        · refine .inr ⟨k + 1, left, by omega, .succ hfault hfirst, ?_⟩
          dsimp only
          rw [heq, readLoop_succ hempty, readLoop_succ hempty, Nat.add_right_comm]
          rfl
      | some left =>
        have hle := le_readLoop b.skip (data.set i (b.get b.read_index_)) (i + 1) todo
        refine .inr ⟨0, left, by omega, .zero hfault, ?_⟩
        rw [readLoop_succ hempty]
        rfl

/-- The loop of `Peek` likewise. -/
theorem tryPeekLoop_cases (faults : Faults T) (b : RingBuffer T z) (data : List T) (i todo : ℕ) :
    (NoFault faults i (i + todo) ∧
      tryPeekLoop faults b data i todo = (b.peekLoop data i todo, .ok ())) ∨
    ∃ k left data', k < todo ∧ FirstFault faults i k left ∧
      tryPeekLoop faults b data i todo = (data', .error (i + k)) := by
  induction todo generalizing data i with
  | zero => exact .inl ⟨.of_le le_rfl, rfl⟩
  | succ todo ih =>
    rw [tryPeekLoop, peekLoop]
    cases hfault : faults i with
    | none =>
      have hindex : i + 1 + todo = i + (todo + 1) := by omega
      rcases ih (data.set i (b.get (b.read_index_ + .ofNat i))) (i + 1) with
        ⟨hnone, heq⟩ | ⟨k, left, data', hk, hfirst, heq⟩
      · exact .inl ⟨.succ hfault (hindex ▸ hnone), heq⟩
      · refine .inr ⟨k + 1, left, data', by omega, .succ hfault hfirst, ?_⟩
        dsimp only
        rw [heq, Nat.add_right_comm]
        rfl
    | some left => exact .inr ⟨0, left, _, by omega, .zero hfault, rfl⟩

/-! ### Calls that fail -/

/-- How many assignments a call makes if none throws. -/
def copies (b : RingBuffer T z) : Op T → ℕ
  | .reset => 0
  | .write _ => b.accepts 1
  | .writeBurst new_data btw => b.accepts (min btw new_data.length)
  | .read _ => min 1 b.occupied
  | .readBurst data btr => min (min btr data.length) b.occupied
  | .peek data btp => min (min btp data.length) b.occupied
  | .peekAt _ n => if n < b.occupied then 1 else 0

/-- The first assignment of the call that throws is that of element `i`, and it leaves `left`. -/
def FailsAt (b : RingBuffer T z) (op : Op T) (faults : Faults T) (i : ℕ) (left : T) : Prop :=
  i < b.copies op ∧ (∀ j < i, faults j = none) ∧ faults i = some left

/-- The queue after a call that failed at element `i`, leaving `left` in the target. -/
def afterFailure (push : List T → T → List T) (q : List T) (i : ℕ) (left : T) : Op T → List T
  | .write _ => push q left
  | .writeBurst new_data _ => push ((new_data.take i).foldl push q) left
  | .read _ => q.drop 1
  | .readBurst .. => q.drop (i + 1)
  | .reset | .peek .. | .peekAt .. => q

section
variable {op : Op T} {faults : Faults T} {i i' : ℕ} {left left' : T}

theorem not_failsAt (h : NoFault faults 0 (b.copies op)) : ¬ b.FailsAt op faults i left := by
  rintro ⟨hi, -, hleft⟩
  rw [h i (Nat.zero_le i) hi] at hleft
  cases hleft

theorem failsAt_of_first (hi : i < b.copies op) (h : FirstFault faults 0 i left) :
    b.FailsAt op faults i left := by
  obtain ⟨hnone, hleft⟩ := h
  rw [Nat.zero_add] at hnone hleft
  exact ⟨hi, fun j hj => hnone j (Nat.zero_le j) hj, hleft⟩

/-- A call fails once. -/
theorem FailsAt.unique (h : b.FailsAt op faults i left) (h' : b.FailsAt op faults i' left') :
    i = i' ∧ left = left' := by
  obtain ⟨-, hnone, hleft⟩ := h
  obtain ⟨-, hnone', hleft'⟩ := h'
  have hii : i = i' := by
    rcases Nat.lt_trichotomy i i' with hlt | heq | hgt
    · exact absurd ((hnone' i hlt).symm.trans hleft) (Option.some_ne_none _).symm
    · exact heq
    · exact absurd ((hnone i' hgt).symm.trans hleft') (Option.some_ne_none _).symm
  subst hii
  exact ⟨rfl, Option.some.inj (hleft.symm.trans hleft')⟩

/-- How a call may go: it goes through as if no assignment could throw, or it fails at the first
one that does. -/
def Goes (b : RingBuffer T z) (op : Op T) (faults : Faults T)
    (r : RingBuffer T z × List T × Except ℕ ℕ) : Prop :=
  ((∀ i left, ¬ b.FailsAt op faults i left) ∧
    r = ((b.apply op).1, (b.apply op).2.1, .ok (b.apply op).2.2)) ∨
  ∃ i left, b.FailsAt op faults i left ∧ r.2.2 = .error i ∧ r.1.Ok ∧
    r.1.enable_overwrite_ = b.enable_overwrite_ ∧
    r.1.contents = afterFailure b.push b.contents i left op

theorem Ok.tryWriteBurst (h : b.Ok) (faults : Faults T) (new_data : List T) (btw : ℕ) :
    b.Goes (.writeBurst new_data btw) faults (tryApply faults b (.writeBurst new_data btw)) := by
  have hcount : (b.writeLoop 0 (new_data.take btw)).2 =
      b.copies (.writeBurst new_data btw) := by
    rw [(h.writeLoop (new_data.take btw) 0).2.2.2, Nat.zero_add, List.length_take, copies]
  have happly : b.apply (.writeBurst new_data btw) = ((b.writeLoop 0 (new_data.take btw)).1,
      new_data, (b.writeLoop 0 (new_data.take btw)).2) := by
    rw [RingBuffer.apply, RingBuffer.writeBurst, take_clamp]
  have htry : tryApply faults b (.writeBurst new_data btw) =
      ((tryWriteLoop faults b 0 (new_data.take btw)).1, new_data,
        (tryWriteLoop faults b 0 (new_data.take btw)).2) := by
    rw [tryApply, RingBuffer.tryWriteBurst, take_clamp]
  rw [Goes, happly, htry]
  rcases tryWriteLoop_cases faults b 0 (new_data.take btw) with
    ⟨hnone, heq⟩ | ⟨k, left, hk, hfirst, heq⟩
  · rw [heq]
    exact .inl ⟨fun i left => not_failsAt (hcount ▸ hnone), rfl⟩
  · rw [Nat.zero_add, hcount] at hk
    have hle : k < btw := hk.trans_le ((b.accepts_le _).trans (Nat.min_le_left ..))
    have htake : (new_data.take btw).take k = new_data.take k := by
      rw [List.take_take, Nat.min_eq_left hle.le]
    obtain ⟨hok, hcontents, hover, -⟩ := h.writeLoop ((new_data.take btw).take k ++ [left]) 0
    rw [heq]
    refine .inr ⟨k, left, failsAt_of_first hk hfirst, ?_, hok, hover, ?_⟩
    · rw [Nat.zero_add]
    · rw [hcontents, List.foldl_append, htake]
      rfl

theorem Ok.tryReadBurst (h : b.Ok) (faults : Faults T) (data : List T) (btr : ℕ) :
    b.Goes (.readBurst data btr) faults (tryApply faults b (.readBurst data btr)) := by
  have hlen : 0 + min btr data.length ≤ data.length := by omega
  have hcount : (b.readLoop data 0 (min btr data.length)).2.2 = b.copies (.readBurst data btr) := by
    obtain ⟨taken, -, htaken, -, -, -, hcount⟩ := h.readLoop hlen
    rw [hcount, Nat.zero_add, htaken, copies]
  have happly : b.apply (.readBurst data btr) = b.readLoop data 0 (min btr data.length) := by
    rw [RingBuffer.apply, RingBuffer.readBurst, clamp_eq]
  have htry : tryApply faults b (.readBurst data btr) =
      tryReadLoop faults b data 0 (min btr data.length) := by
    rw [tryApply, RingBuffer.tryReadBurst, clamp_eq]
  rw [Goes, happly, htry]
  rcases tryReadLoop_cases faults b data 0 (min btr data.length) with
    ⟨hnone, heq⟩ | ⟨k, left, hk, hfirst, heq⟩
  · rw [heq]
    exact .inl ⟨fun i left => not_failsAt (hcount ▸ hnone), rfl⟩
  · rw [Nat.zero_add, hcount] at hk
    have hle : k < min (min btr data.length) b.occupied := hk
    have hlen' : 0 + (k + 1) ≤ data.length := by omega
    obtain ⟨taken, hcontents, htaken, hok, hover, -, -⟩ := h.readLoop hlen'
    rw [← length_contents] at htaken
    rw [heq]
    refine .inr ⟨k, left, failsAt_of_first hk hfirst, ?_, hok, hover, ?_⟩
    · rw [Nat.zero_add]
    · exact (BoundedQueue.eq_take_drop hcontents htaken).2

/-- A single write is a burst of one element. -/
theorem tryApply_write (faults : Faults T) (b : RingBuffer T z) (x : T) :
    tryApply faults b (.write x) = tryApply faults b (.writeBurst [x] 1) := by
  have hloop : tryWrite faults b x = tryWriteLoop faults b 0 [x] := by
    rw [tryWrite, tryWriteLoop]
    cases faults 0 <;> rfl
  rw [tryApply, hloop]
  rfl

/-- A single read is a burst of one element. -/
theorem tryApply_read (faults : Faults T) (b : RingBuffer T z) (data : T) :
    tryApply faults b (.read data) = tryApply faults b (.readBurst [data] 1) := by
  have hburst : tryApply faults b (.readBurst [data] 1) = tryReadLoop faults b [data] 0 1 := rfl
  rw [hburst, tryApply, tryRead, tryReadLoop]
  split
  · rfl
  · cases faults 0 <;> rfl

theorem apply_write (b : RingBuffer T z) (x : T) :
    b.apply (.write x) = b.apply (.writeBurst [x] 1) := by
  have hburst : b.writeBurst [x] 1 = b.writeLoop 0 [x] := rfl
  rw [apply, apply, hburst, writeLoop, write]
  split
  · split <;> rfl
  · rfl

theorem apply_read (b : RingBuffer T z) (data : T) :
    b.apply (.read data) = b.apply (.readBurst [data] 1) := by
  have hburst : b.readBurst [data] 1 = b.readLoop [data] 0 1 := rfl
  rw [apply, apply, hburst, readLoop, read]
  split <;> rfl

/-- A call goes as another one with the same effect. -/
theorem Goes.congr {op' : Op T} {r : RingBuffer T z × List T × Except ℕ ℕ}
    (h : b.Goes op' faults r) (hcopies : b.copies op = b.copies op')
    (happly : b.apply op = b.apply op')
    (hafter : ∀ i < b.copies op, ∀ left, afterFailure b.push b.contents i left op =
      afterFailure b.push b.contents i left op') : b.Goes op faults r := by
  have hfails : ∀ i left, b.FailsAt op faults i left ↔ b.FailsAt op' faults i left := by
    intro i left
    rw [FailsAt, FailsAt, hcopies]
  rcases h with ⟨hnone, heq⟩ | ⟨i, left, hi, herror, hok, hover, hcontents⟩
  · exact .inl ⟨fun i left hi => hnone i left ((hfails i left).mp hi), happly ▸ heq⟩
  · have hi' := (hfails i left).mpr hi
    exact .inr ⟨i, left, hi', herror, hok, hover, hcontents.trans (hafter i hi'.1 left).symm⟩

/-- **How a call goes**, from any well-formed buffer. -/
theorem Ok.tryApply (h : b.Ok) (op : Op T) (faults : Faults T) :
    b.Goes op faults (tryApply faults b op) := by
  cases op with
  | reset => exact .inl ⟨fun i left hfails => absurd hfails.1 (Nat.not_lt_zero i), rfl⟩
  | write x =>
    rw [tryApply_write]
    refine (h.tryWriteBurst faults [x] 1).congr rfl (apply_write b x) fun i hi left => ?_
    obtain rfl : i = 0 := Nat.lt_one_iff.mp (hi.trans_le (b.accepts_le 1))
    rfl
  | writeBurst new_data btw => exact h.tryWriteBurst faults new_data btw
  | read data =>
    rw [tryApply_read]
    refine (h.tryReadBurst faults [data] 1).congr rfl (apply_read b data) fun i hi left => ?_
    obtain rfl : i = 0 := Nat.lt_one_iff.mp (hi.trans_le (Nat.min_le_left ..))
    rfl
  | readBurst data btr => exact h.tryReadBurst faults data btr
  | peek data btp =>
    rcases tryPeekLoop_cases faults b data 0 (min (min btp data.length) b.occupied) with
      ⟨hnone, heq⟩ | ⟨k, left, data', hk, hfirst, heq⟩
    · rw [Nat.zero_add] at hnone
      refine .inl ⟨fun i left => not_failsAt hnone, ?_⟩
      simp only [RingBuffer.tryApply, tryPeek, RingBuffer.apply, peek, h.masked, heq]
      rfl
    · refine .inr ⟨k, left, failsAt_of_first hk hfirst, ?_, h, rfl, rfl⟩
      simp only [RingBuffer.tryApply, tryPeek, h.masked, heq, Nat.zero_add]
      rfl
  | peekAt data n =>
    by_cases hn : n < b.occupied
    · have hone : b.copies (.peekAt data n) = 1 := if_pos hn
      cases hfault : faults 0 with
      | none =>
        refine .inl ⟨fun i left => not_failsAt (hone ▸ .succ hfault (.of_le le_rfl)), ?_⟩
        simp only [RingBuffer.tryApply, tryPeekAt, RingBuffer.apply, peekAt, h.masked, hfault,
          if_neg (Nat.not_le.mpr hn)]
      | some left =>
        have hfails : b.FailsAt (.peekAt data n) faults 0 left :=
          ⟨hone ▸ Nat.one_pos, fun j hj => absurd hj (Nat.not_lt_zero j), hfault⟩
        refine .inr ⟨0, left, hfails, ?_, h, rfl, rfl⟩
        simp only [RingBuffer.tryApply, tryPeekAt, h.masked, hfault, if_neg (Nat.not_le.mpr hn)]
    · have hzero : b.copies (.peekAt data n) = 0 := if_neg hn
      refine .inl ⟨fun i left => not_failsAt (hzero ▸ .of_le le_rfl), ?_⟩
      simp only [RingBuffer.tryApply, tryPeekAt, RingBuffer.apply, peekAt, h.masked,
        if_pos (Nat.not_lt.mp hn)]

end

end RingBuffer

end XmSigma
