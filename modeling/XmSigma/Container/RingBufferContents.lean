import XmSigma.Container.RingBuffer
import XmSigma.Lib.BoundedQueue

/-!
# What a `RingBuffer` holds

The elements between the two indices, oldest first, are the contents of the buffer. A buffer is
well formed when they are fewer than `N`; then the masked tests for full and empty, the clamps and
the slots all mean what they should, wherever the indices are in the words. Each operation is
described once, by what it does to the contents.

## Main definitions

* `RingBuffer.Ok`, `RingBuffer.contents`

## Main results

* `Ok.write`: a single write is a `push` on the contents
* `Ok.writeBurst`, `Ok.read`, `Ok.readBurst`: the other operations
-/

namespace XmSigma

namespace RingBuffer

variable {T : Type*} {z : Pow2Size} {b : RingBuffer T z} {x : T}

/-! ### Slots and the elements in them -/

@[simp] theorem get_set_self (b : RingBuffer T z) (i : UInt64) (x : T) :
    (b.set i x).get i = x := by
  rw [get, set]
  exact Vector.getElem_set_self ..

theorem get_set_of_ne {i j : UInt64} (h : z.slot i ≠ z.slot j) (b : RingBuffer T z) (x : T) :
    (b.set i x).get j = b.get j := by
  rw [get, get, set]
  exact Vector.getElem_set_ne (z.slot_lt i) (z.slot_lt j) h

/-- Less than a lap ahead there is another slot. -/
theorem slot_add_ne (i : UInt64) {n : ℕ} (hpos : 0 < n) (hlt : n < z.card) :
    z.slot (i + .ofNat n) ≠ z.slot i := by
  have hadd : i + .ofNat n = .ofNat (i.toNat + n) := by
    rw [UInt64.ofNat_add, UInt64.ofNat_toNat]
  rw [hadd, z.slot_ofNat, z.slot_eq]
  intro heq
  have := z.slot_inj (Nat.le_add_right i.toNat n) (by omega) le_rfl (by omega) heq
  omega

/-- The `n` elements from index `i` on. -/
def window (b : RingBuffer T z) (i : UInt64) : ℕ → List T
  | 0 => []
  | n + 1 => b.get i :: b.window (i + 1) n

@[simp] theorem length_window (b : RingBuffer T z) (i : UInt64) (n : ℕ) :
    (b.window i n).length = n := by
  induction n generalizing i with
  | zero => rfl
  | succ n ih => rw [window, List.length_cons, ih]

theorem add_one_add (i : UInt64) (n : ℕ) : i + 1 + .ofNat n = i + .ofNat (n + 1) := by
  rw [UInt64.ofNat_add, UInt64.add_assoc, UInt64.add_comm 1]
  rfl

theorem window_succ (b : RingBuffer T z) (i : UInt64) (n : ℕ) :
    b.window i (n + 1) = b.window i n ++ [b.get (i + .ofNat n)] := by
  induction n generalizing i with
  | zero => simp [window]
  | succ n ih =>
    rw [window, ih, add_one_add]
    rfl

theorem window_congr {b' : RingBuffer T z} (h : b'.buffer_ = b.buffer_) (i : UInt64) (n : ℕ) :
    b'.window i n = b.window i n := by
  induction n generalizing i with
  | zero => rfl
  | succ n ih => rw [window, window, ih, get, get, h]

/-- Storing less than a lap above a window does not touch it. -/
theorem window_set (b : RingBuffer T z) (x : T) {n m : ℕ} (hlt : n + m < z.card) (i : UInt64) :
    (b.set (i + .ofNat (n + m)) x).window i n = b.window i n := by
  induction n generalizing i with
  | zero => rfl
  | succ n ih =>
    have hne := slot_add_ne i (n := n + 1 + m) (by omega) hlt
    have hnext : i + .ofNat (n + 1 + m) = i + 1 + .ofNat (n + m) := by
      rw [add_one_add, Nat.add_right_comm]
    rw [window, window, get_set_of_ne hne, hnext, ih (by omega)]

/-! ### Well-formed buffers -/

/-- How many elements are queued. -/
def occupied (b : RingBuffer T z) : ℕ := (b.write_index_ - b.read_index_).toNat

/-- The indices are less than a lap apart. -/
def Ok (b : RingBuffer T z) : Prop := b.occupied < z.card

/-- The queued elements, oldest first. -/
def contents (b : RingBuffer T z) : List T := b.window b.read_index_ b.occupied

@[simp] theorem length_contents (b : RingBuffer T z) : b.contents.length = b.occupied :=
  b.length_window ..

theorem write_index_eq (b : RingBuffer T z) :
    b.write_index_ = b.read_index_ + .ofNat b.occupied := by
  rw [occupied, UInt64.ofNat_toNat, UInt64.add_comm, UInt64.sub_add_cancel]

/-- Equal indices leave nothing between them. -/
theorem occupied_eq_zero (h : b.read_index_ = b.write_index_) : b.occupied = 0 := by
  rw [occupied, h, UInt64.sub_self]
  rfl

theorem contents_eq_nil (h : b.occupied = 0) : b.contents = [] := by
  rw [contents, h]
  rfl

theorem construct_ok (raw : Vector T z.card) (enable_overwrite : Bool) :
    (construct raw enable_overwrite).Ok ∧ (construct raw enable_overwrite).contents = [] := by
  have hzero : (construct raw enable_overwrite).occupied = 0 := occupied_eq_zero rfl
  exact ⟨hzero.trans_lt z.card_pos, contents_eq_nil hzero⟩

theorem reset_ok (b : RingBuffer T z) : b.reset.Ok ∧ b.reset.contents = [] := by
  have hzero : b.reset.occupied = 0 := occupied_eq_zero rfl
  exact ⟨hzero.trans_lt z.card_pos, contents_eq_nil hzero⟩

theorem empty_iff (b : RingBuffer T z) : b.read_index_ = b.write_index_ ↔ b.occupied = 0 := by
  constructor
  · exact occupied_eq_zero
  · intro hzero
    rw [b.write_index_eq, hzero]
    simp

namespace Ok

/-- The masked occupancy is the occupancy. -/
theorem masked (h : b.Ok) :
    ((b.write_index_ - b.read_index_) &&& z.mask).toNat = b.occupied := by
  rw [z.toNat_and_mask]
  exact Nat.mod_eq_of_lt h

/-- The full test compares the occupancy with `N - 1`. -/
theorem full_iff (h : b.Ok) :
    (b.write_index_ + 1) &&& z.mask = b.read_index_ &&& z.mask ↔ b.occupied + 1 = z.card := by
  have hread : b.read_index_ = .ofNat b.read_index_.toNat := UInt64.ofNat_toNat.symm
  have hwrite : b.write_index_ + 1 = .ofNat (b.read_index_.toNat + (b.occupied + 1)) := by
    rw [b.write_index_eq, UInt64.ofNat_add, UInt64.ofNat_add, UInt64.ofNat_toNat, UInt64.add_assoc]
    rfl
  rw [hwrite]
  nth_rewrite 2 [hread]
  rw [z.and_mask_eq_iff]
  constructor
  · intro heq
    by_contra hne
    have hlt : b.occupied + 1 < z.card := by
      unfold Ok at h
      omega
    have := z.slot_inj (Nat.le_add_right ..) (Nat.add_lt_add_left hlt _) le_rfl
      (Nat.lt_add_of_pos_right z.card_pos) heq
    omega
  · intro heq
    rw [heq, Nat.add_mod_right]

end Ok

/-! ### Moving the indices -/

@[simp] theorem put_read_index (b : RingBuffer T z) (x : T) :
    (b.put x).read_index_ = b.read_index_ := rfl

/-- Seen from the same index on, a stored element follows the queued ones. -/
theorem Ok.window_put (h : b.Ok) (x : T) :
    (b.put x).window b.read_index_ (b.occupied + 1) = b.contents ++ [x] := by
  have hset := b.window_set x (n := b.occupied) (m := 0) h b.read_index_
  rw [Nat.add_zero, ← write_index_eq] at hset
  have hput : (b.put x).window b.read_index_ (b.occupied + 1) =
      (b.set b.write_index_ x).window b.read_index_ (b.occupied + 1) :=
    window_congr (show (b.put x).buffer_ = (b.set b.write_index_ x).buffer_ from rfl) _ _
  rw [hput, window_succ, hset, ← write_index_eq, get_set_self]
  rfl

theorem occupied_put (hlt : b.occupied + 1 < z.card) (x : T) :
    (b.put x).occupied = b.occupied + 1 := by
  have hcard := z.card_le
  have hnext : b.write_index_ + 1 - b.read_index_ = b.write_index_ - b.read_index_ + 1 := by grind
  show (b.write_index_ + 1 - b.read_index_).toNat = _
  rw [hnext]
  exact toNat_add_one (show b.occupied < _ by omega)

theorem occupied_skip_put (b : RingBuffer T z) (x : T) : (b.skip.put x).occupied = b.occupied := by
  have hnext : b.write_index_ + 1 - (b.read_index_ + 1) = b.write_index_ - b.read_index_ := by
    grind
  show (b.write_index_ + 1 - (b.read_index_ + 1)).toNat = _
  rw [hnext]
  rfl

theorem occupied_skip (hpos : b.occupied ≠ 0) : b.skip.occupied + 1 = b.occupied := by
  have hnext : b.write_index_ - b.read_index_ = b.write_index_ - (b.read_index_ + 1) + 1 := by
    grind
  have hmod : b.occupied = (b.skip.occupied + 1) % 2 ^ 64 := by
    rw [occupied, hnext, UInt64.toNat_add]
    rfl
  have hlt : b.skip.occupied < 2 ^ 64 := UInt64.toNat_lt _
  omega

/-! ### Single operations -/

/-- What the policy makes of a queue that is offered an element. -/
def push (b : RingBuffer T z) : List T → T → List T :=
  if b.enable_overwrite_ then BoundedQueue.slide (z.card - 1)
  else BoundedQueue.offer (z.card - 1)

theorem push_congr {b' : RingBuffer T z} (h : b'.enable_overwrite_ = b.enable_overwrite_) :
    b'.push = b.push := by
  funext q y
  rw [push, push, h]

/-- How many of `n` elements a write accepts. -/
def accepts (b : RingBuffer T z) (n : ℕ) : ℕ :=
  if b.enable_overwrite_ then n else min n (z.card - 1 - b.occupied)

theorem accepts_le (b : RingBuffer T z) (n : ℕ) : b.accepts n ≤ n := by
  rw [accepts]
  split <;> omega

theorem accepts_one_eq_zero_iff :
    b.accepts 1 = 0 ↔ b.enable_overwrite_ = false ∧ z.card - 1 ≤ b.occupied := by
  rw [accepts]
  cases b.enable_overwrite_ with
  | false => simp only [Bool.false_eq_true, if_false, true_and]; omega
  | true => simp

/-- A single write pushes the element; it returns 0 only where it refuses it. -/
theorem Ok.write (h : b.Ok) (x : T) :
    (b.write x).1.Ok ∧ (b.write x).1.contents = b.push b.contents x ∧
      (b.write x).1.enable_overwrite_ = b.enable_overwrite_ ∧
      (b.write x).2 = b.accepts 1 := by
  have hlt : b.occupied < z.card := h
  rw [RingBuffer.write, push]
  by_cases hfull : b.occupied + 1 = z.card
  · rw [if_pos (h.full_iff.mpr hfull)]
    cases hover : b.enable_overwrite_ with
    | false =>
      have hle : z.card - 1 ≤ b.contents.length := by rw [length_contents]; omega
      simp only [Bool.not_false, if_true, Bool.false_eq_true, if_false]
      refine ⟨h, (BoundedQueue.offer_of_le hle x).symm, hover, ?_⟩
      rw [accepts, hover, if_neg Bool.false_ne_true]
      omega
    | true =>
      have hle : z.card - 1 ≤ b.contents.length := by rw [length_contents]; omega
      simp only [Bool.not_true, Bool.false_eq_true, if_true, if_false]
      refine ⟨?_, ?_, hover, ?_⟩
      · rw [Ok, occupied_skip_put]
        exact h
      · rw [BoundedQueue.slide_of_le hle, ← h.window_put, contents, occupied_skip_put]
        exact window_congr (show (b.skip.put x).buffer_ = (b.put x).buffer_ from rfl) _ _
      · rw [accepts, hover, if_pos rfl]
  · rw [if_neg (mt h.full_iff.mp hfull)]
    have hroom : b.occupied + 1 < z.card := by omega
    have hlen : b.contents.length < z.card - 1 := by rw [length_contents]; omega
    have hput : (b.put x).contents = b.contents ++ [x] := by
      rw [contents, occupied_put hroom, put_read_index, h.window_put]
    refine ⟨?_, ?_, rfl, ?_⟩
    · rw [Ok, occupied_put hroom]
      exact hroom
    · rw [hput]
      split
      · rw [BoundedQueue.slide_of_lt hlen]
      · rw [BoundedQueue.offer_of_lt hlen]
    · rw [accepts]
      split <;> omega

/-- Skipping takes the oldest element away. -/
theorem Ok.skip (h : b.Ok) (hpos : b.occupied ≠ 0) :
    b.skip.Ok ∧ b.contents = b.get b.read_index_ :: b.skip.contents := by
  have hocc := b.occupied_skip hpos
  constructor
  · unfold Ok at *
    omega
  · rw [contents, ← hocc, window]
    exact congrArg _ (window_congr (show b.buffer_ = b.skip.buffer_ from rfl) _ _)

/-- A single read takes the oldest element, if there is one. -/
theorem Ok.read (h : b.Ok) (data : T) :
    (b.read data).1.Ok ∧ (b.read data).1.enable_overwrite_ = b.enable_overwrite_ ∧
      (b.read data).2.2 = min 1 b.occupied ∧
      b.contents = [(b.read data).2.1].take (b.read data).2.2 ++ (b.read data).1.contents := by
  rw [RingBuffer.read]
  by_cases hzero : b.occupied = 0
  · rw [if_pos (b.empty_iff.mpr hzero), hzero]
    exact ⟨h, rfl, rfl, rfl⟩
  · rw [if_neg (mt b.empty_iff.mp hzero)]
    obtain ⟨hok, hcontents⟩ := h.skip hzero
    have hone : 1 = min 1 b.occupied := by omega
    exact ⟨hok, rfl, hone, hcontents⟩

/-! ### Bursts -/

/-- Storing one element and then `n` more from there on is storing all of them. -/
theorem splice_set {data : List T} {i : ℕ} (hlt : i < data.length) (x : T) (xs : List T) :
    (data.set i x).take (i + 1) ++ xs ++ (data.set i x).drop (i + 1 + xs.length) =
      data.take i ++ (x :: xs) ++ data.drop (i + (x :: xs).length) := by
  have htake : (data.set i x).take (i + 1) = data.take i ++ [x] := by
    rw [List.take_add_one, List.take_set_of_le le_rfl]
    simp [hlt]
  have hdrop : (data.set i x).drop (i + 1 + xs.length) = data.drop (i + (x :: xs).length) := by
    rw [List.drop_set_of_lt (by omega), List.length_cons]
    congr 1
    omega
  rw [htake, hdrop]
  simp

/-- The loop of the burst read takes the oldest elements in order and stores them into the caller's
vector from index `i` on. -/
theorem Ok.readLoop (h : b.Ok) {data : List T} {i todo : ℕ} (hlen : i + todo ≤ data.length) :
    ∃ taken, b.contents = taken ++ (b.readLoop data i todo).1.contents ∧
      taken.length = min todo b.occupied ∧
      (b.readLoop data i todo).1.Ok ∧
      (b.readLoop data i todo).1.enable_overwrite_ = b.enable_overwrite_ ∧
      (b.readLoop data i todo).2.1 = data.take i ++ taken ++ data.drop (i + taken.length) ∧
      (b.readLoop data i todo).2.2 = i + taken.length := by
  induction todo generalizing b data i with
  | zero => exact ⟨[], rfl, (Nat.zero_min _).symm, h, rfl, by simp [RingBuffer.readLoop], rfl⟩
  | succ todo ih =>
    rw [RingBuffer.readLoop]
    by_cases hzero : b.occupied = 0
    · rw [if_pos (b.empty_iff.mpr hzero), hzero]
      exact ⟨[], rfl, rfl, h, rfl, by simp, rfl⟩
    · rw [if_neg (mt b.empty_iff.mp hzero)]
      obtain ⟨hok, hcontents⟩ := h.skip hzero
      have hocc := b.occupied_skip hzero
      have hlen' : i + 1 + todo ≤ (data.set i (b.get b.read_index_)).length := by
        rw [List.length_set]
        omega
      obtain ⟨taken, hleft, hcount, hok', hover, hdata, hn⟩ := ih hok hlen'
      refine ⟨b.get b.read_index_ :: taken, ?_, ?_, hok', hover, ?_, ?_⟩
      · rw [hcontents, hleft]
        rfl
      · rw [List.length_cons, hcount]
        omega
      · rw [hdata, splice_set (by omega)]
      · rw [hn, List.length_cons]
        omega

/-- Clamping to the caller's vector. -/
theorem clamp_eq (n len : ℕ) : (if n > len then len else n) = min n len := by
  split <;> omega

theorem take_clamp (data : List T) (n : ℕ) :
    data.take (if n > data.length then data.length else n) = data.take n := by
  rw [clamp_eq, ← List.take_eq_take_min]

/-- The burst read takes the oldest elements, as many as are asked for, fit and are there. -/
theorem Ok.readBurst (h : b.Ok) (data : List T) (btr : ℕ) :
    ∃ taken, b.contents = taken ++ (b.readBurst data btr).1.contents ∧
      taken.length = min (min btr data.length) b.occupied ∧
      (b.readBurst data btr).1.Ok ∧
      (b.readBurst data btr).1.enable_overwrite_ = b.enable_overwrite_ ∧
      (b.readBurst data btr).2.1 = taken ++ data.drop taken.length ∧
      (b.readBurst data btr).2.2 = taken.length := by
  have hlen : 0 + min btr data.length ≤ data.length := by omega
  rw [RingBuffer.readBurst, clamp_eq]
  simpa using h.readLoop hlen

/-- One round of the burst write is a single write, and the loop goes on unless that refuses. -/
theorem writeLoop_cons (b : RingBuffer T z) (i : ℕ) (x : T) (xs : List T) :
    b.writeLoop i (x :: xs) =
      if (b.write x).2 = 0 then (b, i) else (b.write x).1.writeLoop (i + 1) xs := by
  rw [RingBuffer.writeLoop, RingBuffer.write]
  split
  · split <;> rfl
  · rfl

/-- After an accepted element, the buffer accepts one less. -/
theorem Ok.accepts_write (h : b.Ok) (x : T) (hpos : b.accepts 1 ≠ 0) (n : ℕ) :
    b.accepts (n + 1) = 1 + (b.write x).1.accepts n := by
  obtain ⟨-, hcontents, hover, -⟩ := h.write x
  rw [accepts, accepts, hover]
  cases hflag : b.enable_overwrite_ with
  | true => exact Nat.add_comm n 1
  | false =>
    have hlt : b.contents.length < z.card - 1 := by
      rw [length_contents]
      by_contra hle
      exact hpos (accepts_one_eq_zero_iff.mpr ⟨hflag, by omega⟩)
    have hocc : (b.write x).1.occupied = b.occupied + 1 := by
      rw [← length_contents, hcontents, push, hflag, if_neg Bool.false_ne_true,
        BoundedQueue.offer_of_lt hlt, List.length_append, length_contents]
      rfl
    rw [length_contents] at hlt
    rw [hocc, if_neg Bool.false_ne_true, if_neg Bool.false_ne_true]
    omega

/-- The loop of the burst write pushes the elements one after another. -/
theorem Ok.writeLoop (h : b.Ok) (xs : List T) (i : ℕ) :
    (b.writeLoop i xs).1.Ok ∧ (b.writeLoop i xs).1.contents = xs.foldl b.push b.contents ∧
      (b.writeLoop i xs).1.enable_overwrite_ = b.enable_overwrite_ ∧
      (b.writeLoop i xs).2 = i + b.accepts xs.length := by
  induction xs generalizing b i with
  | nil => exact ⟨h, rfl, rfl, by simp [RingBuffer.writeLoop, accepts]⟩
  | cons x xs ih =>
    obtain ⟨hok, hcontents, hover, hn⟩ := h.write x
    rw [writeLoop_cons, hn]
    by_cases hzero : b.accepts 1 = 0
    · -- refused: overwriting is off and the buffer is full, so nothing of the rest fits either
      obtain ⟨hflag, hfull⟩ := accepts_one_eq_zero_iff.mp hzero
      have hroom : z.card - 1 - b.contents.length = 0 := by
        rw [length_contents]
        omega
      have hle : b.contents.length ≤ z.card - 1 := by
        rw [length_contents]
        exact Nat.le_sub_one_of_lt h
      rw [if_pos hzero]
      refine ⟨h, ?_, rfl, ?_⟩
      · rw [push, hflag, if_neg Bool.false_ne_true, BoundedQueue.foldl_offer hle, hroom]
        simp
      · rw [accepts, hflag, if_neg Bool.false_ne_true]
        omega
    · rw [if_neg hzero]
      obtain ⟨hok', hcontents', hover', hn'⟩ := ih hok (i + 1)
      refine ⟨hok', ?_, hover'.trans hover, ?_⟩
      · rw [hcontents', push_congr hover, hcontents]
        rfl
      · rw [hn', List.length_cons, h.accepts_write x hzero]
        omega

/-- The burst write pushes the elements it is asked to write, as far as they are there. -/
theorem Ok.writeBurst (h : b.Ok) (new_data : List T) (btw : ℕ) :
    (b.writeBurst new_data btw).1.Ok ∧
      (b.writeBurst new_data btw).1.contents = (new_data.take btw).foldl b.push b.contents ∧
      (b.writeBurst new_data btw).1.enable_overwrite_ = b.enable_overwrite_ ∧
      (b.writeBurst new_data btw).2 = b.accepts (min btw new_data.length) := by
  rw [RingBuffer.writeBurst, take_clamp, ← List.length_take]
  simpa using h.writeLoop (new_data.take btw) 0

end RingBuffer

end XmSigma
