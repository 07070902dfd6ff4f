import XmSigma.Lib.Word64

/-!
# `RingBuffer`

The mutex-guarded circular buffer of `ring_buffer.hpp`. Every member function holds the lock from
its first to its last access, so each is one function on the members here.

`N` is the parameter `z`: a power of two that fits in a `size_t`, which is what the `static_assert`
admits (`Pow2Size.exists_iff`). `size_mask_` is set to `N - 1` and never changes, so it is `z.mask`.
The two indices run freely through the words and wrap; every access masks them, so it is in bounds.
A `std::vector` is a list. Requests, sizes and returned counts are numbers; none of them is ever
added to an index except after it was compared with the occupancy.
-/

namespace XmSigma

/-- The members of `RingBuffer<T, N>`. -/
structure RingBuffer (T : Type*) (z : Pow2Size) where
  buffer_ : Vector T z.card
  write_index_ : UInt64
  read_index_ : UInt64
  enable_overwrite_ : Bool

namespace RingBuffer

variable {T : Type*} {z : Pow2Size}

/-- The constructor. `buffer_` has no initializer: its elements are whatever they are. -/
def construct (raw : Vector T z.card) (enable_overwrite : Bool) : RingBuffer T z where
  buffer_ := raw
  write_index_ := 0
  read_index_ := 0
  enable_overwrite_ := enable_overwrite

/-- `Reset`. -/
def reset (b : RingBuffer T z) : RingBuffer T z := { b with write_index_ := 0, read_index_ := 0 }

/-! ### Size queries -/

/-- `IsEmpty`: the two indices are equal. -/
def isEmpty (b : RingBuffer T z) : Bool := b.read_index_ = b.write_index_

/-- `IsFull`: one more element would make the two slots equal. -/
def isFull (b : RingBuffer T z) : Bool :=
  (b.write_index_ + 1) &&& z.mask = b.read_index_ &&& z.mask

/-- `GetFreeSize`: one slot stays free. -/
def getFreeSize (b : RingBuffer T z) : UInt64 :=
  z.size - 1 - ((b.write_index_ - b.read_index_) &&& z.mask)

/-- `GetOccupiedSize`. -/
def getOccupiedSize (b : RingBuffer T z) : UInt64 := (b.write_index_ - b.read_index_) &&& z.mask

/-! ### Accesses -/

/-- `buffer_[i & size_mask_]`. -/
def get (b : RingBuffer T z) (i : UInt64) : T :=
  have := z.slot_lt i
  b.buffer_[z.slot i]

/-- `buffer_[i & size_mask_] = x`. -/
def set (b : RingBuffer T z) (i : UInt64) (x : T) : RingBuffer T z :=
  { b with buffer_ := b.buffer_.set (z.slot i) x (z.slot_lt i) }

/-- `buffer_[(write_index_++) & size_mask_] = x`. -/
def put (b : RingBuffer T z) (x : T) : RingBuffer T z :=
  { b.set b.write_index_ x with write_index_ := b.write_index_ + 1 }

/-- `++read_index_`. -/
def skip (b : RingBuffer T z) : RingBuffer T z := { b with read_index_ := b.read_index_ + 1 }

/-! ### Burst read and write -/

/-- The loop of the burst `Read`, from index `i` on with `todo` rounds left. -/
def readLoop (b : RingBuffer T z) (data : List T) (i : ℕ) : ℕ → RingBuffer T z × List T × ℕ
  | 0 => (b, data, i)
  | todo + 1 =>
    if b.read_index_ = b.write_index_ then (b, data, i)
    else readLoop b.skip (data.set i (b.get b.read_index_)) (i + 1) todo

/-- `Read(std::vector<T>& data, std::size_t btr)`: the buffer, `data` and the count afterwards. -/
def readBurst (b : RingBuffer T z) (data : List T) (btr : ℕ) : RingBuffer T z × List T × ℕ :=
  let btr := if btr > data.length then data.length else btr
  b.readLoop data 0 btr

/-- The loop of `Peek`. -/
def peekLoop (b : RingBuffer T z) (data : List T) (i : ℕ) : ℕ → List T
  | 0 => data
  | todo + 1 => b.peekLoop (data.set i (b.get (b.read_index_ + .ofNat i))) (i + 1) todo

/-- `Peek(std::vector<T>& data, std::size_t btp)`: `data` and the count afterwards. -/
def peek (b : RingBuffer T z) (data : List T) (btp : ℕ) : List T × ℕ :=
  let available := ((b.write_index_ - b.read_index_) &&& z.mask).toNat
  let n := min (min btp data.length) available
  (b.peekLoop data 0 n, n)

/-- The loop of the burst `Write` over the elements that are left. -/
def writeLoop (b : RingBuffer T z) (i : ℕ) : List T → RingBuffer T z × ℕ
  | [] => (b, i)
  | x :: rest =>
    if (b.write_index_ + 1) &&& z.mask = b.read_index_ &&& z.mask then
      if !b.enable_overwrite_ then (b, i) else writeLoop (b.skip.put x) (i + 1) rest
    else writeLoop (b.put x) (i + 1) rest

/-- `Write(const std::vector<T>& new_data, std::size_t btw)`. -/
def writeBurst (b : RingBuffer T z) (new_data : List T) (btw : ℕ) : RingBuffer T z × ℕ :=
  let btw := if btw > new_data.length then new_data.length else btw
  b.writeLoop 0 (new_data.take btw)

/-! ### Single read and write -/

/-- `Read(T& data)`. -/
def read (b : RingBuffer T z) (data : T) : RingBuffer T z × T × ℕ :=
  if b.read_index_ = b.write_index_ then (b, data, 0)
  else (b.skip, b.get b.read_index_, 1)

/-- `PeekAt(T& data, std::size_t n)`. -/
def peekAt (b : RingBuffer T z) (data : T) (n : ℕ) : T × ℕ :=
  if n ≥ ((b.write_index_ - b.read_index_) &&& z.mask).toNat then (data, 0)
  else (b.get (b.read_index_ + .ofNat n), 1)

/-- `Write(const T& new_data)`. -/
def write (b : RingBuffer T z) (new_data : T) : RingBuffer T z × ℕ :=
  if (b.write_index_ + 1) &&& z.mask = b.read_index_ &&& z.mask then
    if !b.enable_overwrite_ then (b, 0) else (b.skip.put new_data, 1)
  else (b.put new_data, 1)

end RingBuffer

end XmSigma
