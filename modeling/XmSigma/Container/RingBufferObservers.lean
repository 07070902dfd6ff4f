import XmSigma.Container.RingBufferRuns

/-!
# What the observers of a `RingBuffer` say

The size queries and the two ways to look at the queue without taking from it, compared with an
abstract queue that knows nothing of indices: the elements that the calls since construction have
left, under either policy. `IsEmpty` compares the raw indices, the others compare masked ones; the
two views agree because the indices of a well-formed buffer are less than a lap apart.

## Main definitions

* `RingBuffer.queue`: the queue that the calls of a run describe
* `RingBuffer.afterReads`: the buffer after a number of single reads

## Main results

* `Ok.peek_eq`: a peek copies what a burst read would take
* `Ok.read_afterReads`: what a single read returns after others
* `observers_truthful`: all observers, in every state of every run
-/

namespace XmSigma

namespace RingBuffer

variable {T : Type*} {z : Pow2Size} {b : RingBuffer T z} {enable_overwrite : Bool}
  {tr : List (Event T)}

/-! ### The abstract queue -/

/-- How a queue of at most `cap` elements takes in a new one, under either policy. -/
def policy (enable_overwrite : Bool) (cap : ℕ) : List T → T → List T :=
  if enable_overwrite then BoundedQueue.slide cap else BoundedQueue.offer cap

/-- The elements that the calls of a run leave queued. -/
def queue (enable_overwrite : Bool) (cap : ℕ) (tr : List (Event T)) : List T :=
  (tr.map Event.op).foldl (queueOp (policy enable_overwrite cap)) []

theorem queue_snoc (enable_overwrite : Bool) (cap : ℕ) (tr : List (Event T)) (e : Event T) :
    queue enable_overwrite cap (tr ++ [e]) =
      queueOp (policy enable_overwrite cap) (queue enable_overwrite cap tr) e.op := by
  simp [queue]

/-- **The contents of the buffer are the queue**, in every state of every run. -/
theorem contents_eq_queue (h : (machine T z enable_overwrite).Run tr b) :
    b.contents = queue enable_overwrite (z.card - 1) tr := by
  refine h.rule_of (I := fun tr b => b.contents = queue enable_overwrite (z.card - 1) tr)
    Ok.of_run ?_ ?_
  · rintro _ ⟨raw, rfl⟩
    exact (construct_ok raw enable_overwrite).2
  · rintro tr b _ _ ⟨hok, hover⟩ ih ⟨op, hs⟩
    obtain ⟨rfl, rfl⟩ := Prod.mk.inj (Option.some.inj hs)
    have hpush : b.push = policy enable_overwrite (z.card - 1) := by rw [push, hover, policy]
    rw [queue_snoc, ← ih, ← hpush]
    exact hok.apply_queue op

/-! ### Sizes -/

namespace Ok

theorem occupied_le (h : b.Ok) : b.occupied ≤ z.card - 1 := Nat.le_sub_one_of_lt h

theorem toNat_getOccupiedSize (h : b.Ok) : b.getOccupiedSize.toNat = b.occupied := h.masked

/-- The masked occupancy is at most `N - 1`, so the subtraction does not wrap. -/
theorem toNat_getFreeSize (h : b.Ok) : b.getFreeSize.toNat = z.card - 1 - b.occupied := by
  have hmask : (z.size - 1).toNat = z.card - 1 := by
    rw [← Pow2Size.mask, z.toNat_mask, z.card_eq]
  have hle : (b.write_index_ - b.read_index_) &&& z.mask ≤ z.size - 1 := by
    rw [UInt64.le_iff_toNat_le, h.masked, hmask]
    exact h.occupied_le
  rw [getFreeSize, UInt64.toNat_sub_of_le _ _ hle, h.masked, hmask]

theorem isEmpty_iff : b.isEmpty = true ↔ b.occupied = 0 := by
  rw [isEmpty, decide_eq_true_iff]
  exact b.empty_iff

theorem isFull_iff (h : b.Ok) : b.isFull = true ↔ b.occupied = z.card - 1 := by
  have hcard := z.card_pos
  rw [isFull, decide_eq_true_iff, h.full_iff]
  omega

end Ok

/-! ### Looking at the queue -/

/-- A window that is cut short. -/
theorem window_take (b : RingBuffer T z) (i : UInt64) {k n : ℕ} (h : k ≤ n) :
    (b.window i n).take k = b.window i k := by
  induction n with
  | zero =>
    rw [Nat.le_zero.mp h]
    rfl
  | succ n ih =>
    rcases Nat.le_succ_iff.mp h with hle | rfl
    · rw [window_succ, List.take_append_of_le_length (by rwa [length_window]), ih hle]
    · exact List.take_of_length_le (length_window ..).le

/-- The element `k` steps into a window. -/
theorem window_getElem? (b : RingBuffer T z) (i : UInt64) {k n : ℕ} (h : k < n) :
    (b.window i n)[k]? = some (b.get (i + .ofNat k)) := by
  have htake : (b.window i n)[k]? = ((b.window i n).take (k + 1))[k]? :=
    (List.getElem?_take_of_lt k.lt_succ_self).symm
  rw [htake, window_take b i h, window_succ,
    List.getElem?_append_right (length_window b i k).le]
  simp

/-- The loop of `Peek` stores the window into the caller's vector from index `i` on. -/
theorem peekLoop_eq (b : RingBuffer T z) {data : List T} {i todo : ℕ}
    (h : i + todo ≤ data.length) :
    b.peekLoop data i todo = data.take i ++ b.window (b.read_index_ + .ofNat i) todo ++
      data.drop (i + todo) := by
  induction todo generalizing data i with
  | zero => simp [peekLoop, window]
  | succ todo ih =>
    have hnext : b.read_index_ + .ofNat i + 1 = b.read_index_ + .ofNat (i + 1) := by
      rw [UInt64.ofNat_add, UInt64.add_assoc]
      rfl
    have hstore := splice_set (show i < data.length by omega)
      (b.get (b.read_index_ + .ofNat i)) (b.window (b.read_index_ + .ofNat (i + 1)) todo)
    rw [List.length_cons, length_window] at hstore
    rw [peekLoop, ih (by rw [List.length_set]; omega), window, hnext, hstore]

namespace Ok

/-- The sizes agree, so a peek copies what a burst read would take. -/
theorem peek_eq (h : b.Ok) (data : List T) (btp : ℕ) :
    b.peek data btp = (b.readBurst data btp).2 := by
  obtain ⟨taken, hcontents, hlen, -, -, hdata, hn⟩ := h.readBurst data btp
  have hle : taken.length ≤ b.occupied := by omega
  have htaken : taken = b.window b.read_index_ taken.length := by
    rw [← window_take b b.read_index_ hle]
    exact (hcontents ▸ List.take_left).symm
  have hpeek := b.peekLoop_eq (show 0 + taken.length ≤ data.length by omega)
  rw [Nat.zero_add, show UInt64.ofNat 0 = 0 from rfl, UInt64.add_zero, ← htaken] at hpeek
  rw [peek, h.masked, ← hlen]
  exact Prod.ext (hpeek.trans hdata.symm) hn.symm

/-- What a peek at one element sees. -/
theorem peekAt_eq (h : b.Ok) (data : T) (n : ℕ) :
    (n < b.occupied → b.contents[n]? = some (b.peekAt data n).1 ∧ (b.peekAt data n).2 = 1) ∧
      (b.occupied ≤ n → b.peekAt data n = (data, 0)) := by
  rw [peekAt, h.masked]
  constructor
  · intro hlt
    rw [if_neg (by omega)]
    exact ⟨window_getElem? b _ hlt, rfl⟩
  · intro hle
    rw [if_pos hle]

theorem peekAt_eq_one_iff (h : b.Ok) (data : T) (n : ℕ) :
    (b.peekAt data n).2 = 1 ↔ n < b.occupied := by
  obtain ⟨hin, hout⟩ := h.peekAt_eq data n
  refine ⟨fun hone => ?_, fun hlt => (hin hlt).2⟩
  by_contra hle
  rw [hout (by omega)] at hone
  cases hone

/-- What a peek reports to have seen is the front of the contents. -/
theorem peek_seen (h : b.Ok) {data seen : List T} {btp n : ℕ}
    (hpeek : b.peek data btp = (seen, n)) :
    n ≤ b.contents.length ∧ seen.take n = b.contents.take n := by
  rw [h.peek_eq] at hpeek
  obtain ⟨hn, hseen, -⟩ := h.readBurst_eq data btp
  rw [hpeek] at hn hseen
  have hmin : min (min btp data.length) b.contents.length = n := by omega
  refine ⟨by omega, ?_⟩
  rw [hseen, List.take_eq_take_min (i := min btp data.length), hmin]

end Ok

/-- The buffer after `n` single reads. -/
def afterReads (b : RingBuffer T z) (data : T) : ℕ → RingBuffer T z
  | 0 => b
  | n + 1 => ((b.afterReads data n).read data).1

theorem Ok.afterReads (h : b.Ok) (data : T) (n : ℕ) :
    (b.afterReads data n).Ok ∧ (b.afterReads data n).contents = b.contents.drop n := by
  induction n with
  | zero => exact ⟨h, rfl⟩
  | succ n ih =>
    obtain ⟨hok, hcontents⟩ := ih
    refine ⟨(hok.read data).1, ?_⟩
    rw [RingBuffer.afterReads, (hok.read_eq data).2.2, hcontents, List.drop_drop]

/-- What a single read returns after `n` others. -/
theorem Ok.read_afterReads (h : b.Ok) (data : T) {n : ℕ} (hn : n < b.occupied) :
    ((b.afterReads data n).read data).2.2 = 1 ∧
      b.contents[n]? = some ((b.afterReads data n).read data).2.1 := by
  obtain ⟨hok, hcontents⟩ := h.afterReads data n
  obtain ⟨hcount, hreturned, -⟩ := hok.read_eq data
  rw [hcontents, List.length_drop, length_contents] at hcount
  have hone : ((b.afterReads data n).read data).2.2 = 1 := by omega
  have hhead := congrArg List.head? hreturned
  simp only [hone, hcontents, List.head?_take, List.head?_drop, Nat.one_ne_zero, if_false]
    at hhead
  exact ⟨hone, hhead.symm⟩

/-! ### All observers -/

/-- **The observers tell the truth.** Let `queue` be what the calls of a run leave queued. The
difference of the indices is its length and at most `N - 1`; the four size queries say what they
should of it; `PeekAt` succeeds within it, and yields what a single read returns after `n` others;
`Peek` does to the caller's vector what a burst read does, and leaves the rest of it alone. Looking
does not change the buffer. -/
theorem observers_truthful (h : (machine T z enable_overwrite).Run tr b) :
    (b.write_index_ - b.read_index_).toNat ≤ z.card - 1 ∧
    (b.write_index_ - b.read_index_).toNat = (queue enable_overwrite (z.card - 1) tr).length ∧
    b.getOccupiedSize = b.write_index_ - b.read_index_ ∧
    b.getFreeSize.toNat = z.card - 1 - (queue enable_overwrite (z.card - 1) tr).length ∧
    (b.isEmpty = true ↔ (queue enable_overwrite (z.card - 1) tr).length = 0) ∧
    (b.isFull = true ↔ (queue enable_overwrite (z.card - 1) tr).length = z.card - 1) ∧
    (∀ data n,
      ((b.peekAt data n).2 = 1 ↔ n < (queue enable_overwrite (z.card - 1) tr).length) ∧
      (n < (queue enable_overwrite (z.card - 1) tr).length →
        (queue enable_overwrite (z.card - 1) tr)[n]? = some (b.peekAt data n).1 ∧
        ((b.afterReads data n).read data).2 = b.peekAt data n) ∧
      ((queue enable_overwrite (z.card - 1) tr).length ≤ n → b.peekAt data n = (data, 0)) ∧
      (b.apply (.peekAt data n)).1 = b) ∧
    ∀ data btp,
      (b.peek data btp).2 =
        min btp (min data.length (queue enable_overwrite (z.card - 1) tr).length) ∧
      b.peek data btp = (b.readBurst data btp).2 ∧
      (b.peek data btp).1.take (b.peek data btp).2 =
        (queue enable_overwrite (z.card - 1) tr).take (b.peek data btp).2 ∧
      (b.peek data btp).1.drop (b.peek data btp).2 = data.drop (b.peek data btp).2 ∧
      (b.apply (.peek data btp)).1 = b := by
  obtain ⟨hok, -⟩ := Ok.of_run h
  rw [← contents_eq_queue h, length_contents]
  refine ⟨hok.occupied_le, rfl, UInt64.toNat_inj.mp hok.masked, hok.toNat_getFreeSize,
    Ok.isEmpty_iff, hok.isFull_iff, fun data n => ?_, fun data btp => ?_⟩
  · obtain ⟨hin, hout⟩ := hok.peekAt_eq data n
    refine ⟨hok.peekAt_eq_one_iff data n, fun hlt => ?_, hout, rfl⟩
    obtain ⟨hx, hone⟩ := hin hlt
    obtain ⟨hread, hy⟩ := hok.read_afterReads data hlt
    exact ⟨hx, Prod.ext (Option.some.inj (hy.symm.trans hx)) (hread.trans hone.symm)⟩
  · obtain ⟨taken, hcontents, hlen, -, -, hdata, hn⟩ := hok.readBurst data btp
    rw [hok.peek_eq, hdata, hn, List.take_left, List.drop_left]
    refine ⟨?_, rfl, ?_, rfl, rfl⟩
    · rw [hlen, Nat.min_assoc]
    · rw [hcontents, List.take_left]

theorem observers_truthful_small :
    queue true 3 ((smallRun true).get (smallRun_isSome _)).1 = [6] ∧
    ((smallRun true).get (smallRun_isSome _)).2.getFreeSize.toNat =
      3 - (queue true 3 ((smallRun true).get (smallRun_isSome _)).1).length :=
  ⟨by decide +kernel, (observers_truthful (smallRun_run true)).2.2.2.1⟩

end RingBuffer

end XmSigma
