import Mathlib.Data.List.Basic
import Mathlib.Order.Nat

/-!
# Bounded queues

Two ways for a queue of bounded length to take a new element: `offer` refuses it when the queue is
full, `slide` always takes it and lets go of the oldest. A queue is a list, oldest element first.

## Main results

* `foldl_offer`: offering elements one after another appends as many as there is room for
* `eq_take_drop`: taking as many elements as are asked for and there splits the queue
-/

namespace XmSigma

namespace BoundedQueue

variable {α : Type*} {cap : ℕ} {q : List α}

/-- Append, unless the queue is full. -/
def offer (cap : ℕ) (q : List α) (x : α) : List α :=
  if q.length < cap then q ++ [x] else q

/-- Append; if there are now too many elements, discard the oldest. -/
def slide (cap : ℕ) (q : List α) (x : α) : List α :=
  if cap < (q ++ [x]).length then (q ++ [x]).tail else q ++ [x]

theorem offer_of_lt (h : q.length < cap) (x : α) : offer cap q x = q ++ [x] := if_pos h

theorem offer_of_le (h : cap ≤ q.length) (x : α) : offer cap q x = q := if_neg (by omega)

theorem slide_of_lt (h : q.length < cap) (x : α) : slide cap q x = q ++ [x] := by
  rw [slide, if_neg]
  simp only [List.length_append, List.length_singleton]
  omega

theorem slide_of_le (h : cap ≤ q.length) (x : α) : slide cap q x = (q ++ [x]).tail := by
  rw [slide, if_pos]
  simp only [List.length_append, List.length_singleton]
  omega

/-- A list that is the same with an element put behind it and its first taken away is constant. -/
theorem concat_eq_cons_iff {x a : α} :
    q ++ [x] = a :: q ↔ a :: q = List.replicate (q.length + 1) x := by
  constructor
  · intro h
    induction q generalizing a with
    | nil => simpa using h.symm
    | cons b q ih =>
      obtain ⟨rfl, hrest⟩ := List.cons.inj h
      obtain ⟨rfl, hq⟩ := List.cons.inj (ih hrest)
      rw [List.length_cons, List.replicate_succ, List.replicate_succ, ← hq]
  · intro h
    have hq : q = List.replicate q.length x := (List.cons.inj h).2
    calc q ++ [x] = List.replicate q.length x ++ [x] := congrArg (· ++ [x]) hq
      _ = List.replicate (q.length + 1) x := List.replicate_succ'.symm
      _ = a :: q := h.symm

/-- Taking in an element changes the queue, unless it is full of that element. -/
theorem slide_eq_self_iff (h : q.length ≤ cap) (x : α) :
    slide cap q x = q ↔ q = List.replicate cap x := by
  rcases Nat.lt_or_eq_of_le h with hlt | rfl
  · rw [slide_of_lt hlt]
    refine ⟨fun heq => by simpa using congrArg List.length heq, fun heq => ?_⟩
    rw [heq, List.length_replicate] at hlt
    exact absurd hlt (lt_irrefl cap)
  · rw [slide_of_le le_rfl]
    cases q with
    | nil => simp
    | cons a q => exact concat_eq_cons_iff

theorem mem_offer {x y : α} (h : y ∈ offer cap q x) : y ∈ q ∨ y = x := by
  rw [offer] at h
  split at h
  · simpa using h
  · exact .inl h

theorem mem_slide {x y : α} (h : y ∈ slide cap q x) : y ∈ q ∨ y = x := by
  rw [slide] at h
  split at h
  · simpa using List.mem_of_mem_tail h
  · simpa using h

/-- Offering elements one after another appends as many of them as there is room for. -/
theorem foldl_offer (h : q.length ≤ cap) (xs : List α) :
    xs.foldl (offer cap) q = q ++ xs.take (cap - q.length) := by
  induction xs generalizing q with
  | nil => simp
  | cons x xs ih =>
    rw [List.foldl_cons]
    rcases Nat.lt_or_eq_of_le h with hlt | heq
    · have hroom : cap - q.length = cap - (q ++ [x]).length + 1 := by
        simp only [List.length_append, List.length_singleton]
        omega
      have hlen : (q ++ [x]).length ≤ cap := by
        rw [List.length_append, List.length_singleton]
        exact hlt
      rw [offer_of_lt hlt, ih hlen, hroom, List.take_succ_cons]
      simp
    · rw [offer_of_le heq.ge, ih h, heq, Nat.sub_self]
      simp

/-- Taking from the front as many elements as are asked for and there splits the queue. -/
theorem eq_take_drop {taken rest : List α} {n : ℕ} (h : q = taken ++ rest)
    (hlen : taken.length = min n q.length) : taken = q.take n ∧ rest = q.drop n := by
  have htaken : taken = q.take taken.length := by rw [h, List.take_left]
  have hrest : rest = q.drop taken.length := by rw [h, List.drop_left]
  rw [List.take_eq_take_min, List.drop_eq_drop_min, ← hlen]
  exact ⟨htaken, hrest⟩

end BoundedQueue

end XmSigma
