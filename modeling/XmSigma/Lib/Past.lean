import Mathlib.Data.List.Basic
import Mathlib.Order.Nat

/-!
# Observers who know the past

What can be said of a list of operations one by one, where each may be judged by those before it:
the answers of an observer in order, and a condition that every operation meets at its time. Both
are followed along the list from its end, one operation more at a time.

## Main definitions

* `Past.reports`: the answers of an observer
* `Past.Always`: a condition met by every operation

## Main results

* `Past.reports_snoc`, `Past.always_snoc`: one operation more
-/

namespace XmSigma

namespace Past

variable {β γ : Type*}

/-- What an observer reports of a list of operations, in order; `f` answers for one operation,
given those before it. -/
def reports (f : List β → β → Option γ) (ops : List β) : List γ :=
  (List.range ops.length).filterMap fun k => ops[k]?.bind (f (ops.take k))

@[simp] theorem reports_nil (f : List β → β → Option γ) : reports f [] = [] := rfl

@[simp] theorem reports_snoc (f : List β → β → Option γ) (ops : List β) (op : β) :
    reports f (ops ++ [op]) = reports f ops ++ (f ops op).toList := by
  have hpast : (List.range ops.length).filterMap
        (fun k => (ops ++ [op])[k]?.bind (f ((ops ++ [op]).take k))) = reports f ops := by
    refine List.filterMap_congr fun k hk => ?_
    have hlt := List.mem_range.mp hk
    rw [List.getElem?_append_left hlt, List.take_append_of_le_length hlt.le]
  rw [reports, List.length_append, List.length_singleton, List.range_succ, List.filterMap_append,
    hpast]
  cases hf : f ops op <;> simp [hf]

/-- Every operation meets the condition, given those before it. -/
def Always (P : List β → β → Prop) (ops : List β) : Prop :=
  ∀ k (hk : k < ops.length), P (ops.take k) ops[k]

/-- It can be checked, operation by operation. -/
instance (P : List β → β → Prop) [∀ before op, Decidable (P before op)] (ops : List β) :
    Decidable (Always P ops) :=
  inferInstanceAs (Decidable (∀ k (hk : k < ops.length), P (ops.take k) ops[k]))

@[simp] theorem always_nil (P : List β → β → Prop) : Always P [] :=
  fun k hk => absurd hk (Nat.not_lt_zero k)

@[simp] theorem always_snoc (P : List β → β → Prop) (ops : List β) (op : β) :
    Always P (ops ++ [op]) ↔ Always P ops ∧ P ops op := by
  constructor
  · intro h
    refine ⟨fun k hk => ?_, ?_⟩
    · have hstep := h k (by rw [List.length_append]; omega)
      rwa [List.getElem_append_left hk, List.take_append_of_le_length hk.le] at hstep
    · have hlast := h ops.length (by simp)
      rwa [List.getElem_concat_length rfl, List.take_left] at hlast
  · rintro ⟨h, hlast⟩ k hk
    rw [List.length_append, List.length_singleton] at hk
    rcases Nat.lt_succ_iff_lt_or_eq.mp hk with hlt | rfl
    · rw [List.getElem_append_left hlt, List.take_append_of_le_length hlt.le]
      exact h k hlt
    · rwa [List.getElem_concat_length rfl, List.take_left]

/-- One in the middle meets it, given those before. -/
theorem Always.mid {P : List β → β → Prop} {ops rest : List β} {op : β}
    (h : Always P (ops ++ op :: rest)) : P ops op := by
  have hop := h ops.length (by simp)
  simpa using hop

end Past

end XmSigma
