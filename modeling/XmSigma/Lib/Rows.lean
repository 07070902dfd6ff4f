import Mathlib.Data.List.Sort

/-!
# Rows of a table as text

A table that is written as text keeps its columns in a map from numbers to names and joins the
fields of a row with a separator. Collected here is what that rests on: what iterating over such a
map yields, and what a trailing separator amounts to.

## Main definitions

* `Rows.rfind`: the last occurrence of a text
* `Rows.split`: a text cut at each separator

## Main results

* `Rows.map_snd_toList`: a map that numbers a list is iterated in the order of the list
* `Rows.rfind_append`: a text is last found where it was appended
* `Rows.flatMap_append_eq`: texts that are each followed by the separator
* `Rows.split_intercalate`: joined fields are split again
-/

namespace XmSigma

namespace Rows

variable {α : Type*}

/-! ### Maps that number a list -/

theorem getElem?_snoc (xs : List α) (x : α) (k : ℕ) :
    (xs ++ [x])[k]? = if xs.length = k then some x else xs[k]? := by
  rw [List.getElem?_append]
  rcases Nat.lt_trichotomy k xs.length with hlt | rfl | hgt
  · rw [if_pos hlt, if_neg hlt.ne']
  · simp
  · rw [if_neg hgt.not_gt, if_neg hgt.ne, List.getElem?_eq_none hgt.le]
    simp
    omega

/-- **Iteration.** A map whose keys are the positions of a list is iterated in its order. -/
theorem map_snd_toList {t : Std.TreeMap ℕ α} {xs : List α} (h : ∀ k : ℕ, t[k]? = xs[k]?) :
    t.toList.map Prod.snd = xs := by
  have hsorted : (xs.zipIdx.map Prod.swap).Pairwise fun a b => a.1 < b.1 := by
    have hkeys : (xs.zipIdx.map Prod.swap).map Prod.fst = List.range' 0 xs.length := by
      rw [List.map_map]
      exact List.zipIdx_map_snd 0 xs
    rw [← List.pairwise_map (f := Prod.fst) (R := (· < ·)), hkeys]
    exact List.pairwise_lt_range'
  have hsorted' : t.toList.Pairwise fun a b => a.1 < b.1 :=
    t.ordered_keys_toList.imp fun h => Nat.compare_eq_lt.mp h
  have hperm : t.toList.Perm (xs.zipIdx.map Prod.swap) := by
    refine (List.perm_ext_iff_of_nodup ?_ ?_).mpr fun ⟨k, x⟩ => ?_
    · exact hsorted'.imp fun hlt heq => by rw [heq] at hlt; exact lt_irrefl _ hlt
    · exact hsorted.imp fun hlt heq => by rw [heq] at hlt; exact lt_irrefl _ hlt
    · have hmem : (x, k) ∈ xs.zipIdx ↔ xs[k]? = some x := List.mem_zipIdx_iff_getElem?
      rw [Std.TreeMap.mem_toList_iff_getElem?_eq_some, h k, ← hmem]
      exact (List.mem_map_of_injective Prod.swap_injective).symm
  have heq : t.toList = xs.zipIdx.map Prod.swap :=
    hperm.eq_of_pairwise (fun a b _ _ hab hba => absurd hab hba.asymm) hsorted' hsorted
  rw [heq, List.map_map]
  exact List.zipIdx_map_fst 0 xs

/-! ### Separators -/

/-- The last occurrence of `pat` in `s` that begins at `k` or before. -/
def rfindFrom [BEq α] (s pat : List α) : ℕ → Option ℕ
  | 0 => if pat.isPrefixOf s then some 0 else none
  | k + 1 => if pat.isPrefixOf (s.drop (k + 1)) then some (k + 1) else rfindFrom s pat k

/-- The last occurrence of `pat` in `s`. -/
def rfind [BEq α] (s pat : List α) : Option ℕ := rfindFrom s pat s.length

theorem rfindFrom_append [BEq α] [LawfulBEq α] (s : List α) {pat : List α} (hpat : pat ≠ [])
    {k : ℕ} (hk : s.length ≤ k) : rfindFrom (s ++ pat) pat k = some s.length := by
  have hself : pat.isPrefixOf pat = true := List.isPrefixOf_iff_prefix.mpr (List.prefix_refl pat)
  have hpos := List.length_pos_iff.mpr hpat
  induction k with
  | zero =>
    have hnil : s = [] := List.eq_nil_of_length_eq_zero (Nat.le_zero.mp hk)
    subst hnil
    exact if_pos hself
  | succ k ih =>
    rcases Nat.lt_or_eq_of_le hk with hlt | heq
    · have hshort : ¬ pat.isPrefixOf ((s ++ pat).drop (k + 1)) = true := by
        intro hfront
        have := (List.isPrefixOf_iff_prefix.mp hfront).length_le
        rw [List.length_drop, List.length_append] at this
        omega
      rw [rfindFrom, if_neg hshort]
      exact ih (Nat.le_of_lt_succ hlt)
    · rw [rfindFrom, ← heq, List.drop_left, if_pos hself]

/-- **A text is last found where it was appended.** -/
theorem rfind_append [BEq α] [LawfulBEq α] (s : List α) {pat : List α} (hpat : pat ≠ []) :
    rfind (s ++ pat) pat = some s.length :=
  rfindFrom_append s hpat (by rw [List.length_append]; omega)

/-- Texts that are each followed by the separator are the joined texts and one more separator. -/
theorem flatMap_append_eq (sep : List α) {xs : List (List α)} (hxs : xs ≠ []) :
    xs.flatMap (· ++ sep) = sep.intercalate xs ++ sep := by
  induction xs with
  | nil => exact absurd rfl hxs
  | cons x xs ih =>
    rw [List.flatMap_cons]
    rcases eq_or_ne xs [] with rfl | hne
    · simp
    · rw [ih hne, List.intercalate_cons_of_ne_nil hne]
      simp

/-! ### Splitting -/

/-- Split the rest of a text at each occurrence of `sep`, left to right: `f` is what the current
field has so far, and `k` elements of a separator are still to be skipped. -/
def splitFrom [BEq α] (sep f : List α) : ℕ → List α → List (List α)
  | _, [] => [f]
  | k + 1, _ :: s => splitFrom sep f k s
  | 0, x :: s =>
    if sep.isPrefixOf (x :: s) then f :: splitFrom sep [] (sep.length - 1) s
    else splitFrom sep (f ++ [x]) 0 s

/-- Split a text at each occurrence of `sep`, left to right. -/
def split [BEq α] (sep s : List α) : List (List α) := splitFrom sep [] 0 s

theorem splitFrom_skip [BEq α] (sep f t s : List α) :
    splitFrom sep f t.length (t ++ s) = splitFrom sep f 0 s := by
  induction t with
  | nil => rfl
  | cons y t ih => exact ih

section
variable [BEq α] [LawfulBEq α] {sep a b f x : List α} {mark : α}

theorem splitFrom_sep (hsep : sep ≠ []) (f s : List α) :
    splitFrom sep f 0 (sep ++ s) = f :: splitFrom sep [] 0 s := by
  cases sep with
  | nil => exact absurd rfl hsep
  | cons y t =>
    have hfront : (y :: t).isPrefixOf (y :: (t ++ s)) = true :=
      List.isPrefixOf_iff_prefix.mpr (List.prefix_append (y :: t) s)
    rw [List.cons_append, splitFrom, if_pos hfront, List.length_cons, Nat.add_sub_cancel,
      splitFrom_skip]

theorem splitFrom_cons {y : α} {s : List α} (h : ¬ sep <+: y :: s) :
    splitFrom sep f 0 (y :: s) = splitFrom sep (f ++ [y]) 0 s := by
  rw [splitFrom, if_neg (mt List.isPrefixOf_iff_prefix.mp h)]

/-- A field without the mark of the separator runs up to the next separator: no separator begins
before, since its mark would be in the field. -/
theorem splitFrom_field (hsep : sep = a ++ mark :: b) (ha : mark ∉ a) (hx : mark ∉ x)
    (f s : List α) :
    splitFrom sep f 0 (x ++ (sep ++ s)) = (f ++ x) :: splitFrom sep [] 0 s := by
  induction x generalizing f with
  | nil => rw [List.nil_append, List.append_nil, splitFrom_sep (by simp [hsep])]
  | cons y x ih =>
    have hmark : mark ∈ sep := by simp [hsep]
    have hfirst : sep.idxOf mark = a.length := by
      rw [hsep, List.idxOf_append_of_notMem ha, List.idxOf_cons_self, Nat.add_zero]
    have hnot : ¬ sep <+: y :: (x ++ (sep ++ s)) := by
      rintro ⟨r, hr⟩
      have hidx := congrArg (List.idxOf mark) hr
      rw [List.idxOf_append_of_mem hmark, ← List.cons_append, List.idxOf_append_of_notMem hx,
        List.idxOf_append_of_mem hmark, List.length_cons] at hidx
      omega
    rw [List.cons_append, splitFrom_cons hnot, ih (fun hmem => hx (.tail _ hmem)),
      List.append_assoc, List.singleton_append]

theorem splitFrom_last (hsep : sep = a ++ mark :: b) (hx : mark ∉ x) (f : List α) :
    splitFrom sep f 0 x = [f ++ x] := by
  induction x generalizing f with
  | nil => rw [splitFrom, List.append_nil]
  | cons y x ih =>
    have hnot : ¬ sep <+: y :: x := fun hfront => hx (hfront.subset (by simp [hsep]))
    rw [splitFrom_cons hnot, ih (fun hmem => hx (.tail _ hmem)), List.append_assoc,
      List.singleton_append]

/-- **Joined fields are split again**, if the separator has a mark that no field has. -/
theorem split_intercalate (hsep : sep = a ++ mark :: b) (ha : mark ∉ a) {xs : List (List α)}
    (hne : xs ≠ []) (hxs : ∀ x ∈ xs, mark ∉ x) : split sep (sep.intercalate xs) = xs := by
  rw [split]
  induction xs with
  | nil => exact absurd rfl hne
  | cons x xs ih =>
    have hx := hxs x List.mem_cons_self
    cases xs with
    | nil => rw [List.intercalate_singleton, splitFrom_last hsep hx, List.nil_append]
    | cons y xs =>
      have hrest := ih (List.cons_ne_nil y xs) fun z hz => hxs z (.tail _ hz)
      rw [List.intercalate_cons_cons, List.append_assoc, splitFrom_field hsep ha hx, hrest,
        List.nil_append]

end

end Rows

end XmSigma
