import XmSigma.Logging.CtrlLoggerRows

/-!
# The two ways to give data

Data is given by name or by id. The overload that takes an id refuses one beyond the end of
`item_data_`; the one that takes a name relies on every registered name having an entry there,
which holds of a name that a header has covered. A name registered after the last header has an id
and no entry: giving data for it by name accesses `item_data_` out of range.

## Main results

* `Tracks.addData_eq_none`: what happens to data for a name that the last header does not cover
* `ways_agree_iff`: when the two ways do the same
* `by_name_out_of_range`: they need not
-/

namespace XmSigma

namespace CtrlLogger

variable {D : Type*} {to_string : D → List UInt8} {l : CtrlLogger} {ops : List (Op D)} {op : Op D}
  {name : List UInt8} {i : ℕ}

namespace Tracks

/-- Data for a name registered after the last header has no place to go to. -/
theorem addData_eq_none (h : Tracks to_string ops l) (hne : columns ops ≠ [])
    (hregistered : name ∈ registered ops) (hcolumn : name ∉ columns ops) (s : List UInt8) :
    l.addItemDataToEntry name s = none := by
  obtain ⟨k, hk⟩ := List.mem_iff_getElem?.mp hregistered
  have hid := (h.ids name k).mpr hk
  have hout : ¬ k < l.item_data_.length := by
    intro hlt
    rw [h.length_data] at hlt
    exact hcolumn (List.mem_of_getElem? ((h.column_iff hid).mpr ⟨rfl, hlt⟩))
  rw [addItemDataToEntry, h.head.mpr hne, if_neg (by simp)]
  simp only [hid, CtrlLogger.store, if_neg hout, Option.map_none]

theorem apply_eq_none (h : Tracks to_string ops l) (hop : ¬ op.Covered ops) :
    l.apply to_string op = none := by
  cases op with
  | addData item_name data =>
    simp only [Op.Covered, not_or, not_not] at hop
    obtain ⟨hne, hregistered, hcolumn⟩ := hop
    rw [apply_addData]
    exact h.addData_eq_none hne hregistered hcolumn _
  | _ => exact absurd trivial hop

/-- By id, every call returns. -/
theorem addDataById_isSome (h : Tracks to_string ops l) (s : List UInt8) :
    (l.addItemDataToEntryById i s).isSome := by
  obtain ⟨o, ho, -⟩ := h.addDataById i (.str s)
  exact Option.isSome_iff_exists.mpr ⟨o, ho⟩

/-- The two ways agree on a name that the last header covers, or before there is a header. -/
theorem ways_agree (h : Tracks to_string ops l) (hid : l.entry_ids_[name]? = some i)
    (hname : columns ops = [] ∨ name ∈ columns ops) (s : List UInt8) :
    ∃ l', (l.addItemDataToEntry name s).map Outcome.logger = some l' ∧
      (l.addItemDataToEntryById i s).map Outcome.logger = some l' := by
  rw [addItemDataToEntry, addItemDataToEntryById]
  by_cases hhead : l.head_added_ = true
  · obtain ⟨k, hk⟩ := List.mem_iff_getElem?.mp (hname.resolve_left (h.head.mp hhead))
    have hlt : i < l.item_data_.length := by
      rw [h.length_data]
      exact ((h.column_iff hid).mp hk).2
    rw [hhead, if_neg (by simp), if_neg (by simp), if_neg (by omega), hid]
    simp [CtrlLogger.store, hlt]
  · rw [Bool.eq_false_of_not_eq_true hhead]
    exact ⟨l, rfl, rfl⟩

end Tracks

/-- A sequence of calls returns, every one of them, if and only if it is covered. -/
theorem exec_isSome_iff : ((machine to_string).exec construct ops).isSome ↔ AllCovered ops := by
  constructor
  · induction ops using List.reverseRecOn with
    | nil => exact fun _ k hk => absurd hk (Nat.not_lt_zero k)
    | append_singleton ops op ih =>
      intro hsome
      obtain ⟨x, hx⟩ := Option.isSome_iff_exists.mp hsome
      rw [Machine.exec_snoc] at hx
      obtain ⟨y, hy, hlast⟩ := Option.bind_eq_some_iff.mp hx
      have hops := ih (Option.isSome_iff_exists.mpr ⟨y, hy⟩)
      refine allCovered_snoc.mpr ⟨hops, ?_⟩
      obtain ⟨l, hexec, htracks⟩ := exec_eq to_string hops
      rw [hexec] at hy
      cases hy
      by_contra hop
      simp [machine, htracks.apply_eq_none hop] at hlast
  · intro hops
    obtain ⟨l, hexec, -⟩ := exec_eq to_string hops
    exact Option.isSome_iff_exists.mpr ⟨_, hexec⟩

/-- Calls that all return have passed on the rows they should, and the members follow them. -/
theorem Tracks.of_exec_eq {tr : List (Op D × Option (List UInt8))}
    (h : (machine to_string).exec construct ops = some (tr, l)) :
    Tracks to_string ops l ∧ tr = ops.zip (rows to_string ops) := by
  obtain ⟨l', hexec, htracks⟩ := exec_eq to_string
    (exec_isSome_iff.mp (Option.isSome_iff_exists.mpr ⟨_, h⟩))
  rw [hexec] at h
  cases h
  exact ⟨htracks, rfl⟩

theorem Tracks.of_exec {tr : List (Op D × Option (List UInt8))}
    (h : (machine to_string).exec construct ops = some (tr, l)) : Tracks to_string ops l :=
  (Tracks.of_exec_eq h).1

/-- **When the two ways to give data agree.** A sequence of calls returns, every one of them, if
and only if data is given by name only for a name that the last header covers, or one that is not
registered, or before there is a header. After such a sequence every call by id returns; and a
registered name and its id have the same effect, with no access out of range, if and only if there
is no header yet or the last header covers the name. -/
theorem ways_agree_iff (to_string : D → List UInt8) (ops : List (Op D)) :
    (((machine to_string).exec construct ops).isSome ↔ AllCovered ops) ∧
    ∀ tr l, (machine to_string).exec construct ops = some (tr, l) →
      (∀ i s, (l.addItemDataToEntryById i s).isSome) ∧
      ∀ name i s, l.entry_ids_[name]? = some i →
        ((∃ l', (l.addItemDataToEntry name s).map Outcome.logger = some l' ∧
          (l.addItemDataToEntryById i s).map Outcome.logger = some l') ↔
        columns ops = [] ∨ name ∈ columns ops) := by
  refine ⟨exec_isSome_iff, fun tr l hexec => ?_⟩
  have htracks := Tracks.of_exec hexec
  refine ⟨fun i s => htracks.addDataById_isSome s, fun name i s hid => ⟨?_, fun hname =>
    htracks.ways_agree hid hname s⟩⟩
  rintro ⟨l', hl', -⟩
  by_contra hname
  obtain ⟨hne, hcolumn⟩ := not_or.mp hname
  have hregistered := List.mem_of_getElem? ((htracks.ids name i).mp hid)
  rw [htracks.addData_eq_none hne hregistered hcolumn] at hl'
  cases hl'

/-- The name `a`, a header, and then the name `b`. -/
def grown : Option (List (Op ℕ × Option (List UInt8)) × CtrlLogger) :=
  (machine digit).exec construct [.addName [97], .passHeader, .addName [98]]

theorem grown_isSome : grown.isSome := by decide +kernel

theorem grown_eq : grown = some ((grown.get grown_isSome).1, (grown.get grown_isSome).2) :=
  (Option.some_get grown_isSome).symm

theorem ways_agree_iff_small :
    ∃ l', ((grown.get grown_isSome).2.addItemDataToEntry [97] [120]).map Outcome.logger = some l' ∧
      ((grown.get grown_isSome).2.addItemDataToEntryById 0 [120]).map Outcome.logger = some l' :=
  (((ways_agree_iff digit _).2 _ _ grown_eq).2 [97] 0 [120] (by decide +kernel)).mpr
    (.inr (by decide +kernel))

/-- **Data by name can go out of range.** -/
theorem by_name_out_of_range :
    ¬ ∀ (ops : List (Op ℕ)) (tr : List (Op ℕ × Option (List UInt8))) (l : CtrlLogger)
      (name : List UInt8) (i : ℕ) (s : List UInt8),
      (machine digit).exec construct ops = some (tr, l) → l.entry_ids_[name]? = some i →
      ∃ l', (l.addItemDataToEntry name s).map Outcome.logger = some l' ∧
        (l.addItemDataToEntryById i s).map Outcome.logger = some l' := by
  intro h
  obtain ⟨l', hl', -⟩ := h _ _ _ [98] 1 [120] grown_eq (by decide +kernel)
  have hnone : ((grown.get grown_isSome).2.addItemDataToEntry [98] [120]).isNone := by
    decide +kernel
  rw [Option.isNone_iff_eq_none.mp hnone] at hl'
  cases hl'

end CtrlLogger

end XmSigma
