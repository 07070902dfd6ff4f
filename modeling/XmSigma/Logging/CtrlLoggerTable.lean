import Mathlib.Data.List.Induction
import XmSigma.Lib.Past
import XmSigma.Logging.CtrlLogger

/-!
# The table that the calls of a `CtrlLogger` describe

What the rows of a logger should be is said here of the calls alone, in the order in which they
were made: which names are registered, what the last header lists, what was stored for each of its
names. A name counts from its registration on, a column from the header that first lists it.

## Main definitions

* `CtrlLogger.registered`, `columns`, `value`: the names, the last header and the data
* `CtrlLogger.Op.row`: the row a call should pass on
* `CtrlLogger.Op.Covered`: data by name is for a name that the last header lists

## Main results

* `registered_nodup`, `columns_isPrefix`: the last header lists the first of the distinct names
* `value_of_le`: nothing is stored beyond it
-/

namespace XmSigma

namespace CtrlLogger

variable {D : Type*} {to_string : D → List UInt8} {ops : List (Op D)} {op : Op D}
  {name : List UInt8} {i : ℕ}

/-! ### What the calls describe -/

/-- The text that a data argument comes to. -/
def Data.text (to_string : D → List UInt8) : Data D → List UInt8
  | .str data_str => data_str
  | .double data => to_string data

/-- The name a call registers. -/
def Op.name? : Op D → Option (List UInt8)
  | .addName name => some name
  | _ => none

/-- The distinct names, in the order in which they were first registered. -/
def registered (ops : List (Op D)) : List (List UInt8) := (ops.filterMap Op.name?).eraseDups

/-- The header a call passes: all names registered before, if there are any. -/
def Op.header (before : List (Op D)) : Op D → Option (List (List UInt8))
  | .passHeader => if registered before = [] then none else some (registered before)
  | _ => none

/-- The names of the last header. -/
def columns (ops : List (Op D)) : List (List UInt8) :=
  (Past.reports Op.header ops).getLast?.getD []

/-- The text a call stores for the `i`-th name, if the last header before covers it. -/
def Op.stores (to_string : D → List UInt8) (i : ℕ) (before : List (Op D)) :
    Op D → Option (List UInt8)
  | .addData item_name data =>
    if (columns before)[i]? = some item_name then some (data.text to_string) else none
  | .addDataById item_id data =>
    if item_id = i ∧ i < (columns before).length then some (data.text to_string) else none
  | _ => none

/-- The last text stored for the `i`-th name, empty if there is none. -/
def value (to_string : D → List UInt8) (ops : List (Op D)) (i : ℕ) : List UInt8 :=
  (Past.reports (Op.stores to_string i) ops).getLast?.getD []

/-- A field shows a text, and `"0"` for the empty one. -/
def field (text : List UInt8) : List UInt8 := if text.isEmpty then zero else text

/-- The fields of a data row: one for each name of the last header. -/
def fields (to_string : D → List UInt8) (ops : List (Op D)) : List (List UInt8) :=
  (List.range (columns ops).length).map fun i => field (value to_string ops i)

/-- The row a call should pass on. -/
def Op.row (to_string : D → List UInt8) (before : List (Op D)) : Op D → Option (List UInt8)
  | .passHeader =>
    if registered before = [] then none else some (separator.intercalate (registered before))
  | .passData =>
    if columns before = [] then none else some (separator.intercalate (fields to_string before))
  | _ => none

/-- The rows of a sequence of calls, one for each call. -/
def rows (to_string : D → List UInt8) (ops : List (Op D)) : List (Option (List UInt8)) :=
  Past.reports (fun before op => some (op.row to_string before)) ops

/-- A call that gives data by name gives it for a name that the last header lists, or one that is
not registered, or before there is any header. -/
def Op.Covered (before : List (Op D)) : Op D → Prop
  | .addData item_name _ =>
    columns before = [] ∨ item_name ∉ registered before ∨ item_name ∈ columns before
  | _ => True

/-- A call that gives data before there is a header, for a name that is not registered, or for an
id that the last header does not cover. -/
def Op.Ineffective (before : List (Op D)) : Op D → Prop
  | .addData item_name _ => columns before = [] ∨ item_name ∉ registered before
  | .addDataById item_id _ => (columns before).length ≤ item_id
  | _ => False

/-! ### One more call -/

theorem registered_snoc (ops : List (Op D)) (op : Op D) :
    registered (ops ++ [op]) =
      registered ops ++ (op.name?.filter (· ∉ registered ops)).toList := by
  rw [registered, List.filterMap_append, List.eraseDups_append]
  cases hname : op.name? with
  | none => simp [registered, hname]
  | some name =>
    have hmem : (ops.filterMap Op.name?).contains name = decide (name ∈ registered ops) := by
      rw [List.contains_eq_mem, registered]
      simp only [List.mem_eraseDups]
    rw [List.filterMap_cons, hname, List.filterMap_nil, List.cons_removeAll, hmem, ← registered]
    by_cases hold : name ∈ registered ops
    · simp [hold]
    · simp [hold, List.eraseDups_cons, Option.filter]

theorem columns_snoc (ops : List (Op D)) (op : Op D) :
    columns (ops ++ [op]) = (op.header ops).getD (columns ops) := by
  rw [columns, Past.reports_snoc]
  cases op.header ops <;> simp [columns]

theorem registered_of_none (h : op.name? = none) : registered (ops ++ [op]) = registered ops := by
  rw [registered_snoc, h]
  exact List.append_nil _

theorem columns_of_none (h : op.header ops = none) : columns (ops ++ [op]) = columns ops := by
  rw [columns_snoc, h]
  rfl

theorem value_snoc (to_string : D → List UInt8) (ops : List (Op D)) (op : Op D) (i : ℕ) :
    value to_string (ops ++ [op]) i =
      (op.stores to_string i ops).getD (value to_string ops i) := by
  rw [value, Past.reports_snoc]
  cases op.stores to_string i ops <;> simp [value]

theorem rows_snoc (to_string : D → List UInt8) (ops : List (Op D)) (op : Op D) :
    rows to_string (ops ++ [op]) = rows to_string ops ++ [op.row to_string ops] := by
  rw [rows, Past.reports_snoc]
  rfl

theorem registered_nodup (ops : List (Op D)) : (registered ops).Nodup := by
  induction ops using List.reverseRecOn with
  | nil => exact List.nodup_nil
  | append_singleton ops op ih =>
    rw [registered_snoc]
    cases hname : op.name?.filter (· ∉ registered ops) with
    | none => simpa using ih
    | some name =>
      have hnew := (Option.filter_eq_some_iff.mp hname).2
      exact ih.append (List.nodup_singleton name) (by simpa using hnew)

theorem mem_registered : name ∈ registered ops ↔ .addName name ∈ ops := by
  rw [registered, List.mem_eraseDups, List.mem_filterMap]
  constructor
  · rintro ⟨op, hop, hname⟩
    cases op with
    | addName name' =>
      cases hname
      exact hop
    | _ => cases hname
  · exact fun hop => ⟨_, hop, rfl⟩

/-- The names of the last header are the ones registered first. -/
theorem columns_isPrefix (ops : List (Op D)) : columns ops <+: registered ops := by
  induction ops using List.reverseRecOn with
  | nil => exact List.prefix_refl _
  | append_singleton ops op ih =>
    rw [columns_snoc, registered_snoc]
    have hgrown := ih.trans (List.prefix_append _ (op.name?.filter (· ∉ registered ops)).toList)
    cases op with
    | passHeader =>
      simp only [Op.header]
      split
      · exact hgrown
      · exact List.prefix_append _ _
    | _ => exact hgrown

theorem registered_getElem? (h : i < (columns ops).length) :
    (registered ops)[i]? = (columns ops)[i]? := by
  obtain ⟨rest, hrest⟩ := columns_isPrefix ops
  rw [← hrest, List.getElem?_append_left h]

theorem columns_passHeader (ops : List (Op D)) :
    columns (ops ++ [.passHeader]) = registered ops := by
  rw [columns_snoc, Op.header]
  split
  · next hnil =>
    rw [hnil]
    exact List.prefix_nil.mp (hnil ▸ columns_isPrefix ops)
  · rfl

/-- Nothing is stored for a name that no header covers yet. -/
theorem value_of_le (h : (columns ops).length ≤ i) : value to_string ops i = [] := by
  induction ops using List.reverseRecOn with
  | nil => rfl
  | append_singleton ops op ih =>
    have hle : (columns ops).length ≤ (columns (ops ++ [op])).length := by
      rw [columns_snoc]
      cases op with
      | passHeader =>
        simp only [Op.header]
        split
        · exact le_rfl
        · exact (columns_isPrefix ops).length_le
      | _ => exact le_rfl
    have hi := hle.trans h
    rw [value_snoc, ih hi]
    cases op with
    | addData item_name data => simp [Op.stores, List.getElem?_eq_none hi]
    | addDataById item_id data => simp [Op.stores, Nat.not_lt.mpr hi]
    | _ => rfl

end CtrlLogger

end XmSigma
