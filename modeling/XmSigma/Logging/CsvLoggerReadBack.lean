import XmSigma.Logging.SpecializedLogger

/-!
# Reading the rows of a `CsvLogger` back

A call of `LogData` that has values passes one row on, a call without values none, and calls do
not influence each other. A decimal text has no comma, so a row splits into the texts of its
values, and each of them is read as the number it was made from.

`std::to_string` has overloads from `int` on; what is narrower is promoted, the character types as
well, so that a row shows the number that a value is and not its type.

## Main definitions

* `CsvLogger.logAll`: the rows of a sequence of calls
* `CsvLogger.readRow`: the numbers in a row

## Main results

* `logData_eq_none_iff`, `readRow_logData`: what one call comes to
* `rows_decode`: what a sequence of calls comes to
-/

namespace XmSigma

namespace CsvLogger

open SpecializedLogger

variable {values : List Value} {row : List UInt8}

/-- The rows that a sequence of calls of `LogData` passes to `logger_->info`. -/
def logAll (calls : List (List Value)) : List (List UInt8) := calls.filterMap logData

/-- Split a row at its commas and read the fields as decimal integers. -/
def readRow (row : List UInt8) : Option (List ℤ) := (Rows.split [comma] row).mapM Decimal.toInt?

/-- A call passes no row on exactly when it has no values: otherwise there is at least one comma,
to be taken off. -/
theorem logData_eq_none_iff : logData values = none ↔ values = [] := by
  refine ⟨fun hnone => ?_, fun hnil => by rw [hnil]; rfl⟩
  by_contra hne
  rw [logData_eq hne] at hnone
  cases hnone

/-- The texts of numbers are read as these numbers. -/
theorem mapM_toInt? (values : List Value) :
    (values.map Value.toString).mapM Decimal.toInt? = some (values.map Value.toInt) := by
  induction values with
  | nil => rfl
  | cons value rest ih =>
    have hvalue : Decimal.toInt? value.toString = some value.toInt := Decimal.toInt?_ofInt _
    rw [List.map_cons, List.mapM_cons, hvalue, ih]
    rfl

/-- The row of a call is read as the numbers of the call. -/
theorem readRow_logData (hrow : logData values = some row) :
    readRow row = some (values.map Value.toInt) := by
  have hne : values ≠ [] := by
    rintro rfl
    cases hrow
  rw [logData_eq hne] at hrow
  cases hrow
  rw [readRow, split_toString hne, mapM_toInt?]

/-- **The rows can be read back**: there is one row for each call that has values, in the order of
the calls, and it is read as exactly the numbers of that call. -/
theorem rows_decode (calls : List (List Value)) :
    (∀ values, logData values = none ↔ values = []) ∧
    (logAll calls).map readRow =
      (calls.filter (!·.isEmpty)).map fun values => some (values.map Value.toInt) := by
  refine ⟨fun values => logData_eq_none_iff, ?_⟩
  induction calls with
  | nil => rfl
  | cons values calls ih =>
    rw [logAll] at ih ⊢
    cases hrow : logData values with
    | none =>
      have hnil : values = [] := logData_eq_none_iff.mp hrow
      rw [List.filterMap_cons_none hrow, ih, List.filter_cons_of_neg (by simp [hnil])]
    | some row =>
      have hne : values ≠ [] := by
        rintro rfl
        cases hrow
      rw [List.filterMap_cons_some hrow, List.map_cons, readRow_logData hrow, ih,
        List.filter_cons_of_pos (by simpa using hne), List.map_cons]

example : logAll [[], [.int32 10, .int32 (-20)], []] = [[49, 48, 44, 45, 50, 48]] := by
  decide +kernel

end CsvLogger

end XmSigma
