import XmSigma.Lib.Decimal
import XmSigma.Lib.Rows

/-!
# `CsvLogger` and `EventLogger`

The two row loggers of `csv_logger.hpp` and `event_logger.hpp`, over `specialized_logger.hpp`, for
values of the built-in integer types. Both put a comma behind every value and take the last one
off, but each with a `build_string` of its own: the one of the base class, which `CsvLogger` uses,
writes the text that `std::to_string` makes of a value, while that of `EventLogger` writes the
value itself with `operator<<`. To `operator<<` the 8-bit types are characters.

The locale is the classic one, and `ENABLE_LOGGING` is on.

## Main definitions

* `CsvLogger.logData`, `EventLogger.logEvent`: the rows

## Main results

* `logData_eq`: a row of `CsvLogger` joins decimal fields
* `logEvent_agrees_iff`: when a row of `EventLogger` is the same
-/

namespace XmSigma

/-- A value of a built-in integer type. -/
inductive Value
  | bool (value : Bool)
  | int8 (value : Int8)
  | uint8 (value : UInt8)
  | int16 (value : Int16)
  | uint16 (value : UInt16)
  | int32 (value : Int32)
  | uint32 (value : UInt32)
  | int64 (value : Int64)
  | uint64 (value : UInt64)

namespace Value

/-- The number that a value is. -/
def toInt : Value → ℤ
  | bool value => if value then 1 else 0
  | int8 value => value.toInt
  | uint8 value => value.toNat
  | int16 value => value.toInt
  | uint16 value => value.toNat
  | int32 value => value.toInt
  | uint32 value => value.toNat
  | int64 value => value.toInt
  | uint64 value => value.toNat

/-- The type of the value is an 8-bit one. -/
def IsByte : Value → Prop
  | int8 _ | uint8 _ => True
  | _ => False

/-- It can be seen from the constructor. -/
instance (value : Value) : Decidable value.IsByte := by
  cases value <;> unfold IsByte <;> infer_instance

/-- `std::to_string(value)`: what is narrower than an `int` is promoted to one. -/
def toString (value : Value) : List UInt8 := Decimal.ofInt value.toInt

/-- `o << value`. The overloads for `signed char` and `unsigned char` write a character. -/
def put (o : List UInt8) : Value → List UInt8
  | int8 value => o ++ [value.toUInt8]
  | uint8 value => o ++ [value]
  | value => o ++ Decimal.ofInt value.toInt

end Value

namespace SpecializedLogger

/-- `','`. -/
def comma : UInt8 := 44

/-- The `build_string` of the base class. -/
def buildString (o : List UInt8) : List Value → List UInt8
  | [] => o
  | value :: rest => buildString (o ++ (value.toString ++ [comma])) rest

end SpecializedLogger

open SpecializedLogger

namespace CsvLogger

/-- The row that `LogData` passes to `logger_->info`, if any. -/
def logData (values : List Value) : Option (List UInt8) :=
  let data := SpecializedLogger.buildString [] values
  if data.isEmpty then none else some data.dropLast

end CsvLogger

namespace EventLogger

/-- The `build_string` of `EventLogger`. -/
def buildString (o : List UInt8) : List Value → List UInt8
  | [] => o
  | value :: rest => buildString (value.put o ++ [comma]) rest

/-- The row that `LogEvent` passes to `logger_->info`, if any. -/
def logEvent (values : List Value) : Option (List UInt8) :=
  let data := buildString [] values
  if data.isEmpty then none else some data.dropLast

end EventLogger

variable {values : List Value}

/-! ### Rows -/

/-- What `operator<<` writes for a value. -/
def Value.shown (value : Value) : List UInt8 := value.put []

theorem Value.put_eq (value : Value) (o : List UInt8) : value.put o = o ++ value.shown := by
  cases value <;> rfl

theorem Value.shown_of_not_isByte {value : Value} (h : ¬ value.IsByte) :
    value.shown = value.toString := by
  cases value with
  | int8 value => exact absurd trivial h
  | uint8 value => exact absurd trivial h
  | _ => rfl

theorem SpecializedLogger.buildString_eq (o : List UInt8) (values : List Value) :
    SpecializedLogger.buildString o values =
      o ++ (values.map Value.toString).flatMap (· ++ [comma]) := by
  induction values generalizing o with
  | nil => exact (List.append_nil o).symm
  | cons value rest ih =>
    rw [SpecializedLogger.buildString, ih, List.map_cons, List.flatMap_cons, List.append_assoc]

theorem EventLogger.buildString_eq (o : List UInt8) (values : List Value) :
    EventLogger.buildString o values =
      o ++ (values.map Value.shown).flatMap (· ++ [comma]) := by
  induction values generalizing o with
  | nil => exact (List.append_nil o).symm
  | cons value rest ih =>
    rw [EventLogger.buildString, ih, value.put_eq, List.map_cons, List.flatMap_cons]
    simp only [List.append_assoc]

/-- Taking the last comma off joins the fields. -/
theorem dropLast_flatMap {fields : List (List UInt8)} (hne : fields ≠ []) :
    (fields.flatMap (· ++ [comma])).dropLast = [comma].intercalate fields := by
  rw [Rows.flatMap_append_eq [comma] hne, List.dropLast_concat]

theorem flatMap_ne_nil {fields : List (List UInt8)} (hne : fields ≠ []) :
    (fields.flatMap (· ++ [comma])).isEmpty = false := by
  rw [Rows.flatMap_append_eq [comma] hne]
  simp

/-- A row of `CsvLogger` joins the decimal texts of the values. -/
theorem CsvLogger.logData_eq (hne : values ≠ []) :
    CsvLogger.logData values = some ([comma].intercalate (values.map Value.toString)) := by
  have hmap : values.map Value.toString ≠ [] := by simpa using hne
  simp only [CsvLogger.logData, SpecializedLogger.buildString_eq, List.nil_append,
    flatMap_ne_nil hmap, dropLast_flatMap hmap]
  rfl

theorem EventLogger.logEvent_eq (hne : values ≠ []) :
    EventLogger.logEvent values = some ([comma].intercalate (values.map Value.shown)) := by
  have hmap : values.map Value.shown ≠ [] := by simpa using hne
  simp only [EventLogger.logEvent, EventLogger.buildString_eq, List.nil_append,
    flatMap_ne_nil hmap, dropLast_flatMap hmap]
  rfl

theorem split_toString (hne : values ≠ []) :
    Rows.split [comma] ([comma].intercalate (values.map Value.toString)) =
      values.map Value.toString := by
  refine Rows.split_intercalate (a := []) (b := []) rfl (by decide) (by simpa using hne) ?_
  rintro x hx
  obtain ⟨value, -, rfl⟩ := List.mem_map.mp hx
  exact Decimal.notMem_ofInt (by decide) (by decide) _

/-! ### Characters -/

/-- A character and a comma are never the decimal text of the byte and a comma. -/
theorem Value.take_toString_ne {value : Value} (h : value.IsByte) :
    (value.toString ++ [comma]).take 2 ≠ value.shown ++ [comma] := by
  have hsigned : ∀ n : BitVec 8, (Decimal.ofInt n.toInt ++ [comma]).take 2 ≠ [⟨n⟩, comma] := by
    decide +kernel
  have hunsigned : ∀ n : BitVec 8, (Decimal.ofInt n.toNat ++ [comma]).take 2 ≠ [⟨n⟩, comma] := by
    decide +kernel
  cases value with
  | int8 value => exact hsigned value.toBitVec
  | uint8 value => exact hunsigned value.toBitVec
  | _ => exact h.elim

theorem Value.length_shown {value : Value} (h : value.IsByte) : value.shown.length = 1 := by
  cases value with
  | int8 value => rfl
  | uint8 value => rfl
  | _ => exact h.elim

/-- Where both write the same, there is no 8-bit value: the first one would show in the first byte
of its field and the one behind it. -/
theorem not_isByte_of_flatMap_eq
    (h : (values.map Value.shown).flatMap (· ++ [comma]) =
      (values.map Value.toString).flatMap (· ++ [comma])) : ∀ value ∈ values, ¬ value.IsByte := by
  induction values with
  | nil => exact fun value hmem => absurd hmem List.not_mem_nil
  | cons value rest ih =>
    simp only [List.map_cons, List.flatMap_cons] at h
    have hbyte : ¬ value.IsByte := by
      intro hbyte
      have hshown : (value.shown ++ [comma]).length = 2 := by
        rw [List.length_append, value.length_shown hbyte, List.length_singleton]
      have htext : 2 ≤ (value.toString ++ [comma]).length := by
        have hpos := List.length_pos_iff.mpr (Decimal.ofInt_ne_nil value.toInt)
        rw [List.length_append, List.length_singleton, Value.toString]
        omega
      have htake := congrArg (List.take 2) h
      rw [List.take_left' hshown, List.take_append_of_le_length htext] at htake
      exact value.take_toString_ne hbyte htake.symm
    rw [Value.shown_of_not_isByte hbyte] at h
    have hrest := ih (List.append_cancel_left h)
    exact List.forall_mem_cons.mpr ⟨hbyte, hrest⟩

/-- The two loggers agree on a row: it is the same, and has one decimal field for each value. -/
def RowsAgree (values : List Value) : Prop :=
  EventLogger.logEvent values = CsvLogger.logData values ∧
  ∃ row, EventLogger.logEvent values = some row ∧
    Rows.split [comma] row = values.map (fun value => Decimal.ofInt value.toInt) ∧
    (Rows.split [comma] row).length = values.length

/-- **The two loggers agree** on a row if and only if it has no value of an 8-bit type. -/
theorem logEvent_agrees_iff (hne : values ≠ []) :
    RowsAgree values ↔ ∀ value ∈ values, ¬ value.IsByte := by
  have hevent := EventLogger.logEvent_eq hne
  have hdata := CsvLogger.logData_eq hne
  constructor
  · rintro ⟨hsame, -⟩
    rw [hevent, hdata] at hsame
    have hshown : values.map Value.shown ≠ [] := by simpa using hne
    have htext : values.map Value.toString ≠ [] := by simpa using hne
    refine not_isByte_of_flatMap_eq ?_
    rw [Rows.flatMap_append_eq [comma] hshown, Rows.flatMap_append_eq [comma] htext,
      Option.some.inj hsame]
  · intro hvalues
    have hmap : values.map Value.shown = values.map Value.toString :=
      List.map_congr_left fun value hmem => Value.shown_of_not_isByte (hvalues value hmem)
    have hsplit := split_toString hne
    refine ⟨by rw [hevent, hdata, hmap], _, hevent, ?_, ?_⟩
    · rw [hmap, hsplit]
      rfl
    · rw [hmap, hsplit, List.length_map]

theorem logEvent_agrees_iff_small : RowsAgree [.int32 (-5), .bool true] :=
  (logEvent_agrees_iff (List.cons_ne_nil _ _)).mpr (by decide)

/-- The row of the 8-bit value 44 is a comma: it has two empty fields. -/
theorem logEvent_comma : ¬ ∀ values : List Value, values ≠ [] → RowsAgree values := by
  intro h
  obtain ⟨hsame, -⟩ := h [.uint8 44] (List.cons_ne_nil _ _)
  exact absurd hsame (by decide +kernel)

end XmSigma
