import XmSigma.Logging.CtrlLoggerBounds

/-!
# Reading the rows of a `CtrlLogger` back

A row is joined with `" , "`, and so are its fields told apart again, if none of them has a comma:
spaces at the ends of a field do no harm, although the separator begins and ends with one, and
neither do empty names. Headers and data rows are joined by two different loops, but they come to
the same.

## Main definitions

* `CtrlLogger.lastHeader`: the last header row passed on

## Main results

* `rows_read_back`: what splitting the rows yields
-/

namespace XmSigma

namespace CtrlLogger

variable {D : Type*} {to_string : D → List UInt8} {l : CtrlLogger} {ops : List (Op D)}
  {tr : List (Op D × Option (List UInt8))}

/-- `","`. -/
def comma : UInt8 := 44

/-- Fields without commas are told apart. -/
theorem split_separator {xs : List (List UInt8)} (hne : xs ≠ []) (hxs : ∀ x ∈ xs, comma ∉ x) :
    Rows.split separator (separator.intercalate xs) = xs :=
  Rows.split_intercalate (a := [32]) (b := [32]) rfl (by decide) hne hxs

theorem comma_notMem_field {text : List UInt8} (h : comma ∉ text) : comma ∉ field text := by
  rw [field]
  split
  · decide
  · exact h

theorem length_fields (to_string : D → List UInt8) (ops : List (Op D)) :
    (fields to_string ops).length = (columns ops).length := by
  rw [fields, List.length_map, List.length_range]

/-! ### The last header -/

/-- The row of a call that passed a header. -/
def headerRow : Op D × Option (List UInt8) → Option (List UInt8)
  | (.passHeader, row) => row
  | _ => none

/-- The last header row passed on. -/
def lastHeader (tr : List (Op D × Option (List UInt8))) : Option (List UInt8) :=
  (tr.filterMap headerRow).getLast?

theorem lastHeader_rows (to_string : D → List UInt8) (ops : List (Op D)) :
    lastHeader (ops.zip (rows to_string ops)) =
      if columns ops = [] then none else some (separator.intercalate (columns ops)) := by
  induction ops using List.reverseRecOn with
  | nil => rfl
  | append_singleton ops op ih =>
    have hsnoc : lastHeader ((ops ++ [op]).zip (rows to_string (ops ++ [op]))) =
        (headerRow (op, op.row to_string ops)).or
          (lastHeader (ops.zip (rows to_string ops))) := by
      rw [rows_snoc, List.zip_append (length_rows to_string ops).symm, lastHeader,
        List.filterMap_append, List.getLast?_append, lastHeader]
      cases hrow : headerRow (op, op.row to_string ops) <;> simp [hrow]
    rw [hsnoc, ih]
    cases op with
    | passHeader =>
      rw [columns_passHeader, headerRow, Op.row]
      by_cases hnil : registered ops = []
      · have hcolumns : columns ops = [] := List.prefix_nil.mp (hnil ▸ columns_isPrefix ops)
        simp [hnil, hcolumns]
      · simp [hnil]
    | _ =>
      rw [columns_of_none rfl]
      rfl

/-! ### Reading back -/

namespace Tracks

/-- Once a name is registered the header row is passed on: all names, each followed by a separator,
but for the last separator. -/
theorem split_header (h : Tracks to_string ops l) (hnames : ∀ name ∈ registered ops, comma ∉ name)
    (hne : registered ops ≠ []) :
    ∃ head, l.passEntryHeaderToLogger.row = some head ∧
      head ++ separator = (registered ops).flatMap (· ++ separator) ∧
      Rows.split separator head = registered ops :=
  ⟨_, h.header_row hne, (Rows.flatMap_append_eq separator hne).symm, split_separator hne hnames⟩

theorem header_none (h : Tracks to_string ops l) (hnil : registered ops = []) :
    l.passEntryHeaderToLogger.row = none := by
  rw [h.passHeader.2.1, Op.row, if_pos hnil]

/-- Once there is a column the data row is passed on: the fields, joined. -/
theorem split_data (h : Tracks to_string ops l)
    (hvalues : ∀ i < (columns ops).length, comma ∉ value to_string ops i)
    (hne : columns ops ≠ []) :
    ∃ row, l.passEntryDataToLogger.row = some row ∧
      Rows.split separator row = fields to_string ops := by
  have hfields : fields to_string ops ≠ [] := by
    rw [← List.length_pos_iff, length_fields]
    exact List.length_pos_iff.mpr hne
  refine ⟨separator.intercalate (fields to_string ops), ?_, split_separator hfields ?_⟩
  · rw [h.data_row, Op.row, if_neg hne]
  · intro x hx
    obtain ⟨i, hi, rfl⟩ := List.mem_map.mp hx
    exact comma_notMem_field (hvalues i (List.mem_range.mp hi))

theorem data_none (h : Tracks to_string ops l) (hnil : columns ops = []) :
    l.passEntryDataToLogger.row = none := by
  rw [h.data_row, Op.row, if_pos hnil]

end Tracks

/-- **The rows can be read back**, after any calls, if neither the names nor the values have
commas. A header row is passed on as soon as a name is registered. It is all names each followed by
a separator but for the last separator, and it splits into the names. A data row is passed on as
soon as a header has been. It splits into the values, with `"0"` for the empty ones, and has as many
fields as the last header row. -/
theorem rows_read_back (hexec : (machine to_string).exec construct ops = some (tr, l))
    (hnames : ∀ name ∈ registered ops, comma ∉ name)
    (hvalues : ∀ i < (columns ops).length, comma ∉ value to_string ops i) :
    ((registered ops = [] → l.passEntryHeaderToLogger.row = none) ∧
      (registered ops ≠ [] → ∃ head, l.passEntryHeaderToLogger.row = some head ∧
        head ++ separator = (registered ops).flatMap (· ++ separator) ∧
        Rows.split separator head = registered ops)) ∧
    (columns ops = [] → l.passEntryDataToLogger.row = none) ∧
    (columns ops ≠ [] → ∃ row, l.passEntryDataToLogger.row = some row ∧
      Rows.split separator row =
        (List.range (columns ops).length).map (fun i => field (value to_string ops i)) ∧
      ∃ head, lastHeader tr = some head ∧
        (Rows.split separator row).length = (Rows.split separator head).length) := by
  obtain ⟨htracks, rfl⟩ := Tracks.of_exec_eq hexec
  refine ⟨⟨htracks.header_none, htracks.split_header hnames⟩, htracks.data_none, ?_⟩
  intro hne
  obtain ⟨row, hrow, hsplit⟩ := htracks.split_data hvalues hne
  have hcolumns : ∀ name ∈ columns ops, comma ∉ name := fun name hmem =>
    hnames name ((columns_isPrefix ops).subset hmem)
  refine ⟨row, hrow, hsplit, separator.intercalate (columns ops), ?_, ?_⟩
  · rw [lastHeader_rows, if_neg hne]
  · rw [hsplit, split_separator hne hcolumns, length_fields]

/-- The names `" a"` and `""`, a header, and the text `"x "` for the first. -/
def spaced : Option (List (Op ℕ × Option (List UInt8)) × CtrlLogger) :=
  (machine digit).exec construct
    [.addName [32, 97], .addName [], .passHeader, .addDataById 0 (.str [120, 32])]

theorem spaced_isSome : spaced.isSome := by decide +kernel

theorem spaced_eq : spaced = some ((spaced.get spaced_isSome).1, (spaced.get spaced_isSome).2) :=
  (Option.some_get spaced_isSome).symm

theorem rows_read_back_small :
    (∃ head, (spaced.get spaced_isSome).2.passEntryHeaderToLogger.row = some head ∧
      Rows.split separator head = [[32, 97], []]) ∧
    ∃ row, (spaced.get spaced_isSome).2.passEntryDataToLogger.row = some row ∧
      Rows.split separator row = [[120, 32], [48]] := by
  have ⟨⟨_, hheader⟩, _, hdata⟩ :=
    rows_read_back spaced_eq (by decide +kernel) (by decide +kernel)
  obtain ⟨head, hhead, -, hnames⟩ := hheader (by decide +kernel)
  obtain ⟨row, hrow, hvalues, -⟩ := hdata (by decide +kernel)
  exact ⟨⟨head, hhead, hnames⟩, row, hrow, hvalues⟩

end CtrlLogger

end XmSigma
