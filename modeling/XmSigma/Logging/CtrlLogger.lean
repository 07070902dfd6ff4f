import XmSigma.Lib.Machine
import XmSigma.Lib.Rows

/-!
# `CtrlLogger`

The table logger of `ctrl_logger.hpp` and `ctrl_logger.cpp`: names are registered, a header row
lists them, and each data row holds the text stored last for each of them. A `std::string` is the
list of its bytes, a `std::map` is a `Std.TreeMap`, a `std::vector` a list. Ids are numbers: the
64-bit counter counts the entries of a map, which cannot be `2 ^ 64`.

An access to `item_data_` beyond its end is undefined behaviour, so a function that may come to
one returns `none` there. A function that returns says what it passed to `logger_->info`, if
anything, and what it wrote to `std::cerr`. `ENABLE_LOGGING` is on, as it is by default.
`std::to_string` of a `double` is a parameter; nothing here depends on the text it yields.
-/

namespace XmSigma

/-- The members of `CtrlLogger`. -/
structure CtrlLogger where
  head_added_ : Bool
  entry_names_ : Std.TreeMap ℕ (List UInt8)
  entry_ids_ : Std.TreeMap (List UInt8) ℕ
  item_counter_ : ℕ
  item_data_ : List (List UInt8)

namespace CtrlLogger

/-- What a member function leaves behind. -/
structure Outcome where
  logger : CtrlLogger
  /-- The row passed to `logger_->info`. -/
  row : Option (List UInt8) := none
  /-- The line written to `std::cerr`. -/
  cerr : Option String := none

/-- `" , "`. -/
def separator : List UInt8 := [32, 44, 32]

/-- `"0"`. -/
def zero : List UInt8 := [48]

/-- The constructor. -/
def construct : CtrlLogger where
  head_added_ := false
  entry_names_ := ∅
  entry_ids_ := ∅
  item_counter_ := 0
  item_data_ := []

/-! ### Names and data -/

/-- `AddItemNameToEntryHead`: a name that is known keeps its id. -/
def addItemNameToEntryHead (l : CtrlLogger) (name : List UInt8) : CtrlLogger :=
  match l.entry_ids_[name]? with
  | none =>
    { l with
      entry_names_ := l.entry_names_.insert l.item_counter_ name
      entry_ids_ := l.entry_ids_.insert name l.item_counter_
      item_counter_ := l.item_counter_ + 1 }
  | some _ => l

/-- `item_data_[item_id] = data_str`. -/
def store (l : CtrlLogger) (item_id : ℕ) (data_str : List UInt8) : Option CtrlLogger :=
  if item_id < l.item_data_.length then
    some { l with item_data_ := l.item_data_.set item_id data_str }
  else none

/-- `AddItemDataToEntry(std::string item_name, std::string data_str)`. -/
def addItemDataToEntry (l : CtrlLogger) (item_name data_str : List UInt8) : Option Outcome :=
  if !l.head_added_ then
    some { logger := l, cerr := "No heading for log entries has been added, data ignored!" }
  else
    match l.entry_ids_[item_name]? with
    | some item_id => (l.store item_id data_str).map fun l' => { logger := l' }
    | none => some { logger := l, cerr := "Failed to find data entry!" }

/-- `AddItemDataToEntry(uint64_t item_id, std::string data_str)`. -/
def addItemDataToEntryById (l : CtrlLogger) (item_id : ℕ) (data_str : List UInt8) :
    Option Outcome :=
  if !l.head_added_ then some { logger := l }
  else if item_id ≥ l.item_data_.length then
    some
      { logger := l
        cerr := s!"CtrlLogger: item_id {item_id} out of range, data ignored!" }
  else (l.store item_id data_str).map fun l' => { logger := l' }

section
variable {D : Type*} (to_string : D → List UInt8)

/-- `AddItemDataToEntry(std::string item_name, double data)`. -/
def addItemDoubleToEntry (l : CtrlLogger) (item_name : List UInt8) (data : D) : Option Outcome :=
  l.addItemDataToEntry item_name (to_string data)

/-- `AddItemDataToEntry(uint64_t item_id, double data)`. -/
def addItemDoubleToEntryById (l : CtrlLogger) (item_id : ℕ) (data : D) : Option Outcome :=
  l.addItemDataToEntryById item_id (to_string data)

end

/-! ### Rows -/

/-- `resize` of a vector of strings: what is new is empty. -/
def resize (xs : List (List UInt8)) (n : ℕ) : List (List UInt8) :=
  xs.take n ++ List.replicate (n - xs.length) []

/-- `PassEntryHeaderToLogger`: the row is cut at its last separator. -/
def passEntryHeaderToLogger (l : CtrlLogger) : Outcome :=
  if l.item_counter_ = 0 then { logger := l }
  else
    let head_str := l.entry_names_.toList.foldl (fun s item => s ++ (item.2 ++ separator)) []
    let head_str :=
      match Rows.rfind head_str separator with
      | some found => head_str.take found
      | none => head_str
    { logger := { l with item_data_ := resize l.item_data_ l.item_counter_, head_added_ := true }
      row := some head_str }

/-- The loop of `PassEntryDataToLogger` over the entries that are left. -/
def rowLoop (log_entry : List UInt8) : List (List UInt8) → List UInt8
  | [] => log_entry
  | x :: rest =>
    let str := if x.isEmpty then zero else x
    if !rest.isEmpty then rowLoop (log_entry ++ (str ++ separator)) rest
    else rowLoop (log_entry ++ str) rest

/-- `PassEntryDataToLogger`. The data stay where they are. -/
def passEntryDataToLogger (l : CtrlLogger) : Outcome :=
  let log_entry := rowLoop [] l.item_data_
  { logger := l, row := if !log_entry.isEmpty then some log_entry else none }

/-! ### The public calls as steps -/

/-- The data argument of an overload. -/
inductive Data (D : Type*)
  | str (data_str : List UInt8)
  | double (data : D)

/-- A call of a member function, with its arguments. -/
inductive Op (D : Type*)
  | addName (name : List UInt8)
  | addData (item_name : List UInt8) (data : Data D)
  | addDataById (item_id : ℕ) (data : Data D)
  | passHeader
  | passData

section
variable {D : Type*} (to_string : D → List UInt8)

/-- What a call does; `none` where it accesses `item_data_` out of range. -/
def apply (l : CtrlLogger) : Op D → Option Outcome
  | .addName name => some { logger := l.addItemNameToEntryHead name }
  | .addData item_name (.str data_str) => l.addItemDataToEntry item_name data_str
  | .addData item_name (.double data) => l.addItemDoubleToEntry to_string item_name data
  | .addDataById item_id (.str data_str) => l.addItemDataToEntryById item_id data_str
  | .addDataById item_id (.double data) => l.addItemDoubleToEntryById to_string item_id data
  | .passHeader => some l.passEntryHeaderToLogger
  | .passData => some l.passEntryDataToLogger

/-- The calls as steps; each reports itself and the row it passed on. -/
def machine : Machine CtrlLogger (Op D) (Op D × Option (List UInt8)) where
  init l := l = construct
  step l op := (l.apply to_string op).map fun o => (o.logger, op, o.row)

end

end CtrlLogger

end XmSigma
