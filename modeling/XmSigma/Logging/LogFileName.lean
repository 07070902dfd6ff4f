import XmSigma.Lib.FixedWidth
import XmSigma.Logging.LogLevelEnv

/-!
# Names of log files

The builders of `logging_utils.hpp`. A name has the local time in it, as `strftime` writes it, and
that is all that tells the files of one logger apart: `CreateLogFileName` is what the specialised
loggers name their files by, `CreateLogNameWithFullPath` the runtime logger.

The time is what `localtime_r` makes of `time(0)`, with its fields in their ranges. A path or a
prefix is any text.

## Main definitions

* `createLogFileName`, `createLogNameWithFullPath`

## Main results

* `names_in_order`: names sort as the times in them, and tell the files of one second apart from all
  others
-/

namespace XmSigma

namespace LogFileName

open FixedWidth

/-- The bytes of a text. -/
def bytes (text : String) : List UInt8 := text.toList.map fun ch => ch.toNat.toUInt8

/-- `struct tm`, as `localtime_r` fills it. The clock does not go back behind 1900. -/
structure Tm where
  tm_year : ℕ
  tm_mon : ℕ
  tm_mday : ℕ
  tm_hour : ℕ
  tm_min : ℕ
  tm_sec : ℕ
  mon_lt : tm_mon < 12
  mday_le : tm_mday ≤ 31
  hour_lt : tm_hour < 24
  min_lt : tm_min < 60
  sec_le : tm_sec ≤ 60

/-- What the clock shows, the year first. -/
def Tm.clock (now : Tm) : List ℕ :=
  [now.tm_year, now.tm_mon, now.tm_mday, now.tm_hour, now.tm_min, now.tm_sec]

/-! ### `strftime` -/

/-- The conversions that are used. -/
inductive Conv
  | Y | m | d | H | M | S

/-- A conversion, or a character that stands for itself. -/
inductive Piece
  | conv (c : Conv)
  | char (b : UInt8)

/-- What a conversion is replaced by: the year as it is, all else in two digits. -/
def Conv.text (now : Tm) : Conv → List UInt8
  | .Y => Decimal.ofNat (1900 + now.tm_year)
  | .m => pad 2 (now.tm_mon + 1)
  | .d => pad 2 now.tm_mday
  | .H => pad 2 now.tm_hour
  | .M => pad 2 now.tm_min
  | .S => pad 2 now.tm_sec

/-- What a piece of the format is replaced by. -/
def Piece.text (now : Tm) : Piece → List UInt8
  | conv c => c.text now
  | char b => [b]

/-- `std::strftime`. -/
def strftime (format : List Piece) (now : Tm) : List UInt8 := format.flatMap (Piece.text now)

/-- `"%Y%m%d"`. -/
def dayFormat : List Piece := [.conv .Y, .conv .m, .conv .d]

/-- `"%H%M%S"`. -/
def timeFormat : List Piece := [.conv .H, .conv .M, .conv .S]

/-! ### The builders -/

/-- `GetDefaultRootPath`. -/
def getDefaultRootPath (getenv : String → Option (List UInt8)) : List UInt8 :=
  (match getenv "HOME" with
    | some home => home
    | none => bytes "/tmp") ++ bytes "/.xmotion"

/-- `GetLogFolderPath`. -/
def getLogFolderPath (getenv : String → Option (List UInt8)) : List UInt8 :=
  getDefaultRootPath getenv ++ bytes "/log"

/-- `GetDefaultLogPath`. -/
def getDefaultLogPath (getenv : String → Option (List UInt8)) : List UInt8 :=
  let configured := getEnvironmentVariable getenv "XLOG_FOLDER"
  if configured.isEmpty then getLogFolderPath getenv else configured

/-- `CreateLogFileName`. -/
def createLogFileName (name path : List UInt8) (now : Tm) : List UInt8 :=
  path ++ bytes "/" ++ name ++ bytes "." ++ strftime (dayFormat ++ timeFormat) now ++ bytes ".csv"

/-- `CreateLogNameWithFullPath`. -/
def createLogNameWithFullPath (getenv : String → Option (List UInt8)) (name suffix : List UInt8)
    (now : Tm) : List UInt8 :=
  let ts := strftime (dayFormat ++ [.char 45] ++ timeFormat) now
  let day := strftime dayFormat now
  getDefaultLogPath getenv ++ bytes "/" ++ day ++ bytes "/" ++ name ++ bytes "-" ++ ts ++ suffix

/-! ### Fixed widths -/

/-- The template of a format. -/
def Piece.item : Piece → Item Tm
  | conv .Y => .number 4 fun now => 1900 + now.tm_year
  | conv .m => .number 2 fun now => now.tm_mon + 1
  | conv .d => .number 2 Tm.tm_mday
  | conv .H => .number 2 Tm.tm_hour
  | conv .M => .number 2 Tm.tm_min
  | conv .S => .number 2 Tm.tm_sec
  | char b => .text [b]

variable {now now' : Tm} {format : List Piece}

/-- Up to the year 9999 all numbers fill their width. -/
theorem fits (hnow : now.tm_year < 8100) (p : Piece) : p.item.Fits now := by
  have hmon := now.mon_lt
  have hmday := now.mday_le
  have hhour := now.hour_lt
  have hmin := now.min_lt
  have hsec := now.sec_le
  cases p with
  | conv c =>
    cases c <;> simp only [Piece.item, Item.Fits] <;> omega
  | char b => trivial

theorem text_eq (hnow : now.tm_year < 8100) (p : Piece) : p.text now = p.item.fill now := by
  cases p with
  | conv c =>
    cases c with
    | Y => exact (pad_eq_ofNat (w := 3) (by omega) (by omega)).symm
    | _ => rfl
  | char b => rfl

theorem strftime_eq (hnow : now.tm_year < 8100) (format : List Piece) :
    strftime format now = fill (format.map Piece.item) now := by
  rw [strftime, fill, List.flatMap_map]
  exact List.flatMap_congr fun p _ => text_eq hnow p

/-! ### The order of names -/

/-- The numbers that a format writes. -/
def numbers (format : List Piece) (now : Tm) : List ℕ := keys (format.map Piece.item) now

variable {getenv : String → Option (List UInt8)} {name name' path path' suffix : List UInt8}
  {a b : Tm}

theorem length_numbers (format : List Piece) (a b : Tm) :
    (numbers format a).length = (numbers format b).length := by
  simp [numbers, keys]

theorem strftime_lt_iff (ha : a.tm_year < 8100) (hb : b.tm_year < 8100) (format : List Piece) :
    strftime format a < strftime format b ↔ numbers format a < numbers format b := by
  rw [strftime_eq ha, strftime_eq hb]
  exact fill_lt_iff (List.forall_mem_map.mpr fun p _ => fits ha p)
    (List.forall_mem_map.mpr fun p _ => fits hb p)

theorem strftime_inj (ha : a.tm_year < 8100) (hb : b.tm_year < 8100) (format : List Piece) :
    strftime format a = strftime format b ↔ numbers format a = numbers format b := by
  rw [strftime_eq ha, strftime_eq hb]
  exact fill_inj (List.forall_mem_map.mpr fun p _ => fits ha p)
    (List.forall_mem_map.mpr fun p _ => fits hb p)

theorem length_strftime (ha : a.tm_year < 8100) (hb : b.tm_year < 8100) (format : List Piece) :
    (strftime format a).length = (strftime format b).length := by
  rw [strftime_eq ha, strftime_eq hb]
  exact length_fill _ a b

@[simp] theorem numbers_append (format format' : List Piece) (now : Tm) :
    numbers (format ++ format') now = numbers format now ++ numbers format' now := by
  simp [numbers, keys]

@[simp] theorem strftime_append (format format' : List Piece) (now : Tm) :
    strftime (format ++ format') now = strftime format now ++ strftime format' now :=
  List.flatMap_append

/-- The clock shows the day and then the time. -/
theorem clock_lt_iff : a.clock < b.clock ↔
    numbers (dayFormat ++ timeFormat) a < numbers (dayFormat ++ timeFormat) b := by
  simp only [Tm.clock, numbers, keys, dayFormat, timeFormat, Piece.item, Item.key,
    List.cons_append, List.nil_append, List.map_cons, List.map_nil, List.cons_lt_cons_iff,
    Nat.add_lt_add_iff_left, Nat.add_lt_add_iff_right, Nat.add_left_cancel_iff,
    Nat.add_right_cancel_iff]

theorem clock_eq_iff : a.clock = b.clock ↔
    numbers (dayFormat ++ timeFormat) a = numbers (dayFormat ++ timeFormat) b := by
  simp only [Tm.clock, numbers, keys, dayFormat, timeFormat, Piece.item, Item.key,
    List.cons_append, List.nil_append, List.map_cons, List.map_nil, List.cons.injEq,
    Nat.add_left_cancel_iff, Nat.add_right_cancel_iff]

theorem createLogFileName_lt_iff (ha : a.tm_year < 8100) (hb : b.tm_year < 8100) :
    createLogFileName name path a < createLogFileName name path b ↔ a.clock < b.clock := by
  rw [createLogFileName, createLogFileName, append_right_lt_iff (by simp [length_strftime ha hb]),
    append_left_lt_iff, strftime_lt_iff ha hb, clock_lt_iff]

theorem createLogFileName_inj (ha : a.tm_year < 8100) (hb : b.tm_year < 8100) :
    createLogFileName name path a = createLogFileName name' path' b ↔
      path ++ bytes "/" ++ name = path' ++ bytes "/" ++ name' ∧ a.clock = b.clock := by
  rw [createLogFileName, createLogFileName, List.append_left_inj,
    List.append_eq_append_iff_of_size_eq_right (length_strftime ha hb _), List.append_left_inj,
    strftime_inj ha hb, clock_eq_iff]

/-- `"%Y%m%d-%H%M%S"`. -/
theorem stamp_lt_iff :
    numbers (dayFormat ++ [.char 45] ++ timeFormat) a <
      numbers (dayFormat ++ [.char 45] ++ timeFormat) b ↔ a.clock < b.clock := by
  simp only [Tm.clock, numbers, keys, dayFormat, timeFormat, Piece.item, Item.key,
    List.cons_append, List.nil_append, List.map_cons, List.map_nil, List.cons_lt_cons_iff,
    Nat.add_lt_add_iff_left, Nat.add_lt_add_iff_right, Nat.add_left_cancel_iff,
    Nat.add_right_cancel_iff, lt_irrefl, true_and, false_or]

theorem stamp_eq_iff :
    numbers (dayFormat ++ [.char 45] ++ timeFormat) a =
      numbers (dayFormat ++ [.char 45] ++ timeFormat) b ↔ a.clock = b.clock := by
  simp only [Tm.clock, numbers, keys, dayFormat, timeFormat, Piece.item, Item.key,
    List.cons_append, List.nil_append, List.map_cons, List.map_nil, List.cons.injEq,
    Nat.add_left_cancel_iff, Nat.add_right_cancel_iff, true_and]

theorem createLogNameWithFullPath_lt_iff (ha : a.tm_year < 8100) (hb : b.tm_year < 8100) :
    createLogNameWithFullPath getenv name suffix a <
      createLogNameWithFullPath getenv name suffix b ↔ a.clock < b.clock := by
  have hday := length_strftime ha hb dayFormat
  have hstamp := length_strftime ha hb (dayFormat ++ [.char 45] ++ timeFormat)
  simp only [createLogNameWithFullPath]
  rw [append_right_lt_iff (by simp only [List.length_append, hday, hstamp]),
    append_lt_append_iff (by simp only [List.length_append, hday]), strftime_lt_iff ha hb,
    stamp_lt_iff]
  -- The folder is named by the day, which comes first in the stamp as well.
  rw [append_right_lt_iff (by simp only [List.length_append, hday]),
    append_right_lt_iff (by simp only [List.length_append, hday]),
    append_right_lt_iff (by simp only [List.length_append, hday]), append_left_lt_iff,
    strftime_lt_iff ha hb, List.append_left_inj, List.append_left_inj, List.append_left_inj,
    List.append_right_inj, strftime_inj ha hb, clock_lt_iff, numbers_append, numbers_append,
    append_lt_append_iff (length_numbers dayFormat a b)]
  tauto

theorem createLogNameWithFullPath_inj (ha : a.tm_year < 8100) (hb : b.tm_year < 8100) :
    createLogNameWithFullPath getenv name suffix a =
      createLogNameWithFullPath getenv name' suffix b ↔ name = name' ∧ a.clock = b.clock := by
  have hday := length_strftime ha hb dayFormat
  have hstamp := length_strftime ha hb (dayFormat ++ [.char 45] ++ timeFormat)
  simp only [createLogNameWithFullPath]
  rw [List.append_left_inj, List.append_eq_append_iff_of_size_eq_right hstamp,
    strftime_inj ha hb, stamp_eq_iff, List.append_left_inj]
  constructor
  · rintro ⟨hfront, hclock⟩
    exact ⟨(List.append_inj hfront (by simp only [List.length_append, hday])).2, hclock⟩
  · rintro ⟨rfl, hclock⟩
    refine ⟨?_, hclock⟩
    have hsame := clock_eq_iff.mp hclock
    rw [numbers_append, numbers_append,
      List.append_eq_append_iff_of_size_eq_left (length_numbers dayFormat a b)] at hsame
    rw [(strftime_inj ha hb dayFormat).mpr hsame.1]

/-- **Names sort as times.** Until the year 10000 the files of one logger, listed by name, are
listed by the clock, in the one folder of the specialised loggers as in the folders by day of the
others. And no builder gives a name twice, but to loggers of one name while the clock shows one
second. Where the caller gives the path it is path and prefix together that count: the text may be
divided otherwise into the two. -/
theorem names_in_order (getenv : String → Option (List UInt8))
    (name name' path path' suffix : List UInt8) {a b : Tm}
    (ha : a.tm_year < 8100) (hb : b.tm_year < 8100) :
    (createLogFileName name path a < createLogFileName name path b ↔ a.clock < b.clock) ∧
    (createLogFileName name path a = createLogFileName name' path' b ↔
      path ++ bytes "/" ++ name = path' ++ bytes "/" ++ name' ∧ a.clock = b.clock) ∧
    (createLogNameWithFullPath getenv name suffix a <
      createLogNameWithFullPath getenv name suffix b ↔ a.clock < b.clock) ∧
    (createLogNameWithFullPath getenv name suffix a =
      createLogNameWithFullPath getenv name' suffix b ↔ name = name' ∧ a.clock = b.clock) :=
  ⟨createLogFileName_lt_iff ha hb, createLogFileName_inj ha hb,
    createLogNameWithFullPath_lt_iff ha hb, createLogNameWithFullPath_inj ha hb⟩

/-- The last second of a year, and the first of the next. -/
theorem names_in_order_midnight :
    let eve : Tm := ⟨125, 11, 31, 23, 59, 59, by decide, by decide, by decide, by decide, by decide⟩
    let day : Tm := ⟨126, 0, 1, 0, 0, 0, by decide, by decide, by decide, by decide, by decide⟩
    createLogFileName (bytes "ctrl") (bytes "/log") eve <
        createLogFileName (bytes "ctrl") (bytes "/log") day ∧
      createLogNameWithFullPath (fun _ => none) (bytes "ctrl") (bytes ".log") eve <
        createLogNameWithFullPath (fun _ => none) (bytes "ctrl") (bytes ".log") day := by
  intro eve day
  obtain ⟨hname, -, hpath, -⟩ := names_in_order (fun _ => none) (bytes "ctrl") (bytes "ctrl")
    (bytes "/log") (bytes "/log") (bytes ".log") (a := eve) (b := day) (by decide) (by decide)
  exact ⟨hname.mpr (by decide), hpath.mpr (by decide)⟩

/-- The year 10000 is listed before the year 9999. -/
example : strftime dayFormat ⟨8100, 0, 1, 0, 0, 0, by decide, by decide, by decide, by decide,
      by decide⟩ <
    strftime dayFormat ⟨8099, 11, 31, 23, 59, 59, by decide, by decide, by decide, by decide,
      by decide⟩ := by
  decide

end LogFileName

end XmSigma
