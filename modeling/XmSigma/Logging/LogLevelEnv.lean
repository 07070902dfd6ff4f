import XmSigma.Lib.Numeral
import XmSigma.Logging.Record

/-!
# The log level that comes from the environment

`ResolveLogLevelFromEnv` of `logging_utils.hpp` reads the level from `XLOG_LEVEL`: both
hard-real-time loggers begin with it, and the soft-real-time logger does after a detour through
the levels of `spdlog`. The value of a variable is the bytes before its terminator.

The number is read with `strtol`, whose `endptr` is only asked whether anything was read at all. So
a valid setting is understood, and whatever does not begin with a level is refused, but a level
with something behind it is taken for the level.

## Main definitions

* `resolveLogLevelFromEnv`
* `ReadsExactly`: the valid settings are accepted, and no others

## Main results

* `resolve_text`: what comes of a numeral at the front of the value
* `reads_exactly_iff`: when the function reads exactly the valid settings
-/

namespace XmSigma

/-- `static_cast<LogLevel>`, on the integers that have a name. -/
def LogLevel.ofValue : Fin 7 → LogLevel
  | 0 => kTrace
  | 1 => kDebug
  | 2 => kInfo
  | 3 => kWarn
  | 4 => kError
  | 5 => kFatal
  | 6 => kOff

/-- `log_level_env_var_name`. -/
def logLevelEnvVarName : String := "XLOG_LEVEL"

/-- `default_log_level`. -/
def defaultLogLevel : LogLevel := .kInfo

/-- `GetEnvironmentVariable`, where `std::getenv` answers with a null pointer or a text. -/
def getEnvironmentVariable (getenv : String → Option (List UInt8)) (name : String) : List UInt8 :=
  match getenv name with
  | some value => value
  | none => []

/-- `ResolveLogLevelFromEnv`. -/
def resolveLogLevelFromEnv (long : Long) (getenv : String → Option (List UInt8))
    (fallback : LogLevel) : LogLevel :=
  let value := getEnvironmentVariable getenv logLevelEnvVarName
  if value.isEmpty then fallback
  else
    let read := strtol long value
    if h : read.2 = 0 ∨ read.1 < 0 ∨ read.1 > 6 then fallback
    else LogLevel.ofValue ⟨read.1.toNat, by omega⟩

variable {long : Long} {getenv : String → Option (List UInt8)} {fallback : LogLevel}
  {rest : List UInt8}

/-- A numeral at the front of the value decides: if it is that of a level, this is the result. -/
theorem resolve_text {m : Numeral}
    (hvalue : getEnvironmentVariable getenv logLevelEnvVarName = m.text ++ rest)
    (hrest : Stops rest) :
    (∀ n : Fin 7, m.toInt = n →
      resolveLogLevelFromEnv long getenv fallback = LogLevel.ofValue n) ∧
    ((∀ n : Fin 7, m.toInt ≠ n) → resolveLogLevelFromEnv long getenv fallback = fallback) := by
  have hne : ¬ (m.text ++ rest).isEmpty := by simp [m.text_ne_nil]
  have hlength : m.text.length ≠ 0 := fun hzero =>
    m.text_ne_nil (List.eq_nil_of_length_eq_zero hzero)
  simp only [resolveLogLevelFromEnv, hvalue, if_neg hne, strtol_text long m hrest]
  have hmax := long.le_max
  have hmin := long.min_lt
  constructor
  · intro n hn
    have hsaturate : long.saturate m.toInt = n :=
      (long.saturate_eq_iff (by omega) (by omega)).mpr hn
    simp only [hsaturate]
    rw [dif_neg (by omega)]
    rfl
  · intro hnone
    refine dif_pos ?_
    by_contra hlevel
    have hsaturate := (long.saturate_eq_iff (v := m.toInt) (n := long.saturate m.toInt)
      (by omega) (by omega)).mp rfl
    exact hnone ⟨m.toInt.toNat, by omega⟩ (by simp only; omega)

/-- Without a numeral at the front, nothing is read. -/
theorem resolve_none
    (hread : strtol long (getEnvironmentVariable getenv logLevelEnvVarName) = (0, 0)) :
    resolveLogLevelFromEnv long getenv fallback = fallback := by
  rw [resolveLogLevelFromEnv]
  split
  · rfl
  · exact dif_pos (Or.inl (congrArg Prod.snd hread))

/-- The numeral of a level is understood as that level, and where the value is no such numeral, the
result is the fallback. -/
structure ReadsExactly (long : Long) (getenv : String → Option (List UInt8))
    (fallback : LogLevel) : Prop where
  valid : ∀ (m : Numeral) (n : Fin 7),
    getEnvironmentVariable getenv logLevelEnvVarName = m.text → m.toInt = n →
      resolveLogLevelFromEnv long getenv fallback = LogLevel.ofValue n
  invalid : (∀ (m : Numeral) (n : Fin 7),
    getEnvironmentVariable getenv logLevelEnvVarName = m.text → m.toInt ≠ n) →
      resolveLogLevelFromEnv long getenv fallback = fallback

/-- **Exactly the valid settings are read** if and only if the value is not the numeral of a level
with something behind it, or that level is the fallback anyway. -/
theorem reads_exactly_iff (long : Long) (getenv : String → Option (List UInt8))
    (fallback : LogLevel) :
    ReadsExactly long getenv fallback ↔
      ∀ (m : Numeral) (n : Fin 7) (c : UInt8) (rest : List UInt8),
        getEnvironmentVariable getenv logLevelEnvVarName = m.text ++ c :: rest →
          ¬ Decimal.isDigit c → m.toInt = n → fallback = LogLevel.ofValue n := by
  constructor
  · intro hexact m n c rest hvalue hc hn
    have hrest : Stops (c :: rest) := stops_cons.mpr hc
    have hinvalid := hexact.invalid fun m' n' hvalue' _ => by
      have hcut : m'.text ++ [] = m.text ++ c :: rest := by
        rw [List.append_nil, ← hvalue', hvalue]
      cases Numeral.rest_eq stops_nil hrest hcut
    rw [← hinvalid, (resolve_text hvalue hrest).1 n hn]
  · intro hbehind
    refine ⟨fun m n hvalue hn => ?_, fun hinvalid => ?_⟩
    · exact (resolve_text (hvalue.trans (List.append_nil _).symm) stops_nil).1 n hn
    · rcases strtol_cases long (getEnvironmentVariable getenv logLevelEnvVarName) with
        ⟨m, rest, hvalue, hrest⟩ | hread
      · cases rest with
        | nil =>
          exact (resolve_text hvalue hrest).2 fun n =>
            hinvalid m n (hvalue.trans (List.append_nil _))
        | cons c rest =>
          by_cases hlevel : ∃ n : Fin 7, m.toInt = n
          · obtain ⟨n, hn⟩ := hlevel
            rw [(resolve_text hvalue hrest).1 n hn]
            exact (hbehind m n c rest hvalue (stops_cons.mp hrest) hn).symm
          · exact (resolve_text hvalue hrest).2 fun n hn => hlevel ⟨n, hn⟩
      · exact resolve_none hread

/-- `"3abc"` is taken for the level 3. -/
theorem reads_level_in_front :
    ¬ ∀ long getenv fallback, ReadsExactly long getenv fallback := by
  intro h
  let m : Numeral := ⟨[], .none, [51], by simp, by simp, List.forall_mem_singleton.mpr (by decide)⟩
  have hrest : Stops [97, 98, 99] := stops_cons.mpr (by decide)
  have hinvalid := (h ⟨64, by decide⟩ (fun _ => some [51, 97, 98, 99]) .kInfo).invalid
    fun m' _ hvalue _ => by
      have hcut : m'.text ++ [] = m.text ++ [97, 98, 99] := by
        rw [List.append_nil, ← hvalue]
        rfl
      cases Numeral.rest_eq stops_nil hrest hcut
  exact absurd hinvalid (by decide +kernel)

/-! ### The soft-real-time logger -/

/-- `FromSpdlogLevel`. -/
def SpdlogLevel.toLogLevel : SpdlogLevel → LogLevel
  | trace => .kTrace
  | debug => .kDebug
  | info => .kInfo
  | warn => .kWarn
  | err => .kError
  | critical => .kFatal
  | off => .kOff

namespace LoggerVendorSpdlog

/-- `SetLoggerLevel`: the level that `logger_` gets. -/
def setLoggerLevel (level : LogLevel) : SpdlogLevel := level.toSpdlogLevel

/-- `GetLoggerLevel`, from the level of `logger_`. -/
def getLoggerLevel (level : SpdlogLevel) : LogLevel := level.toLogLevel

/-- The level that `Initialize` leaves in `logger_`. -/
def initialLevel (long : Long) (getenv : String → Option (List UInt8)) : SpdlogLevel :=
  let log_level := (resolveLogLevelFromEnv long getenv defaultLogLevel).toSpdlogLevel
  setLoggerLevel log_level.toLogLevel

theorem getLoggerLevel_set (level : LogLevel) : getLoggerLevel (setLoggerLevel level) = level := by
  cases level <;> rfl

/-- The detour through the levels of `spdlog` changes nothing: all loggers begin with one level. -/
theorem getLoggerLevel_initial (long : Long) (getenv : String → Option (List UInt8)) :
    getLoggerLevel (initialLevel long getenv) =
      resolveLogLevelFromEnv long getenv defaultLogLevel :=
  (getLoggerLevel_set _).trans (getLoggerLevel_set _)

end LoggerVendorSpdlog

end XmSigma
