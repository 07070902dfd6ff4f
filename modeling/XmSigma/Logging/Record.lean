import Mathlib.Algebra.Group.Nat.Defs
import Mathlib.Data.List.Basic
import Mathlib.Order.Basic
import Mathlib.Order.Nat
import Mathlib.Data.Int.Notation

/-!
# Log records: what a call writes and what the sink gets

`RtLogger` and `MpscRtLogger` share one slot layout and one life of a slot: a `Log` call assigns
its fields one after another, and the drain thread later reads them back, one after another, to
hand the record to the sink. Both halves are written here once, field by field, so that a
schedule may put any other step between two accesses.

## The arguments of a call

`Call` bundles what one call of `Log` gets from outside: the level, the outcome of formatting the
message, and the time `system_clock::now()` will answer. The clock is read at most once in a
call, so its answer may be fixed beforehand without losing a behaviour.

## Main definitions

* `LogLevel`, `SpdlogLevel`, `LogLevel.toSpdlogLevel`
* `formatInto`: `rt_detail::FormatInto` on the bytes of a slot
* `Record.assign`: one assignment of the body of `Log`
* `View`: the arguments the drain thread has evaluated so far
* `Call.sinkRecord`: what the sink should get for a call

## Main results

* `Record.assign_holds`, `Record.Holds.assign_of_ne`: an assignment sets its own field only
* `View.forward_eq`: a record whose fields are a call's arrives as that call's
-/

namespace XmSigma

/-! ### Levels -/

/-- `enum class LogLevel : int`. -/
inductive LogLevel
  | kTrace | kDebug | kInfo | kWarn | kError | kFatal | kOff
  deriving DecidableEq

/-- The underlying integer of the enumeration. -/
def LogLevel.value : LogLevel → ℕ
  | kTrace => 0 | kDebug => 1 | kInfo => 2 | kWarn => 3 | kError => 4 | kFatal => 5 | kOff => 6

/-- `<` of a scoped enumeration compares the underlying integers. -/
instance : LT LogLevel := ⟨fun a b => a.value < b.value⟩

/-- It is decided on the integers. -/
instance (a b : LogLevel) : Decidable (a < b) := inferInstanceAs (Decidable (a.value < b.value))

/-- `spdlog::level::level_enum`. -/
inductive SpdlogLevel
  | trace | debug | info | warn | err | critical | off
  deriving DecidableEq

/-- `ToSpdlogLevel`. -/
def LogLevel.toSpdlogLevel : LogLevel → SpdlogLevel
  | kTrace => .trace
  | kDebug => .debug
  | kInfo => .info
  | kWarn => .warn
  | kError => .err
  | kFatal => .critical
  | kOff => .off

/-! ### Formatting into a slot -/

/-- `RtLogger::kMaxMsgLen` and `MpscRtLogger::kMaxMsgLen`. -/
def kMaxMsgLen : ℕ := 256

/-- `kErr`, without its terminating zero. -/
def kErr : List UInt8 := "[xmsigma: log format error]".toList.map fun ch => ch.toNat.toUInt8

/-- What formatting a message comes to: the whole text, or an exception after some of the text
was written. -/
inductive Formatted
  | ok (text : List UInt8)
  | throws (written : List UInt8)
  deriving DecidableEq

/-- Copy `src` over the front of `dst`. -/
def memcpy (dst src : List UInt8) : List UInt8 := src ++ dst.drop src.length

theorem take_memcpy (dst src : List UInt8) : (memcpy dst src).take src.length = src := by
  simp [memcpy]

theorem length_memcpy {dst src : List UInt8} (h : src.length ≤ dst.length) :
    (memcpy dst src).length = dst.length := by
  simp only [memcpy, List.length_append, List.length_drop]
  omega

/-- Nothing is changed behind what is copied. -/
theorem drop_memcpy {src : List UInt8} {n : ℕ} (h : src.length ≤ n) (dst : List UInt8) :
    (memcpy dst src).drop n = dst.drop n := by
  obtain ⟨k, rfl⟩ := Nat.exists_eq_add_of_le h
  rw [memcpy, List.drop_length_add_append, List.drop_drop]

/-- The bytes `FormatInto` accounts for: the text, or the diagnostic, cut to the slot. -/
def Formatted.kept (cap : ℕ) : Formatted → List UInt8
  | .ok text => text.take cap
  | .throws _ => kErr.take cap

/-- What `FormatInto` returns. `format_to_n` reports the untruncated size, the handler cuts the
diagnostic itself; both are narrowed to 16 bits. -/
def Formatted.returned (cap : ℕ) : Formatted → UInt16
  | .ok text => UInt16.ofNat (if text.length < cap then text.length else cap)
  | .throws _ =>
    let n := kErr.length
    UInt16.ofNat (if n > cap then cap else n)

/-- `rt_detail::FormatInto`: the slot afterwards and the returned length. On an exception the
diagnostic goes over whatever was written before. -/
def formatInto (dst : List UInt8) (cap : ℕ) : Formatted → List UInt8 × UInt16
  | .ok text => (memcpy dst (text.take cap), (Formatted.ok text).returned cap)
  | .throws written =>
    (memcpy (memcpy dst (written.take cap)) (kErr.take cap), (Formatted.throws written).returned cap)

theorem Formatted.length_kept_le (cap : ℕ) (f : Formatted) : (f.kept cap).length ≤ cap := by
  cases f <;> exact List.length_take_le ..

/-- The returned length counts the kept bytes, as far as 16 bits go. -/
theorem Formatted.toNat_returned_mod (cap : ℕ) (f : Formatted) :
    (f.returned cap).toNat = (f.kept cap).length % 2 ^ 16 := by
  cases f with
  | ok text =>
    have hlength : (if text.length < cap then text.length else cap) = (text.take cap).length := by
      rw [List.length_take]
      split <;> omega
    rw [returned, kept, UInt16.toNat_ofNat', hlength]
  | throws written =>
    have hlength : (if kErr.length > cap then cap else kErr.length) = (kErr.take cap).length := by
      rw [List.length_take]
      split <;> omega
    rw [returned, kept, UInt16.toNat_ofNat', hlength]

/-- Where 16 bits are enough for the slot size, it counts all of them. -/
theorem Formatted.toNat_returned {cap : ℕ} (hcap : cap < 2 ^ 16) (f : Formatted) :
    (f.returned cap).toNat = (f.kept cap).length := by
  rw [toNat_returned_mod, Nat.mod_eq_of_lt ((f.length_kept_le cap).trans_lt hcap)]

/-- The front of the slot is the kept text, whatever the slot held before. -/
theorem take_formatInto (dst : List UInt8) (cap : ℕ) (f : Formatted) :
    (formatInto dst cap f).1.take (f.kept cap).length = f.kept cap := by
  cases f <;> exact take_memcpy ..

/-! ### Calls -/

/-- A tick count of `std::chrono::system_clock`. -/
abbrev TimePoint := ℤ

/-- What one call of `Log` gets from outside. -/
structure Call where
  level : LogLevel
  /-- The outcome of formatting the message. -/
  message : Formatted
  /-- What `system_clock::now()` answers in this call. -/
  now : TimePoint
  deriving DecidableEq

/-- What `sink_logger_->log` is called with. -/
structure SinkRecord where
  time : TimePoint
  level : SpdlogLevel
  payload : List UInt8
  deriving DecidableEq

namespace Call

/-- The text a call leaves in its slot. -/
def text (c : Call) : List UInt8 := c.message.kept kMaxMsgLen

/-- What the sink should get for a call. -/
def sinkRecord (c : Call) : SinkRecord := ⟨c.now, c.level.toSpdlogLevel, c.text⟩

theorem toNat_returned (c : Call) : (c.message.returned kMaxMsgLen).toNat = c.text.length :=
  c.message.toNat_returned (by decide)

end Call

/-! ### Writing a record -/

/-- `RtLogger::Record`, and the fields of `MpscRtLogger::Cell` other than its sequence. -/
structure Record where
  time : TimePoint := 0
  level : LogLevel := .kInfo
  len : UInt16 := 0
  msg : List UInt8

/-- A new record: `msg` has no initializer, so its bytes are whatever was there. -/
def Record.fresh (raw : Vector UInt8 kMaxMsgLen) : Record := { msg := raw.toList }

/-- The four fields, as places of an assignment or of a read. -/
inductive Field
  | time | level | msg | len
  deriving DecidableEq

namespace Record

variable {c : Call} {r : Record} {f g : Field}

/-- One assignment of the body of `Log`. The value assigned to `len` is what `FormatInto`
returned; it does not depend on the slot, so it need not be carried from the formatting to the
assignment. -/
def assign (c : Call) : Field → Record → Record
  | .time, r => { r with time := c.now }
  | .level, r => { r with level := c.level }
  | .msg, r => { r with msg := (formatInto r.msg kMaxMsgLen c.message).1 }
  | .len, r => { r with len := c.message.returned kMaxMsgLen }

/-- Field `f` of `r` is what the call `c` assigns to it. -/
def Holds (c : Call) (r : Record) : Field → Prop
  | .time => r.time = c.now
  | .level => r.level = c.level
  | .msg => r.msg.take c.text.length = c.text
  | .len => r.len.toNat = c.text.length

/-- What the sink gets for a record that is read in one go. -/
def sinkRecord (r : Record) : SinkRecord := ⟨r.time, r.level.toSpdlogLevel, r.msg.take r.len.toNat⟩

theorem sinkRecord_eq (h : ∀ f, r.Holds c f) : r.sinkRecord = c.sinkRecord := by
  have hm : r.msg.take c.text.length = c.text := h .msg
  have hn : r.len.toNat = c.text.length := h .len
  have ht : r.time = c.now := h .time
  have hl : r.level = c.level := h .level
  rw [sinkRecord, Call.sinkRecord, ht, hl, hn, hm]

theorem assign_holds (c : Call) (f : Field) (r : Record) : (r.assign c f).Holds c f := by
  cases f with
  | time => rfl
  | level => rfl
  | msg => exact take_formatInto ..
  | len => exact c.toNat_returned

/-- An assignment leaves the other fields alone. -/
theorem Holds.assign_of_ne {c' : Call} (h : r.Holds c g) (hne : g ≠ f) :
    (r.assign c' f).Holds c g := by
  cases f <;> cases g <;> first | exact absurd rfl hne | exact h

end Record

/-! ### Reading a record -/

/-- The arguments of `sink_logger_->log` the drain thread has evaluated so far. C++ leaves the
order of the evaluation open, so each of them is either there or not. -/
structure View where
  time : Option TimePoint := none
  level : Option LogLevel := none
  len : Option UInt16 := none
  deriving DecidableEq

namespace View

variable {c : Call} {r : Record} {v v' : View} {f : Field}

/-- Evaluate one more argument. The bytes of `msg` are read later, inside `log`. -/
def read (r : Record) (v : View) : Field → Option View
  | .time => if v.time.isNone then some { v with time := some r.time } else none
  | .level => if v.level.isNone then some { v with level := some r.level } else none
  | .len => if v.len.isNone then some { v with len := some r.len } else none
  | .msg => none

/-- With all arguments evaluated, `log` reads the first `len` bytes of the slot. -/
def forward (r : Record) (v : View) : Option SinkRecord :=
  match v.time, v.level, v.len with
  | some t, some l, some n => some ⟨t, l.toSpdlogLevel, r.msg.take n.toNat⟩
  | _, _, _ => none

/-- What has been read so far is what the call `c` wrote. -/
structure Sees (v : View) (c : Call) : Prop where
  time : ∀ t ∈ v.time, t = c.now
  level : ∀ l ∈ v.level, l = c.level
  len : ∀ n ∈ v.len, n.toNat = c.text.length

theorem sees_empty (c : Call) : Sees {} c := ⟨by simp, by simp, by simp⟩

theorem Sees.read (h : v.Sees c) (hr : ∀ f, r.Holds c f) (hv : v.read r f = some v') :
    v'.Sees c := by
  cases f with
  | time =>
    obtain ⟨-, rfl⟩ := by simpa [View.read] using hv
    exact ⟨by rintro t ⟨⟩; exact hr .time, h.level, h.len⟩
  | level =>
    obtain ⟨-, rfl⟩ := by simpa [View.read] using hv
    exact ⟨h.time, by rintro l ⟨⟩; exact hr .level, h.len⟩
  | len =>
    obtain ⟨-, rfl⟩ := by simpa [View.read] using hv
    exact ⟨h.time, h.level, by rintro n ⟨⟩; exact hr .len⟩
  | msg => simp [View.read] at hv

/-- A slot whose fields are those of a call is forwarded as that call's record. -/
theorem Sees.forward_eq {x : SinkRecord} (h : v.Sees c) (hr : ∀ f, r.Holds c f)
    (hx : v.forward r = some x) : x = c.sinkRecord := by
  obtain ⟨t, l, n⟩ := v
  simp only [View.forward] at hx
  split at hx
  · obtain rfl := Option.some.inj hx
    have ht := h.time _ rfl
    have hl := h.level _ rfl
    have hn := h.len _ rfl
    have hm : r.msg.take c.text.length = c.text := hr .msg
    simp only [Call.sinkRecord, SinkRecord.mk.injEq]
    exact ⟨ht, by rw [hl], by rw [hn, hm]⟩
  · cases hx

/-! ### How much is left to read -/

/-- How many arguments are still to be read. -/
def missing (v : View) : ℕ :=
  v.time.elim 1 (fun _ => 0) + v.level.elim 1 (fun _ => 0) + v.len.elim 1 (fun _ => 0)

theorem missing_empty : View.missing {} = 3 := rfl

theorem missing_le (v : View) : v.missing ≤ 3 := by
  obtain ⟨time, level, len⟩ := v
  cases time <;> cases level <;> cases len <;> simp [missing]

/-- Reading an argument leaves one less to be read. -/
theorem missing_read {r : Record} {v v' : View} {f : Field} (h : v.read r f = some v') :
    v'.missing + 1 = v.missing := by
  cases f with
  | msg => cases h
  | time | level | len =>
    obtain ⟨hnone, rfl⟩ := by simpa [View.read] using h
    simp only [View.missing, hnone]
    grind

/-- A record is forwarded when no argument is left to be read. -/
theorem missing_forward {r : Record} {v : View} {x : SinkRecord}
    (h : v.forward r = some x) : v.missing = 0 := by
  simp only [View.forward] at h
  split at h
  · next ht hl hn => rw [View.missing, ht, hl, hn]; rfl
  · cases h

/-- There is an argument left to read, or the record can be forwarded. -/
theorem exists_read (v : View) (r : Record) :
    (∃ f v', f ≠ .msg ∧ v.read r f = some v') ∨ ∃ x, v.forward r = some x := by
  obtain ⟨t, l, n⟩ := v
  cases t with
  | none => exact .inl ⟨.time, _, by decide, rfl⟩
  | some t =>
    cases l with
    | none => exact .inl ⟨.level, _, by decide, rfl⟩
    | some l =>
      cases n with
      | none => exact .inl ⟨.len, _, by decide, rfl⟩
      | some n => exact .inr ⟨_, rfl⟩

end View

end XmSigma
