import Mathlib.Order.MinMax
import XmSigma.Logging.Record

/-!
# The contract of `FormatInto`

`rt_detail::FormatInto` works on a slot of any size, with `fmt::format_to_n` doing the formatting.
That function is not part of the repository. Here it is anything that keeps to its documentation: it
writes to the slot only, and it either reports the size of the whole text, of which the slot has the
front, or throws, with anything left behind in the slot. The records are written with one instance
of it, which writes what has been formatted as far as it fits.

Nothing gets lost but in the last conversion. A length is returned in 16 bits, and a slot may be
larger than that.

## Main definitions

* `FormatToN`, `Formats`: `fmt::format_to_n`, and what it is documented to do for a message
* `formatIntoBy`: `rt_detail::FormatInto`
* `Contract`: what a caller gets

## Main results

* `formatIntoBy_formatToN`: the records are written by an instance
* `contract_iff`: when the contract is kept
-/

namespace XmSigma

/-- `fmt::format_to_n(dst, cap, …)`: the bytes from `dst` on afterwards, and `res.size`, or nothing
if it threw. -/
abbrev FormatToN := List UInt8 → UInt64 → List UInt8 × Option UInt64

/-- `rt_detail::FormatInto` on the bytes from `dst` on. The narrowing conversions are those of the
`static_cast`s. -/
def formatIntoBy (format_to_n : FormatToN) (dst : List UInt8) (cap : UInt64) :
    List UInt8 × UInt16 :=
  match format_to_n dst cap with
  | (dst, some size) => (dst, (if size < cap then size else cap).toUInt16)
  | (dst, none) =>
    let n := UInt64.ofNat kErr.length
    let n := if n > cap then cap else n
    (memcpy dst (kErr.take n.toNat), n.toUInt16)

/-- What `fmt::format_to_n` is documented to do, where formatting comes to `message`. -/
structure Formats (format_to_n : FormatToN) (message : Formatted) : Prop where
  /-- At most `cap` bytes are written. -/
  bounded : ∀ dst cap, cap.toNat ≤ dst.length →
    (format_to_n dst cap).1.length = dst.length ∧
    (format_to_n dst cap).1.drop cap.toNat = dst.drop cap.toNat
  /-- The reported size is that of the whole text. -/
  size : ∀ text, message = .ok text → ∀ dst cap,
    ∃ size, (format_to_n dst cap).2 = some size ∧ size.toNat = text.length
  /-- As much of the text is written as there is room for. -/
  front : ∀ text, message = .ok text → ∀ dst cap, cap.toNat ≤ dst.length →
    (format_to_n dst cap).1.take (text.take cap.toNat).length = text.take cap.toNat
  throws : ∀ written, message = .throws written → ∀ dst cap, (format_to_n dst cap).2 = none

/-- The bytes to be shown: the text, or the diagnostic. -/
def Formatted.shown : Formatted → List UInt8
  | .ok text => text
  | .throws _ => kErr

/-- What a caller gets for a slot of `cap` bytes, with the bytes `beyond` behind it: nothing beyond
is changed, the returned length is at most `cap`, that many bytes are the front of what is to be
shown, and they are all of it that fits. -/
structure Contract (format_to_n : FormatToN) (message : Formatted) (cap : UInt64)
    (slot : Vector UInt8 cap.toNat) (beyond : List UInt8) : Prop where
  beyond_eq : (formatIntoBy format_to_n (slot.toList ++ beyond) cap).1.drop cap.toNat = beyond
  returned_le : (formatIntoBy format_to_n (slot.toList ++ beyond) cap).2.toNat ≤ cap.toNat
  take_eq : (formatIntoBy format_to_n (slot.toList ++ beyond) cap).1.take
    (formatIntoBy format_to_n (slot.toList ++ beyond) cap).2.toNat = message.shown.take cap.toNat
  returned_eq : (formatIntoBy format_to_n (slot.toList ++ beyond) cap).2.toNat =
    min message.shown.length cap.toNat

variable {format_to_n : FormatToN} {message : Formatted} {dst : List UInt8} {cap : UInt64}

/-! ### What is written, and what is returned -/

/-- The bytes of the diagnostic that fit, as the handler counts them. -/
theorem toNat_handler (cap : UInt64) :
    (if UInt64.ofNat kErr.length > cap then cap else UInt64.ofNat kErr.length).toNat =
      min kErr.length cap.toNat := by
  have hlength : (UInt64.ofNat kErr.length).toNat = kErr.length := by decide
  split
  · next hgt =>
    have hlt := UInt64.lt_iff_toNat_lt.mp hgt
    omega
  · next hle =>
    have hge := UInt64.le_iff_toNat_le.mp (UInt64.not_lt.mp hle)
    omega

/-- The bytes of the text that fit, from the reported size. -/
theorem toNat_size {size : UInt64} {n : ℕ} (hsize : size.toNat = n) (cap : UInt64) :
    (if size < cap then size else cap).toNat = min n cap.toNat := by
  split
  · next hlt =>
    have := UInt64.lt_iff_toNat_lt.mp hlt
    omega
  · next hge =>
    have := UInt64.le_iff_toNat_le.mp (UInt64.not_lt.mp hge)
    omega

theorem formatIntoBy_size {size : UInt64} (hres : (format_to_n dst cap).2 = some size) :
    formatIntoBy format_to_n dst cap =
      ((format_to_n dst cap).1, (if size < cap then size else cap).toUInt16) := by
  rcases hcall : format_to_n dst cap with ⟨written, res⟩
  rw [hcall] at hres
  cases hres
  rw [formatIntoBy, hcall]

/-- The diagnostic goes over whatever a partial write has left in the slot. -/
theorem formatIntoBy_throws (hres : (format_to_n dst cap).2 = none) :
    formatIntoBy format_to_n dst cap =
      (memcpy (format_to_n dst cap).1 (kErr.take cap.toNat),
        (if UInt64.ofNat kErr.length > cap then cap else UInt64.ofNat kErr.length).toUInt16) := by
  have hcut : kErr.take (min kErr.length cap.toNat) = kErr.take cap.toNat :=
    List.take_eq_take_iff.mpr (by omega)
  rcases hcall : format_to_n dst cap with ⟨written, res⟩
  rw [hcall] at hres
  cases hres
  rw [← hcut, ← toNat_handler, formatIntoBy, hcall]

/-- The returned length is right but for what does not fit in 16 bits. -/
theorem toNat_formatIntoBy (h : Formats format_to_n message) (dst : List UInt8) (cap : UInt64) :
    (formatIntoBy format_to_n dst cap).2.toNat = min message.shown.length cap.toNat % 2 ^ 16 := by
  cases message with
  | ok text =>
    obtain ⟨size, hres, hsize⟩ := h.size text rfl dst cap
    rw [formatIntoBy_size hres, UInt64.toNat_toUInt16, toNat_size hsize]
    rfl
  | throws written =>
    rw [formatIntoBy_throws (h.throws written rfl dst cap), UInt64.toNat_toUInt16, toNat_handler]
    rfl

/-- The slot begins with what is to be shown, cut to the slot, and nothing is changed behind it. -/
theorem formatIntoBy_bytes (h : Formats format_to_n message) (hcap : cap.toNat ≤ dst.length) :
    (formatIntoBy format_to_n dst cap).1.take (message.shown.take cap.toNat).length =
      message.shown.take cap.toNat ∧
    (formatIntoBy format_to_n dst cap).1.drop cap.toNat = dst.drop cap.toNat := by
  obtain ⟨-, hdrop⟩ := h.bounded dst cap hcap
  cases message with
  | ok text =>
    obtain ⟨size, hres, -⟩ := h.size text rfl dst cap
    rw [formatIntoBy_size hres]
    exact ⟨h.front text rfl dst cap hcap, hdrop⟩
  | throws written =>
    rw [formatIntoBy_throws (h.throws written rfl dst cap)]
    refine ⟨take_memcpy .., ?_⟩
    rw [drop_memcpy (List.length_take_le ..), hdrop]

/-! ### The formatting of the records -/

/-- The `format_to_n` that writes what has been formatted, as far as it fits. -/
def Formatted.formatToN (message : Formatted) : FormatToN := fun dst cap =>
  match message with
  | .ok text => (memcpy dst (text.take cap.toNat), some (.ofNat text.length))
  | .throws written => (memcpy dst (written.take cap.toNat), none)

/-- It does what it is documented to do, for texts whose size fits in a word. -/
theorem formats_formatToN (hsize : ∀ text, message = .ok text → text.length < 2 ^ 64) :
    Formats message.formatToN message := by
  have hbounded (dst src : List UInt8) (cap : UInt64) (hcap : cap.toNat ≤ dst.length) :
      (memcpy dst (src.take cap.toNat)).length = dst.length ∧
      (memcpy dst (src.take cap.toNat)).drop cap.toNat = dst.drop cap.toNat :=
    ⟨length_memcpy ((List.length_take_le ..).trans hcap), drop_memcpy (List.length_take_le ..) dst⟩
  cases message with
  | ok text =>
    refine ⟨fun dst cap => hbounded dst text cap, ?_, ?_, ?_⟩
    · rintro _ ⟨⟩ dst cap
      exact ⟨_, rfl, UInt64.toNat_ofNat_of_lt' (hsize text rfl)⟩
    · rintro _ ⟨⟩ dst cap -
      exact take_memcpy ..
    · exact fun _ h => nomatch h
  | throws written =>
    exact ⟨fun dst cap => hbounded dst written cap, fun _ h => (nomatch h),
      fun _ h => (nomatch h), fun _ _ _ _ => rfl⟩

/-- The records are written by this instance. -/
theorem formatIntoBy_formatToN (hsize : ∀ text, message = .ok text → text.length < 2 ^ 64)
    (dst : List UInt8) (cap : UInt64) :
    formatIntoBy message.formatToN dst cap = formatInto dst cap.toNat message := by
  refine Prod.ext ?_ ?_
  · cases message with
    | ok text =>
      rw [formatIntoBy_size rfl]
      rfl
    | throws written =>
      rw [formatIntoBy_throws rfl]
      rfl
  · have hreturned : (formatInto dst cap.toNat message).2 = message.returned cap.toNat := by
      cases message <;> rfl
    have hkept : message.kept cap.toNat = message.shown.take cap.toNat := by
      cases message <;> rfl
    rw [← UInt16.toNat_inj, toNat_formatIntoBy (formats_formatToN hsize), hreturned,
      message.toNat_returned_mod, hkept, List.length_take, Nat.min_comm]

/-! ### The contract -/

/-- What is to be counted fits in 16 bits: the diagnostic does, and a text that is not too long, or
a slot that is not too large. -/
theorem fits_iff (message : Formatted) (cap : UInt64) :
    min message.shown.length cap.toNat < 2 ^ 16 ↔
      ∀ text, message = .ok text → text.length < 2 ^ 16 ∨ cap.toNat < 2 ^ 16 := by
  cases message with
  | ok text =>
    rw [Formatted.shown, min_lt_iff]
    exact ⟨fun hfits _ htext => Formatted.ok.inj htext ▸ hfits, fun h => h text rfl⟩
  | throws written =>
    have hlength : kErr.length < 2 ^ 16 := by decide
    exact ⟨fun _ text h => (nomatch h), fun _ => (Nat.min_le_left _ _).trans_lt hlength⟩

/-- The contract is kept where what is to be counted fits in 16 bits, and only there. -/
theorem contract_iff_fits (h : Formats format_to_n message) (cap : UInt64)
    (slot : Vector UInt8 cap.toNat) (beyond : List UInt8) :
    Contract format_to_n message cap slot beyond ↔
      min message.shown.length cap.toNat < 2 ^ 16 := by
  have hslot : slot.toList.length = cap.toNat := slot.length_toList
  have hcap : cap.toNat ≤ (slot.toList ++ beyond).length := by
    rw [List.length_append, hslot]
    exact Nat.le_add_right _ _
  obtain ⟨htake, hdrop⟩ := formatIntoBy_bytes h hcap
  have hreturned := toNat_formatIntoBy h (slot.toList ++ beyond) cap
  rw [List.drop_left' hslot] at hdrop
  rw [List.length_take, Nat.min_comm] at htake
  constructor
  · intro hcontract
    rw [← hcontract.returned_eq, hreturned]
    exact Nat.mod_lt _ (by decide)
  · intro hfits
    rw [Nat.mod_eq_of_lt hfits] at hreturned
    exact ⟨hdrop, hreturned.trans_le (Nat.min_le_right _ _), by rw [hreturned, htake], hreturned⟩

/-- In the slot of a record it is always kept. -/
theorem contract_record (h : Formats format_to_n message)
    (slot : Vector UInt8 (UInt64.ofNat kMaxMsgLen).toNat) (beyond : List UInt8) :
    Contract format_to_n message (.ofNat kMaxMsgLen) slot beyond :=
  (contract_iff_fits h _ slot beyond).mpr ((Nat.min_le_right _ _).trans_lt (by decide))

/-- **The contract** is kept if and only if the text or the slot is shorter than `2 ^ 16` bytes, or
formatting throws. -/
theorem contract_iff (h : Formats format_to_n message) (cap : UInt64)
    (slot : Vector UInt8 cap.toNat) (beyond : List UInt8) :
    Contract format_to_n message cap slot beyond ↔
      ∀ text, message = .ok text → text.length < 2 ^ 16 ∨ cap.toNat < 2 ^ 16 :=
  (contract_iff_fits h cap slot beyond).trans (fits_iff message cap)

/-- The text `"hi"` in a slot of one byte, with one byte behind it. -/
theorem contract_iff_small :
    Contract (Formatted.ok [104, 105]).formatToN (.ok [104, 105]) 1 #v[0] [7] :=
  (contract_iff (formats_formatToN (by rintro _ ⟨⟩; decide)) 1 #v[0] [7]).mpr
    fun _ _ => Or.inr (by decide)

/-- For a text and a slot of `2 ^ 16` bytes, the returned length is zero. -/
theorem contract_broken :
    ¬ ∀ (format_to_n : FormatToN) (message : Formatted), Formats format_to_n message →
      ∀ (cap : UInt64) (slot : Vector UInt8 cap.toNat) (beyond : List UInt8),
        Contract format_to_n message cap slot beyond := by
  intro h
  have hlength : (List.replicate (2 ^ 16) (120 : UInt8)).length = 2 ^ 16 := List.length_replicate
  have hformats : Formats (Formatted.ok (List.replicate (2 ^ 16) 120)).formatToN
      (.ok (List.replicate (2 ^ 16) 120)) := by
    refine formats_formatToN ?_
    rintro _ ⟨⟩
    rw [hlength]
    decide
  have hfits := (contract_iff_fits hformats 65536 (Vector.replicate _ 0) []).mp
    (h _ _ hformats _ _ _)
  rw [Formatted.shown, hlength] at hfits
  exact absurd hfits (by decide)

end XmSigma
