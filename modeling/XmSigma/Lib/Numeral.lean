import Mathlib.Data.List.TakeWhile
import XmSigma.Lib.Decimal

/-!
# Numerals, and `strtol`

A numeral is what the C library takes for a number in base ten: white space, a sign or none, and
digits. `strtol` reads the longest numeral at the front of a text and says how far it came; a
number that does not fit in a `long` becomes the nearest one that does. The locale is the classic
one.

What the function does on a text is said by how the text can be cut: into a numeral and a rest that
does not begin with a digit, or not at all.

## Main definitions

* `Long`: the range of a `long`
* `strtol`: the number and the length of what was read
* `Numeral`: a numeral, with its text and its number

## Main results

* `strtol_text`: a numeral is read as far as it goes
* `Numeral.rest_eq`: a text can be cut behind a numeral in one way only
* `strtol_cases`: if there is no numeral at the front, nothing is read
-/

namespace XmSigma

/-! ### The function -/

/-- The width of `long`. -/
structure Long where
  bits : ℕ
  le_bits : 32 ≤ bits

namespace Long

variable (long : Long)

/-- `LONG_MIN`. -/
def min : ℤ := -2 ^ (long.bits - 1)

/-- `LONG_MAX`. -/
def max : ℤ := 2 ^ (long.bits - 1) - 1

/-- The value in the range that is nearest to `v`. -/
def saturate (v : ℤ) : ℤ := if v < long.min then long.min else if long.max < v then long.max else v

theorem le_max : 2 ^ 31 - 1 ≤ long.max := by
  have hbits := long.le_bits
  have hpow : (2 : ℤ) ^ 31 ≤ 2 ^ (long.bits - 1) := pow_le_pow_right₀ (by decide) (by omega)
  exact sub_le_sub_right hpow 1

theorem min_lt : long.min < 0 := neg_neg_of_pos (pow_pos (by decide) _)

/-- A value strictly inside of the range is not the nearest one to any other. -/
theorem saturate_eq_iff {v n : ℤ} (hmin : long.min < n) (hmax : n < long.max) :
    long.saturate v = n ↔ v = n := by
  rw [saturate]
  split
  · omega
  · split <;> omega

end Long

/-- `isspace`. -/
def isspace (b : UInt8) : Bool := decide (b = 32 ∨ 9 ≤ b ∧ b ≤ 13)

/-- The sign in front of the digits. -/
inductive Sign
  | none | plus | minus

namespace Sign

/-- How a sign is written. -/
def text : Sign → List UInt8
  | none => []
  | plus => [43]
  | minus => [Decimal.minus]

/-- The number with this sign and the digits of `n`. -/
def apply : Sign → ℕ → ℤ
  | minus, n => -n
  | _, n => n

/-- Take a sign off the front of a text. -/
def take : List UInt8 → Sign × List UInt8
  | [] => (none, [])
  | b :: s => if b = 43 then (plus, s) else if b = Decimal.minus then (minus, s) else (none, b :: s)

end Sign

/-- `strtol(nptr, &endptr, 10)`: the number, and `endptr - nptr`. -/
def strtol (long : Long) (nptr : List UInt8) : ℤ × ℕ :=
  let spaces := nptr.takeWhile isspace
  let (sign, s) := Sign.take (nptr.dropWhile isspace)
  let digits := s.takeWhile Decimal.isDigit
  if digits.isEmpty then (0, 0)
  else (long.saturate (sign.apply (Decimal.value digits)),
    spaces.length + sign.text.length + digits.length)

/-! ### Numerals -/

/-- White space, a sign or none, and digits. -/
structure Numeral where
  spaces : List UInt8
  sign : Sign
  digits : List UInt8
  isspace_of_mem : ∀ b ∈ spaces, isspace b
  digits_ne_nil : digits ≠ []
  isDigit_of_mem : ∀ b ∈ digits, Decimal.isDigit b

namespace Numeral

variable (m : Numeral)

/-- The text of the numeral. -/
def text : List UInt8 := m.spaces ++ (m.sign.text ++ m.digits)

/-- The number it stands for. -/
def toInt : ℤ := m.sign.apply (Decimal.value m.digits)

theorem text_ne_nil : m.text ≠ [] := by simp [text, m.digits_ne_nil]

end Numeral

/-- The text does not begin with a digit, so that a numeral in front of it ends there. -/
def Stops (s : List UInt8) : Prop := ∀ b ∈ s.head?, ¬ Decimal.isDigit b

variable {long : Long} {s rest digits : List UInt8}

theorem stops_nil : Stops [] := by simp [Stops]

theorem stops_cons {b : UInt8} : Stops (b :: s) ↔ ¬ Decimal.isDigit b := by simp [Stops]

theorem not_isspace_of_isDigit {b : UInt8} (h : Decimal.isDigit b) : ¬ isspace b := by
  have hall : ∀ n : BitVec 8, Decimal.isDigit ⟨n⟩ → ¬ isspace ⟨n⟩ := by decide +kernel
  exact hall b.toBitVec h

/-- What begins with a sign or with a digit does not begin with white space. -/
theorem dropWhile_isspace (sign : Sign) (hne : digits ≠ [])
    (hdigits : ∀ b ∈ digits, Decimal.isDigit b) (rest : List UInt8) :
    (sign.text ++ (digits ++ rest)).takeWhile isspace = [] ∧
      (sign.text ++ (digits ++ rest)).dropWhile isspace = sign.text ++ (digits ++ rest) := by
  have hhead : ∃ b t, sign.text ++ (digits ++ rest) = b :: t ∧ ¬ isspace b := by
    cases sign with
    | none =>
      cases digits with
      | nil => exact absurd rfl hne
      | cons b t =>
        exact ⟨b, t ++ rest, rfl, not_isspace_of_isDigit (hdigits b List.mem_cons_self)⟩
    | plus => exact ⟨43, digits ++ rest, rfl, by decide⟩
    | minus => exact ⟨Decimal.minus, digits ++ rest, rfl, by decide⟩
  obtain ⟨b, t, htext, hb⟩ := hhead
  rw [htext, List.takeWhile_cons_of_neg hb, List.dropWhile_cons_of_neg hb]
  exact ⟨rfl, rfl⟩

theorem Sign.take_text (sign : Sign) (hne : digits ≠ [])
    (hdigits : ∀ b ∈ digits, Decimal.isDigit b) (rest : List UInt8) :
    Sign.take (sign.text ++ (digits ++ rest)) = (sign, digits ++ rest) := by
  cases sign with
  | none =>
    cases digits with
    | nil => exact absurd rfl hne
    | cons b t =>
      have hb := hdigits b List.mem_cons_self
      have hplus : b ≠ 43 := by
        rintro rfl
        exact absurd hb (by decide)
      have hminus : b ≠ Decimal.minus := by
        rintro rfl
        exact absurd hb (by decide)
      change (if b = 43 then _ else _) = _
      rw [if_neg hplus, if_neg hminus]
      rfl
  | plus => rfl
  | minus => rfl

theorem takeWhile_isDigit (hdigits : ∀ b ∈ digits, Decimal.isDigit b) (hrest : Stops rest) :
    (digits ++ rest).takeWhile Decimal.isDigit = digits := by
  have htake : rest.takeWhile Decimal.isDigit = [] := by
    cases rest with
    | nil => rfl
    | cons b t => exact List.takeWhile_cons_of_neg (stops_cons.mp hrest)
  rw [List.takeWhile_append_of_pos hdigits, htake, List.append_nil]

/-- **A numeral is read as far as it goes**, if what is behind it does not begin with a digit. -/
theorem strtol_text (long : Long) (m : Numeral) (hrest : Stops rest) :
    strtol long (m.text ++ rest) = (long.saturate m.toInt, m.text.length) := by
  obtain ⟨hspaces, hsubject⟩ := dropWhile_isspace m.sign m.digits_ne_nil m.isDigit_of_mem
    rest
  have htext : m.text ++ rest = m.spaces ++ (m.sign.text ++ (m.digits ++ rest)) := by
    rw [Numeral.text, List.append_assoc, List.append_assoc]
  have htake : (m.text ++ rest).takeWhile isspace = m.spaces := by
    rw [htext, List.takeWhile_append_of_pos m.isspace_of_mem, hspaces, List.append_nil]
  have hdrop : (m.text ++ rest).dropWhile isspace = m.sign.text ++ (m.digits ++ rest) := by
    rw [htext, List.dropWhile_append_of_pos m.isspace_of_mem, hsubject]
  have hlength : m.text.length = m.spaces.length + m.sign.text.length + m.digits.length := by
    rw [Numeral.text, List.length_append, List.length_append, Nat.add_assoc]
  simp only [strtol, htake, hdrop, Sign.take_text m.sign m.digits_ne_nil m.isDigit_of_mem rest,
    takeWhile_isDigit m.isDigit_of_mem hrest]
  rw [if_neg (by simp [m.digits_ne_nil]), hlength, Numeral.toInt]

/-- The two cuts are read the same, so they are at the same place. -/
theorem Numeral.rest_eq {m m' : Numeral} {rest' : List UInt8} (hrest : Stops rest)
    (hrest' : Stops rest') (h : m.text ++ rest = m'.text ++ rest') : rest = rest' := by
  have hread := strtol_text ⟨32, le_rfl⟩ m hrest
  rw [h, strtol_text ⟨32, le_rfl⟩ m' hrest', Prod.mk.injEq] at hread
  exact (List.append_inj h hread.2.symm).2

theorem Sign.text_take (s : List UInt8) : (Sign.take s).1.text ++ (Sign.take s).2 = s := by
  cases s with
  | nil => rfl
  | cons b s =>
    rw [Sign.take]
    split
    · next hplus => rw [hplus]; rfl
    · split
      · next hminus => rw [hminus]; rfl
      · rfl

theorem stops_dropWhile (s : List UInt8) : Stops (s.dropWhile Decimal.isDigit) := by
  intro b hb hdigit
  have := List.head?_dropWhile_not Decimal.isDigit s
  rw [Option.mem_def.mp hb] at this
  simp [hdigit] at this

/-- A text begins with a numeral, or nothing of it is read. -/
theorem strtol_cases (long : Long) (s : List UInt8) :
    (∃ (m : Numeral) (rest : List UInt8), s = m.text ++ rest ∧ Stops rest) ∨
      strtol long s = (0, 0) := by
  let sign := (Sign.take (s.dropWhile isspace)).1
  let t := (Sign.take (s.dropWhile isspace)).2
  by_cases hdigits : t.takeWhile Decimal.isDigit = []
  · right
    simp only [strtol]
    exact if_pos (List.isEmpty_iff.mpr hdigits)
  · left
    refine ⟨⟨s.takeWhile isspace, sign, t.takeWhile Decimal.isDigit,
      fun b => List.mem_takeWhile_imp, hdigits, fun b => List.mem_takeWhile_imp⟩,
      t.dropWhile Decimal.isDigit, ?_, stops_dropWhile t⟩
    rw [Numeral.text, List.append_assoc, List.append_assoc, List.takeWhile_append_dropWhile,
      Sign.text_take, List.takeWhile_append_dropWhile]

end XmSigma
