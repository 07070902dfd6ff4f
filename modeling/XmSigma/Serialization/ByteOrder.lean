import Mathlib.Data.List.Basic

/-!
# Byte order

The loads and stores of `byte_order.hpp`. A buffer is the list of its bytes and a pointer an offset
into it. The functions do no bounds checking; an access beyond the buffer is undefined behaviour,
and a function that comes to one returns `none`.
-/

namespace XmSigma

namespace Serialization

/-! ### Big-endian loads -/

/-- `load_be16`. -/
def loadBe16 (buf : List UInt8) (p : ℕ) : Option UInt16 := do
  let p0 ← buf[p]?
  let p1 ← buf[p + 1]?
  return (p0.toUInt16 <<< 8) ||| p1.toUInt16

/-- `load_be32`. -/
def loadBe32 (buf : List UInt8) (p : ℕ) : Option UInt32 := do
  let p0 ← buf[p]?
  let p1 ← buf[p + 1]?
  let p2 ← buf[p + 2]?
  let p3 ← buf[p + 3]?
  return (p0.toUInt32 <<< 24) ||| (p1.toUInt32 <<< 16) ||| (p2.toUInt32 <<< 8) ||| p3.toUInt32

/-! ### Little-endian loads -/

/-- `load_le16`. -/
def loadLe16 (buf : List UInt8) (p : ℕ) : Option UInt16 := do
  let p1 ← buf[p + 1]?
  let p0 ← buf[p]?
  return (p1.toUInt16 <<< 8) ||| p0.toUInt16

/-- `load_le32`. -/
def loadLe32 (buf : List UInt8) (p : ℕ) : Option UInt32 := do
  let p3 ← buf[p + 3]?
  let p2 ← buf[p + 2]?
  let p1 ← buf[p + 1]?
  let p0 ← buf[p]?
  return (p3.toUInt32 <<< 24) ||| (p2.toUInt32 <<< 16) ||| (p1.toUInt32 <<< 8) ||| p0.toUInt32

/-! ### Signed loads -/

/-- `load_be16s`. -/
def loadBe16s (buf : List UInt8) (p : ℕ) : Option Int16 := (loadBe16 buf p).map UInt16.toInt16

/-- `load_be32s`. -/
def loadBe32s (buf : List UInt8) (p : ℕ) : Option Int32 := (loadBe32 buf p).map UInt32.toInt32

/-- `load_le16s`. -/
def loadLe16s (buf : List UInt8) (p : ℕ) : Option Int16 := (loadLe16 buf p).map UInt16.toInt16

/-- `load_le32s`. -/
def loadLe32s (buf : List UInt8) (p : ℕ) : Option Int32 := (loadLe32 buf p).map UInt32.toInt32

/-! ### Stores -/

/-- `p[i] = b`. -/
def put (buf : List UInt8) (i : ℕ) (b : UInt8) : Option (List UInt8) :=
  if i < buf.length then some (buf.set i b) else none

/-- `store_be16`. -/
def storeBe16 (buf : List UInt8) (p : ℕ) (v : UInt16) : Option (List UInt8) := do
  let buf ← put buf p (v >>> 8).toUInt8
  put buf (p + 1) v.toUInt8

/-- `store_be32`. -/
def storeBe32 (buf : List UInt8) (p : ℕ) (v : UInt32) : Option (List UInt8) := do
  let buf ← put buf p (v >>> 24).toUInt8
  let buf ← put buf (p + 1) (v >>> 16).toUInt8
  let buf ← put buf (p + 2) (v >>> 8).toUInt8
  put buf (p + 3) v.toUInt8

/-- `store_le16`. -/
def storeLe16 (buf : List UInt8) (p : ℕ) (v : UInt16) : Option (List UInt8) := do
  let buf ← put buf p v.toUInt8
  put buf (p + 1) (v >>> 8).toUInt8

/-- `store_le32`. -/
def storeLe32 (buf : List UInt8) (p : ℕ) (v : UInt32) : Option (List UInt8) := do
  let buf ← put buf p v.toUInt8
  let buf ← put buf (p + 1) (v >>> 8).toUInt8
  let buf ← put buf (p + 2) (v >>> 16).toUInt8
  put buf (p + 3) (v >>> 24).toUInt8

/-! ### Words as bytes -/

theorem toBitVec_be16 (b0 b1 : UInt8) :
    ((b0.toUInt16 <<< 8) ||| b1.toUInt16).toBitVec = b0.toBitVec ++ b1.toBitVec := by
  refine BitVec.eq_of_getLsbD_eq fun i hi => ?_
  simp
  grind

theorem toBitVec_be32 (b0 b1 b2 b3 : UInt8) :
    ((b0.toUInt32 <<< 24) ||| (b1.toUInt32 <<< 16) ||| (b2.toUInt32 <<< 8) |||
      b3.toUInt32).toBitVec = b0.toBitVec ++ b1.toBitVec ++ b2.toBitVec ++ b3.toBitVec := by
  refine BitVec.eq_of_getLsbD_eq fun i hi => ?_
  simp
  grind

/-- A 16-bit word is its two bytes. -/
theorem be16_bytes (v : UInt16) :
    ((v >>> 8).toUInt8.toUInt16 <<< 8) ||| v.toUInt8.toUInt16 = v := by
  refine UInt16.toBitVec_inj.mp ?_
  rw [toBitVec_be16]
  refine BitVec.eq_of_getLsbD_eq fun i hi => ?_
  simp
  grind

/-- A 32-bit word is its four bytes. -/
theorem be32_bytes (v : UInt32) :
    ((v >>> 24).toUInt8.toUInt32 <<< 24) ||| ((v >>> 16).toUInt8.toUInt32 <<< 16) |||
      ((v >>> 8).toUInt8.toUInt32 <<< 8) ||| v.toUInt8.toUInt32 = v := by
  refine UInt32.toBitVec_inj.mp ?_
  rw [toBitVec_be32]
  refine BitVec.eq_of_getLsbD_eq fun i hi => ?_
  simp
  grind

/-- The bytes of a 16-bit word made of two. -/
theorem bytes_be16 {b0 b1 : UInt8} {v : UInt16} (hv : v.toBitVec = b0.toBitVec ++ b1.toBitVec) :
    (v >>> 8).toUInt8 = b0 ∧ v.toUInt8 = b1 := by
  refine ⟨?_, ?_⟩ <;>
    refine UInt8.toBitVec_inj.mp (BitVec.eq_of_getLsbD_eq fun i hi => ?_) <;> simp [hv] <;> grind

/-- The bytes of a 32-bit word made of four. -/
theorem bytes_be32 {b0 b1 b2 b3 : UInt8} {v : UInt32}
    (hv : v.toBitVec = b0.toBitVec ++ b1.toBitVec ++ b2.toBitVec ++ b3.toBitVec) :
    (v >>> 24).toUInt8 = b0 ∧ (v >>> 16).toUInt8 = b1 ∧ (v >>> 8).toUInt8 = b2 ∧
      v.toUInt8 = b3 := by
  refine ⟨?_, ?_, ?_, ?_⟩ <;>
    refine UInt8.toBitVec_inj.mp (BitVec.eq_of_getLsbD_eq fun i hi => ?_) <;> simp [hv] <;> grind

end Serialization

end XmSigma
