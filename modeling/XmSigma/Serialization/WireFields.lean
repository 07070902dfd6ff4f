import Mathlib.Data.Int.Notation
import XmSigma.Lib.Packing
import XmSigma.Serialization.ByteOrder

/-!
# Wire fields

A frame is a sequence of fields, each a 16- or 32-bit word in one of the two byte orders, stored
one after another. The loads and stores of `byte_order.hpp` follow two codes, one for each width,
and their reversals; so frames of any fields can be stored and loaded again, and a field loaded in
the opposite order has its bytes reversed.

## Main definitions

* `Tag`: the width and byte order of a field
* `access`: the loads and stores by tag
* `Holds`: the fields that are in a buffer

## Main results

* `access_follows`: the loads and stores follow the codes
* `fields_round_trip`: what that says of frames
-/

namespace XmSigma

namespace Serialization

open Packing Packing.Access

/-! ### Fields by tag -/

/-- The widths that there are loads and stores for. -/
inductive Width
  | w16
  | w32

/-- The byte orders. -/
inductive Endian
  | big
  | little

/-- The width and byte order of a field. -/
structure Tag where
  width : Width
  endian : Endian

/-- The words of a width. -/
def Width.Word : Width → Type
  | .w16 => UInt16
  | .w32 => UInt32

/-- How many bytes they take. -/
def Width.size : Width → ℕ
  | .w16 => 2
  | .w32 => 4

/-- The values of a field. -/
abbrev Tag.Word (t : Tag) : Type := t.width.Word

/-- The other byte order. -/
def Endian.opposite : Endian → Endian
  | .big => .little
  | .little => .big

/-- The same width in the opposite byte order. -/
def Tag.opposite (t : Tag) : Tag := ⟨t.width, t.endian.opposite⟩

/-- The load and the store that match a tag. -/
def access : Access Tag.Word UInt8 where
  size t := t.width.size
  load
    | ⟨.w16, .big⟩ => loadBe16
    | ⟨.w16, .little⟩ => loadLe16
    | ⟨.w32, .big⟩ => loadBe32
    | ⟨.w32, .little⟩ => loadLe32
  store
    | ⟨.w16, .big⟩ => storeBe16
    | ⟨.w16, .little⟩ => storeLe16
    | ⟨.w32, .big⟩ => storeBe32
    | ⟨.w32, .little⟩ => storeLe32

/-- The signed load that matches a tag. -/
def loadSigned : Tag → List UInt8 → ℕ → Option ℤ
  | ⟨.w16, .big⟩, buf, p => (loadBe16s buf p).map Int16.toInt
  | ⟨.w16, .little⟩, buf, p => (loadLe16s buf p).map Int16.toInt
  | ⟨.w32, .big⟩, buf, p => (loadBe32s buf p).map Int32.toInt
  | ⟨.w32, .little⟩, buf, p => (loadLe32s buf p).map Int32.toInt

/-- The signed value of the bits of a word, in two's complement. -/
def Width.signed : (w : Width) → w.Word → ℤ
  | .w16, v => (UInt16.toBitVec v).toInt
  | .w32, v => (UInt32.toBitVec v).toInt

/-! ### Codes -/

/-- The bytes of a 16-bit word, highest first. -/
def code16 : Code UInt16 UInt8 where
  size := 2
  encode v := [(v >>> 8).toUInt8, v.toUInt8]
  decode
    | [b0, b1] => (b0.toUInt16 <<< 8) ||| b1.toUInt16
    | _ => 0
  length_encode _ := rfl
  decode_encode v := be16_bytes v
  encode_decode bs h := by
    obtain ⟨b0, b1, rfl⟩ := List.length_eq_two.mp h
    obtain ⟨h0, h1⟩ := bytes_be16 (toBitVec_be16 b0 b1)
    exact congrArg₂ (fun x y => [x, y]) h0 h1

/-- The bytes of a 32-bit word, highest first. -/
def code32 : Code UInt32 UInt8 where
  size := 4
  encode v := [(v >>> 24).toUInt8, (v >>> 16).toUInt8, (v >>> 8).toUInt8, v.toUInt8]
  decode
    | [b0, b1, b2, b3] =>
      (b0.toUInt32 <<< 24) ||| (b1.toUInt32 <<< 16) ||| (b2.toUInt32 <<< 8) ||| b3.toUInt32
    | _ => 0
  length_encode _ := rfl
  decode_encode v := be32_bytes v
  encode_decode bs h := by
    obtain ⟨b0, b1, b2, b3, rfl⟩ := List.length_eq_four.mp h
    obtain ⟨h0, h1, h2, h3⟩ := bytes_be32 (toBitVec_be32 b0 b1 b2 b3)
    simp only [h0, h1, h2, h3]

/-- The bytes of a word, highest first. -/
def Width.code : (w : Width) → Code w.Word UInt8
  | .w16 => code16
  | .w32 => code32

/-- The bytes of a word in the order of a field. -/
def Tag.code (t : Tag) : Code t.Word UInt8 :=
  match t.endian with
  | .big => t.width.code
  | .little => t.width.code.reverse

/-- The word with its bytes in the opposite order. -/
def Width.reverseBytes (w : Width) (v : w.Word) : w.Word :=
  w.code.decode (w.code.encode v).reverse

example : Width.reverseBytes .w32 (0x12345678 : UInt32) = (0x78563412 : UInt32) := rfl

/-- The bytes of the opposite field are the reversed ones. -/
theorem Tag.decode_opposite (t : Tag) (v : t.Word) :
    t.opposite.code.decode (t.code.encode v) = t.width.reverseBytes v := by
  obtain ⟨w, e⟩ := t
  cases e with
  | big => rfl
  | little =>
    change w.code.decode (w.code.encode v).reverse = _
    rfl

/-! ### The stores write their own bytes -/

/-- A byte is put behind those already put. -/
theorem put_splice (buf : List UInt8) (p : ℕ) (bs : List UInt8) (b : UInt8)
    (h : p + bs.length < buf.length) :
    put (splice buf p bs) (p + bs.length) b = some (splice buf p (bs ++ [b])) := by
  have hlen : (splice buf p bs).length = buf.length := length_splice (by omega)
  have hset : (splice buf p bs).set (p + bs.length) b =
      splice (splice buf p bs) (p + bs.length) [b] := by
    rw [List.set_eq_take_append_cons_drop, if_pos (by omega)]
    exact (List.append_assoc _ [b] _).symm
  have hroom : p + (bs ++ [b]).length ≤ buf.length := by
    rw [List.length_append, List.length_singleton]
    omega
  rw [put, if_pos (by omega), hset, splice_splice hroom]

section
variable {buf : List UInt8} {p : ℕ}

theorem store_two {b0 b1 : UInt8} (h : p + 2 ≤ buf.length) :
    ((put buf p b0).bind fun buf => put buf (p + 1) b1) = some (splice buf p [b0, b1]) := by
  have h0 := put_splice buf p [] b0 (by simp; omega)
  have h1 := put_splice buf p [b0] b1 (by simp; omega)
  rw [splice_nil] at h0
  exact (congrArg (·.bind fun buf => put buf (p + 1) b1) h0).trans h1

theorem store_four {b0 b1 b2 b3 : UInt8} (h : p + 4 ≤ buf.length) :
    ((put buf p b0).bind fun buf => (put buf (p + 1) b1).bind fun buf =>
      (put buf (p + 2) b2).bind fun buf => put buf (p + 3) b3) =
        some (splice buf p [b0, b1, b2, b3]) := by
  have h0 := put_splice buf p [] b0 (by simp; omega)
  have h1 := put_splice buf p [b0] b1 (by simp; omega)
  have h2 := put_splice buf p [b0, b1] b2 (by simp; omega)
  have h3 := put_splice buf p [b0, b1, b2] b3 (by simp; omega)
  rw [splice_nil] at h0
  simp only [List.length_nil, List.length_cons, Nat.zero_add, Nat.add_zero, List.nil_append,
    List.cons_append] at h0 h1 h2 h3
  rw [h0, Option.bind_some, h1, Option.bind_some, h2, Option.bind_some, h3]

end

/-! ### The loads read their own bytes -/

section
variable {buf : List UInt8} {p : ℕ}

theorem slice_two (h : p + 2 ≤ buf.length) : ∃ b0 b1, slice buf p 2 = [b0, b1] ∧
    buf[p]? = some b0 ∧ buf[p + 1]? = some b1 := by
  obtain ⟨b0, b1, hs⟩ := List.length_eq_two.mp (length_slice h)
  have hget : ∀ k < 2, buf[p + k]? = [b0, b1][k]? := fun k hk => by
    rw [← hs, getElem?_slice buf p hk]
  exact ⟨b0, b1, hs, hget 0 (by decide), hget 1 (by decide)⟩

theorem slice_four (h : p + 4 ≤ buf.length) : ∃ b0 b1 b2 b3, slice buf p 4 = [b0, b1, b2, b3] ∧
    buf[p]? = some b0 ∧ buf[p + 1]? = some b1 ∧ buf[p + 2]? = some b2 ∧ buf[p + 3]? = some b3 := by
  obtain ⟨b0, b1, b2, b3, hs⟩ := List.length_eq_four.mp (length_slice h)
  have hget : ∀ k < 4, buf[p + k]? = [b0, b1, b2, b3][k]? := fun k hk => by
    rw [← hs, getElem?_slice buf p hk]
  exact ⟨b0, b1, b2, b3, hs, hget 0 (by decide), hget 1 (by decide), hget 2 (by decide),
    hget 3 (by decide)⟩

end

/-- **The loads and stores follow the codes.** -/
theorem access_follows : access.Follows Tag.code where
  size_eq t := by
    obtain ⟨w, e⟩ := t
    cases w <;> cases e <;> rfl
  load_eq t buf p h := by
    obtain ⟨w, e⟩ := t
    cases w with
    | w16 =>
      obtain ⟨b0, b1, hs, h0, h1⟩ := slice_two h
      have hslice : slice buf p (access.size ⟨.w16, e⟩) = [b0, b1] := hs
      rw [hslice]
      cases e with
      | big =>
        have hload : loadBe16 buf p = some ((b0.toUInt16 <<< 8) ||| b1.toUInt16) := by
          simp [loadBe16, h0, h1]
        exact hload
      | little =>
        have hload : loadLe16 buf p = some ((b1.toUInt16 <<< 8) ||| b0.toUInt16) := by
          simp [loadLe16, h0, h1]
        exact hload
    | w32 =>
      obtain ⟨b0, b1, b2, b3, hs, h0, h1, h2, h3⟩ := slice_four h
      have hslice : slice buf p (access.size ⟨.w32, e⟩) = [b0, b1, b2, b3] := hs
      rw [hslice]
      cases e with
      | big =>
        have hload : loadBe32 buf p = some ((b0.toUInt32 <<< 24) ||| (b1.toUInt32 <<< 16) |||
            (b2.toUInt32 <<< 8) ||| b3.toUInt32) := by
          simp [loadBe32, h0, h1, h2, h3]
        exact hload
      | little =>
        have hload : loadLe32 buf p = some ((b3.toUInt32 <<< 24) ||| (b2.toUInt32 <<< 16) |||
            (b1.toUInt32 <<< 8) ||| b0.toUInt32) := by
          simp [loadLe32, h0, h1, h2, h3]
        exact hload
  store_eq t buf p v h := by
    obtain ⟨w, e⟩ := t
    cases w with
    | w16 => cases e <;> exact store_two h
    | w32 => cases e <;> exact store_four h

/-- The signed loads read the same bits. -/
theorem loadSigned_eq (t : Tag) (buf : List UInt8) (p : ℕ) :
    loadSigned t buf p = (access.load t buf p).map t.width.signed := by
  obtain ⟨w, e⟩ := t
  cases w <;> cases e <;> exact Option.map_map ..

/-! ### Frames -/

/-- Each of the fields is in the buffer, at its own offset: the load that matches it returns its
value, the signed load the same bits in two's complement, and the load in the opposite order the
value with its bytes reversed. -/
def Holds (buf : List UInt8) (p : ℕ) (fields : List (Packing.Field Tag.Word)) : Prop :=
  ∀ before t v after, fields = before ++ ⟨t, v⟩ :: after →
    access.load t buf (p + access.total (before.map Sigma.fst)) = some v ∧
    loadSigned t buf (p + access.total (before.map Sigma.fst)) = some (t.width.signed v) ∧
    access.load t.opposite buf (p + access.total (before.map Sigma.fst)) =
      some (t.width.reverseBytes v)

section
variable {buf : List UInt8} {p : ℕ} {fields : List (Packing.Field Tag.Word)}

theorem holds_of_slice (hroom : p + access.total (fields.map Sigma.fst) ≤ buf.length)
    (hunits : slice buf p (access.total (fields.map Sigma.fst)) = encodeAll Tag.code fields) :
    Holds buf p fields := by
  intro before t v after hsplit
  have hroom' : p + access.total (before.map Sigma.fst) + access.size t ≤ buf.length := by
    rw [hsplit, List.map_append, total_append, List.map_cons, total_cons] at hroom
    dsimp only at hroom
    omega
  have hunits' := access_follows.slice_field hunits hsplit
  have hload : access.load t buf (p + access.total (before.map Sigma.fst)) = some v := by
    rw [access_follows.load_eq t hroom', hunits', t.code.decode_encode]
  refine ⟨hload, ?_, ?_⟩
  · rw [loadSigned_eq, hload, Option.map_some]
  · have hopposite := access_follows.load_eq t.opposite hroom'
    rw [hopposite]
    exact congrArg some ((congrArg t.opposite.code.decode hunits').trans (t.decode_opposite v))

end

/-- **Frames of any fields** can be stored and loaded again, and loaded and stored again. The
stores write nothing outside, and each field is then loaded at its own offset. -/
theorem fields_round_trip {tags : List Tag} {buf : List UInt8} {p : ℕ}
    (hroom : p + access.total tags ≤ buf.length) :
    (∀ fields : List (Packing.Field Tag.Word), fields.map Sigma.fst = tags →
      ∃ buf', access.storeAll fields buf p = some buf' ∧ buf'.length = buf.length ∧
        (∀ i, i < p ∨ p + access.total tags ≤ i → buf'[i]? = buf[i]?) ∧
        access.loadAll tags buf' p = some fields ∧ Holds buf' p fields) ∧
    ∃ fields, access.loadAll tags buf p = some fields ∧ fields.map Sigma.fst = tags ∧
      Holds buf p fields ∧ access.storeAll fields buf p = some buf ∧
      ∀ (buf' : List UInt8) (p' : ℕ), p' + access.total tags ≤ buf'.length →
        ∃ buf'', access.storeAll fields buf' p' = some buf'' ∧
          slice buf'' p' (access.total tags) = slice buf p (access.total tags) := by
  constructor
  · rintro fields rfl
    have hlen := access_follows.length_encodeAll fields
    have hsame := length_splice (hlen ▸ hroom : p + (encodeAll Tag.code fields).length ≤ buf.length)
    have hunits : slice (splice buf p (encodeAll Tag.code fields)) p
        (access.total (fields.map Sigma.fst)) = encodeAll Tag.code fields := by
      rw [← hlen, slice_splice (by omega)]
    refine ⟨_, access_follows.storeAll_eq hroom, hsame, fun i hi => ?_, ?_, ?_⟩
    · exact getElem?_splice (by omega) (by omega)
    · exact access_follows.loadAll_of_slice (by omega) hunits
    · exact holds_of_slice (by omega) hunits
  · obtain ⟨fields, hload, rfl, hunits⟩ := access_follows.loadAll_eq hroom
    refine ⟨fields, hload, rfl, holds_of_slice hroom hunits.symm, ?_, fun buf' p' hroom' => ?_⟩
    · rw [access_follows.storeAll_eq hroom, hunits, splice_slice hroom]
    · refine ⟨_, access_follows.storeAll_eq hroom', ?_⟩
      rw [← hunits, ← access_follows.length_encodeAll, slice_splice (by omega)]

/-- A big-endian field and a little-endian one behind it. -/
def mixed : List (Packing.Field Tag.Word) :=
  [⟨⟨.w16, .big⟩, (258 : UInt16)⟩, ⟨⟨.w16, .little⟩, (65534 : UInt16)⟩]

/-- They are stored between two other bytes; the second is loaded as it is, signed, and in the
opposite order. Loading the fields of four bytes and storing them gives the bytes back. -/
theorem fields_round_trip_small :
    (∃ buf, access.storeAll mixed [9, 0, 0, 0, 0, 9] 1 = some buf ∧
      access.load ⟨.w16, .little⟩ buf 3 = some (65534 : UInt16) ∧
      loadSigned ⟨.w16, .little⟩ buf 3 = some (-2) ∧
      access.load ⟨.w16, .big⟩ buf 3 = some (65279 : UInt16)) ∧
    ∃ fields, access.loadAll (mixed.map Sigma.fst) [1, 2, 3, 4] 0 = some fields ∧
      access.storeAll fields [1, 2, 3, 4] 0 = some [1, 2, 3, 4] := by
  have hroom : 1 + access.total (mixed.map Sigma.fst) ≤ [(9 : UInt8), 0, 0, 0, 0, 9].length := by
    decide
  have hroom' : 0 + access.total (mixed.map Sigma.fst) ≤ [(1 : UInt8), 2, 3, 4].length := by decide
  obtain ⟨buf, hstore, -, -, -, hholds⟩ := (fields_round_trip hroom).1 mixed rfl
  obtain ⟨-, fields, hload, -, -, hback, -⟩ := fields_round_trip hroom'
  exact ⟨⟨buf, hstore, hholds [⟨⟨.w16, .big⟩, (258 : UInt16)⟩] _ _ [] rfl⟩, fields, hload, hback⟩

end Serialization

end XmSigma
