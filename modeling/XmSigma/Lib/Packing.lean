import Mathlib.Algebra.Order.Ring.Nat
import Mathlib.Data.List.Basic
import Mathlib.Data.List.TakeDrop

/-!
# Packing fields into a buffer

Fields of different kinds are stored one after another in a buffer, each as a fixed number of
units that depends on its kind only. What is needed of the single store and load is that they
overwrite and read their own part of the buffer with a fixed-width code; then a whole sequence of
stores overwrites one part, and the loads get back from it what was stored.

## Main definitions

* `Packing.splice`, `Packing.slice`: overwriting and reading a part of a buffer
* `Packing.Code`: a fixed-width code
* `Packing.Access`: loads and stores, and when they follow codes
* `Packing.Access.storeAll`, `Packing.Access.loadAll`: one field after another

## Main results

* `storeAll_eq`, `loadAll_eq`: the stores are one splice, the loads one slice
* `loadAll_of_slice`: where the units of fields are, the fields are loaded
* `slice_field`: the units of a single field
-/

namespace XmSigma

namespace Packing

variable {β : Type*} {buf bs cs : List β} {p n m : ℕ}

/-! ### Parts of a buffer -/

/-- Overwrite the part of a buffer that begins at `p`. -/
def splice (buf : List β) (p : ℕ) (bs : List β) : List β :=
  buf.take p ++ bs ++ buf.drop (p + bs.length)

/-- The part of a buffer that begins at `p` and has length `n`. -/
def slice (buf : List β) (p n : ℕ) : List β := (buf.drop p).take n

theorem length_slice (h : p + n ≤ buf.length) : (slice buf p n).length = n := by
  rw [slice, List.length_take, List.length_drop]
  omega

theorem slice_add (buf : List β) (p m n : ℕ) :
    slice buf p (m + n) = slice buf p m ++ slice buf (p + m) n := by
  rw [slice, slice, slice, List.take_add, List.drop_drop]

@[simp] theorem splice_nil (buf : List β) (p : ℕ) : splice buf p [] = buf := by simp [splice]

theorem length_splice (h : p + bs.length ≤ buf.length) :
    (splice buf p bs).length = buf.length := by
  simp only [splice, List.length_append, List.length_take, List.length_drop]
  omega

/-- What lies outside is left alone. -/
theorem getElem?_splice (h : p + bs.length ≤ buf.length) {i : ℕ}
    (hi : i < p ∨ p + bs.length ≤ i) : (splice buf p bs)[i]? = buf[i]? := by
  have hp : (buf.take p).length = p := List.length_take_of_le (by omega)
  rcases hi with hlt | hge
  · rw [splice, List.append_assoc, List.getElem?_append_left (by omega), List.getElem?_take,
      if_pos hlt]
  · rw [splice, List.getElem?_append_right (by rw [List.length_append, hp]; exact hge),
      List.length_append, hp, List.getElem?_drop]
    congr 1
    omega

/-- What lies inside is what was written. -/
theorem slice_splice (h : p ≤ buf.length) : slice (splice buf p bs) p bs.length = bs := by
  have hp : (buf.take p).length = p := List.length_take_of_le h
  rw [slice, splice, List.append_assoc, List.drop_left' hp, List.take_left]

/-- A part of a part. -/
theorem slice_slice {k : ℕ} (h : m + n ≤ k) : slice (slice buf p k) m n = slice buf (p + m) n := by
  rw [slice, slice, slice, List.drop_take, List.take_take, List.drop_drop,
    Nat.min_eq_left (by omega)]

theorem getElem?_slice (buf : List β) (p : ℕ) {k : ℕ} (hk : k < n) :
    (slice buf p n)[k]? = buf[p + k]? := by
  rw [slice, List.getElem?_take, if_pos hk, List.getElem?_drop]

theorem splice_slice (h : p + n ≤ buf.length) : splice buf p (slice buf p n) = buf := by
  rw [splice, length_slice h, slice, ← List.drop_drop, List.append_assoc, List.take_append_drop,
    List.take_append_drop]

/-- Overwriting two adjacent parts is overwriting both at once. -/
theorem splice_splice (h : p + (bs ++ cs).length ≤ buf.length) :
    splice (splice buf p bs) (p + bs.length) cs = splice buf p (bs ++ cs) := by
  rw [List.length_append] at h
  have hp : (buf.take p ++ bs).length = p + bs.length := by
    rw [List.length_append, List.length_take_of_le (by omega)]
  have hrest : (buf.take p ++ bs ++ buf.drop (p + bs.length)).drop (p + bs.length + cs.length) =
      buf.drop (p + (bs.length + cs.length)) := by
    rw [← List.drop_drop, List.drop_left' hp, List.drop_drop, Nat.add_assoc]
  rw [splice, splice, splice, List.take_left' hp, hrest, List.length_append]
  simp only [List.append_assoc]

/-! ### Codes -/

/-- A code of fixed width. -/
structure Code (α β : Type*) where
  size : ℕ
  encode : α → List β
  decode : List β → α
  length_encode : ∀ a, (encode a).length = size
  decode_encode : ∀ a, decode (encode a) = a
  encode_decode : ∀ bs, bs.length = size → encode (decode bs) = bs

/-- The code that writes its units in the opposite order. -/
def Code.reverse {α : Type*} (c : Code α β) : Code α β where
  size := c.size
  encode a := (c.encode a).reverse
  decode bs := c.decode bs.reverse
  length_encode a := by rw [List.length_reverse, c.length_encode]
  decode_encode a := by rw [List.reverse_reverse, c.decode_encode]
  encode_decode bs h := by
    rw [c.encode_decode _ (by rwa [List.length_reverse]), List.reverse_reverse]

/-! ### Fields one after another -/

section
variable {ι : Type*} {α : ι → Type*}

/-- A field: its kind and its value. -/
abbrev Field (α : ι → Type*) := Σ i, α i

/-- Loads and stores of fields; they may fail. -/
structure Access (α : ι → Type*) (β : Type*) where
  size : ι → ℕ
  load : ∀ i, List β → ℕ → Option (α i)
  store : ∀ i, List β → ℕ → α i → Option (List β)

namespace Access

variable (A : Access α β)

/-- The number of units that fields of given kinds take. -/
def total (kinds : List ι) : ℕ := (kinds.map A.size).sum

/-- Store fields one after another, from `p` on. -/
def storeAll : List (Field α) → List β → ℕ → Option (List β)
  | [], buf, _ => some buf
  | ⟨i, a⟩ :: fields, buf, p =>
    (A.store i buf p a).bind fun buf => storeAll fields buf (p + A.size i)

/-- Load fields of given kinds one after another, from `p` on. -/
def loadAll : List ι → List β → ℕ → Option (List (Field α))
  | [], _, _ => some []
  | i :: kinds, buf, p =>
    (A.load i buf p).bind fun a => (loadAll kinds buf (p + A.size i)).map (⟨i, a⟩ :: ·)

/-- The loads and stores follow codes of the sizes given. -/
structure Follows (code : ∀ i, Code (α i) β) : Prop where
  size_eq : ∀ i, (code i).size = A.size i
  load_eq : ∀ i {buf : List β} {p : ℕ}, p + A.size i ≤ buf.length →
    A.load i buf p = some ((code i).decode (slice buf p (A.size i)))
  store_eq : ∀ i {buf : List β} {p : ℕ} (a : α i), p + A.size i ≤ buf.length →
    A.store i buf p a = some (splice buf p ((code i).encode a))

/-- The units of fields, one after another. -/
def encodeAll (code : ∀ i, Code (α i) β) (fields : List (Field α)) : List β :=
  fields.flatMap fun f => (code f.1).encode f.2

variable {A} {code : ∀ i, Code (α i) β} {fields : List (Field α)} {kinds : List ι}

theorem encodeAll_cons (i : ι) (a : α i) (fields : List (Field α)) :
    encodeAll code (⟨i, a⟩ :: fields) = (code i).encode a ++ encodeAll code fields :=
  List.flatMap_cons

theorem total_cons (i : ι) (kinds : List ι) : A.total (i :: kinds) = A.size i + A.total kinds := by
  rw [total, total, List.map_cons, List.sum_cons]

theorem total_append (kinds kinds' : List ι) :
    A.total (kinds ++ kinds') = A.total kinds + A.total kinds' := by
  rw [total, total, total, List.map_append, List.sum_append]

namespace Follows

theorem length_encode (h : A.Follows code) {i : ι} (a : α i) :
    ((code i).encode a).length = A.size i := by
  rw [(code i).length_encode, h.size_eq]

theorem length_encodeAll (h : A.Follows code) (fields : List (Field α)) :
    (encodeAll code fields).length = A.total (fields.map Sigma.fst) := by
  induction fields with
  | nil => rfl
  | cons f fields ih =>
    rw [List.map_cons, total_cons, ← ih, ← h.length_encode f.2, encodeAll_cons,
      List.length_append]

/-- **The stores are one splice.** -/
theorem storeAll_eq (h : A.Follows code)
    (hroom : p + A.total (fields.map Sigma.fst) ≤ buf.length) :
    A.storeAll fields buf p = some (splice buf p (encodeAll code fields)) := by
  induction fields generalizing buf p with
  | nil => simp [storeAll, encodeAll]
  | cons f fields ih =>
    obtain ⟨i, a⟩ := f
    rw [List.map_cons, total_cons] at hroom
    dsimp only at hroom
    have hlen := h.length_encode a
    have hall := h.length_encodeAll fields
    have hstore := h.store_eq i a (show p + A.size i ≤ buf.length by omega)
    have hrest : p + A.size i + A.total (fields.map Sigma.fst) ≤
        (splice buf p ((code i).encode a)).length := by
      rw [length_splice (by omega)]
      omega
    rw [storeAll, hstore, Option.bind_some, ih hrest, ← hlen,
      splice_splice (by rw [List.length_append]; omega)]
    rfl

/-- **The loads are one slice.** What they return are the fields whose units are there. -/
theorem loadAll_eq (h : A.Follows code) (hroom : p + A.total kinds ≤ buf.length) :
    ∃ fields, A.loadAll kinds buf p = some fields ∧ fields.map Sigma.fst = kinds ∧
      encodeAll code fields = slice buf p (A.total kinds) := by
  induction kinds generalizing p with
  | nil => exact ⟨[], rfl, rfl, by simp [encodeAll, slice, total]⟩
  | cons i kinds ih =>
    rw [total_cons] at hroom ⊢
    have hload := h.load_eq i (show p + A.size i ≤ buf.length by omega)
    obtain ⟨fields, hfields, hkinds, hunits⟩ := ih (p := p + A.size i) (by omega)
    have hlen : (slice buf p (A.size i)).length = (code i).size := by
      rw [length_slice (by omega), h.size_eq]
    refine ⟨⟨i, (code i).decode (slice buf p (A.size i))⟩ :: fields, ?_, ?_, ?_⟩
    · rw [loadAll, hload, Option.bind_some, hfields]
      rfl
    · rw [List.map_cons, hkinds]
    · rw [encodeAll_cons, (code i).encode_decode _ hlen, hunits, slice_add]

/-- Fields of given kinds are told apart by their units. -/
theorem encodeAll_inj (h : A.Follows code) {fields' : List (Field α)}
    (hkinds : fields.map Sigma.fst = fields'.map Sigma.fst)
    (heq : encodeAll code fields = encodeAll code fields') : fields = fields' := by
  induction fields generalizing fields' with
  | nil => exact (List.map_eq_nil_iff.mp hkinds.symm).symm
  | cons f fields ih =>
    cases fields' with
    | nil => cases hkinds
    | cons f' fields' =>
      obtain ⟨i, a⟩ := f
      obtain ⟨i', a'⟩ := f'
      obtain ⟨rfl, hrest⟩ := List.cons.inj hkinds
      have hlen : ((code i).encode a).length = ((code i).encode a').length := by
        rw [h.length_encode, h.length_encode]
      rw [encodeAll_cons, encodeAll_cons] at heq
      obtain ⟨ha, hunits⟩ := List.append_inj heq hlen
      have haa : a = a' := by rw [← (code i).decode_encode a, ha, (code i).decode_encode]
      rw [haa, ih hrest hunits]

/-- Where the units of fields are, the fields are loaded. -/
theorem loadAll_of_slice (h : A.Follows code)
    (hroom : p + A.total (fields.map Sigma.fst) ≤ buf.length)
    (hunits : slice buf p (A.total (fields.map Sigma.fst)) = encodeAll code fields) :
    A.loadAll (fields.map Sigma.fst) buf p = some fields := by
  obtain ⟨fields', hload, hkinds, hunits'⟩ := h.loadAll_eq hroom
  rw [hload, h.encodeAll_inj hkinds (hunits'.trans hunits)]

/-- Where the units of fields are, those of a single field are at its own place. -/
theorem slice_field (h : A.Follows code)
    (hunits : slice buf p (A.total (fields.map Sigma.fst)) = encodeAll code fields)
    {before after : List (Field α)} {i : ι} {a : α i}
    (hsplit : fields = before ++ ⟨i, a⟩ :: after) :
    slice buf (p + A.total (before.map Sigma.fst)) (A.size i) = (code i).encode a := by
  have htotal : A.total (fields.map Sigma.fst) =
      A.total (before.map Sigma.fst) + (A.size i + A.total (after.map Sigma.fst)) := by
    rw [hsplit, List.map_append, total_append, List.map_cons, total_cons]
  have hall : encodeAll code fields =
      encodeAll code before ++ ((code i).encode a ++ encodeAll code after) := by
    rw [hsplit, ← encodeAll_cons, encodeAll, List.flatMap_append]
    rfl
  rw [← slice_slice (k := A.total (fields.map Sigma.fst)) (by omega), hunits, hall, slice,
    ← h.length_encodeAll, List.drop_left, ← h.length_encode a, List.take_left]

end Follows

end Access

end

end Packing

end XmSigma
