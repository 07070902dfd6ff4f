import XmSigma.Lib.Collisions
import XmSigma.Serialization.CrcErrors
import XmSigma.Serialization.WireFields

/-!
# What the checks do not detect

Each of the three checks takes every value once as its own number of bytes varies, wherever in the
data they are: so exactly one value stored there gives the data a wanted check, and of the errors
one in 65536, or in 256, goes unnoticed.

How many bits such an error must have is another matter. Two frames of up to 4095 bytes with one
`crc16_xmodem` differ in at least four bits, and in no more where they have three bytes or more; in
longer frames two bits are enough. For `crc8_maxim` the bounds are fifteen bytes and two. Under
`checksum_inverted_sum` two bits are always enough.

## Main results

* `exists_unique_store`: one store makes any check
* `card_undetected`: how many errors go unnoticed
* `hamming_distance`: in how few bits frames with one check differ
-/

namespace XmSigma

namespace Serialization

open BitString Packing Packing.Access

/-! ### Patches -/

theorem crc16Xmodem_patching : Patching crc16Xmodem 2 := by
  refine crc16Xmodem_computes.patching rfl ?_
  rw [Nat.card_eq_fintype_card, ← FinEnum.card_eq_fintypeCard]
  exact le_rfl

theorem crc8Maxim_patching : Patching crc8Maxim 1 := by
  refine crc8Maxim_computes.patching rfl ?_
  rw [Nat.card_eq_fintype_card, ← FinEnum.card_eq_fintypeCard]
  exact le_rfl

/-- The sum of bytes. -/
def sum (data : List UInt8) : UInt8 := data.foldl (fun sum d => sum + d) 0

theorem checksumInvertedSum_eq (data : List UInt8) : checksumInvertedSum data = ~~~sum data := rfl

theorem foldl_add (data : List UInt8) (a : UInt8) :
    data.foldl (fun sum d => sum + d) a = a + sum data := by
  induction data generalizing a with
  | nil => simp [sum]
  | cons b data ih =>
    rw [sum, List.foldl_cons, List.foldl_cons, ih, ih (0 + b)]
    grind

theorem sum_append (data e : List UInt8) : sum (data ++ e) = sum data + sum e := by
  rw [sum, List.foldl_append, foldl_add]
  rfl

theorem sum_cons (b : UInt8) (data : List UInt8) : sum (b :: data) = b + sum data := by
  rw [sum, List.foldl_cons, foldl_add]
  grind

theorem checksumInvertedSum_patching : Patching checksumInvertedSum 1 := by
  intro p s v
  have hsum (b : UInt8) : checksumInvertedSum (p ++ [b] ++ s) = v ↔
      b = ~~~v - sum p - sum s := by
    rw [checksumInvertedSum_eq, sum_append, sum_append, sum_cons]
    simp only [UInt8.not_eq_neg_sub, sum, List.foldl_nil]
    grind
  refine ⟨[~~~v - sum p - sum s], ⟨rfl, (hsum _).mpr rfl⟩, ?_⟩
  rintro w ⟨hw, hv⟩
  obtain ⟨b, rfl⟩ := List.length_eq_one_iff.mp hw
  rw [(hsum b).mp hv]

/-- The value that is stored makes every check once. -/
theorem exists_unique_splice {α σ : Type*} {crc : List UInt8 → σ} {k : ℕ} (h : Patching crc k)
    (code : Code α UInt8) (hsize : code.size = k) (buf : List UInt8) (p : ℕ) (c : σ) :
    ∃! v, crc (splice buf p (code.encode v)) = c := by
  obtain ⟨w, ⟨hw, hc⟩, hunique⟩ := h (buf.take p) (buf.drop (p + k)) c
  have hsplice (v : α) : splice buf p (code.encode v) =
      buf.take p ++ code.encode v ++ buf.drop (p + k) := by
    rw [splice, code.length_encode, hsize]
  refine ⟨code.decode w, ?_, fun v hv => ?_⟩
  · show crc (splice buf p (code.encode (code.decode w))) = c
    rw [hsplice, code.encode_decode w (hw.trans hsize.symm), hc]
  · have hmake : crc (buf.take p ++ code.encode v ++ buf.drop (p + k)) = c := hsplice v ▸ hv
    rw [← hunique _ ⟨(code.length_encode v).trans hsize, hmake⟩, code.decode_encode]

/-- A byte is its own code. -/
def code8 : Code UInt8 UInt8 where
  size := 1
  encode b := [b]
  decode
    | [b] => b
    | _ => 0
  length_encode _ := rfl
  decode_encode _ := rfl
  encode_decode bs h := by
    obtain ⟨b, rfl⟩ := List.length_eq_one_iff.mp h
    rfl

/-- **One store makes any check.** Wherever there is room for two bytes, in either byte order
exactly one value stored there gives the buffer a wanted `crc16_xmodem`, and wherever there is a
byte, exactly one value of it a wanted `crc8_maxim` or `checksum_inverted_sum`. -/
theorem exists_unique_store (buf : List UInt8) (p : ℕ) :
    (p + 2 ≤ buf.length → ∀ c, (∃! v, (storeBe16 buf p v).map crc16Xmodem = some c) ∧
      ∃! v, (storeLe16 buf p v).map crc16Xmodem = some c) ∧
    (p < buf.length → ∀ c, (∃! b, (put buf p b).map crc8Maxim = some c) ∧
      ∃! b, (put buf p b).map checksumInvertedSum = some c) := by
  constructor
  · intro hroom c
    have hstore (e : Endian) (v : UInt16) : access.store ⟨.w16, e⟩ buf p v =
        some (splice buf p ((Tag.code ⟨.w16, e⟩).encode v)) :=
      access_follows.store_eq ⟨.w16, e⟩ v hroom
    have hunique (e : Endian) :
        ∃! v : UInt16, (access.store ⟨.w16, e⟩ buf p v).map crc16Xmodem = some c := by
      simp only [hstore, Option.map_some, Option.some_inj]
      exact exists_unique_splice crc16Xmodem_patching (Tag.code ⟨.w16, e⟩)
        (access_follows.size_eq ⟨.w16, e⟩) buf p c
    exact ⟨hunique .big, hunique .little⟩
  · intro hroom c
    have hput (b : UInt8) : put buf p b = some (splice buf p (code8.encode b)) := by
      have hstore := put_splice buf p [] b hroom
      rwa [splice_nil] at hstore
    have hunique {crc : List UInt8 → UInt8} (h : Patching crc 1) :
        ∃! b, (put buf p b).map crc = some c := by
      simp only [hput, Option.map_some, Option.some_inj]
      exact exists_unique_splice h code8 rfl buf p c
    exact ⟨hunique crc8Maxim_patching, hunique checksumInvertedSum_patching⟩

/-- **How many errors go unnoticed.** Of the error patterns of a frame of at least two bytes, the one
without an error among them, exactly one in 65536 leaves its `crc16_xmodem` as it was; of those of a
frame of at least one byte, exactly one in 256 its `crc8_maxim` or its `checksum_inverted_sum`. -/
theorem card_undetected (n : ℕ) :
    (∀ c : List UInt8, c.length = n + 2 → Nat.card {e : List UInt8 // e.length = n + 2 ∧
      crc16Xmodem (xorBytes c e) = crc16Xmodem c} = 256 ^ n) ∧
    (∀ c : List UInt8, c.length = n + 1 → Nat.card {e : List UInt8 // e.length = n + 1 ∧
      crc8Maxim (xorBytes c e) = crc8Maxim c} = 256 ^ n) ∧
    ∀ c : List UInt8, c.length = n + 1 → Nat.card {e : List UInt8 // e.length = n + 1 ∧
      checksumInvertedSum (xorBytes c e) = checksumInvertedSum c} = 256 ^ n :=
  ⟨fun _ hc => crc16Xmodem_patching.card_errors hc, fun _ hc => crc8Maxim_patching.card_errors hc,
    fun _ hc => checksumInvertedSum_patching.card_errors hc⟩

/-! ### Distances -/

theorem distance_append {c c' e e' : List UInt8} (h : c.length = c'.length) :
    distance (c ++ e) (c' ++ e') = distance c c' + distance e e' := by
  rw [distance, xorBytes, List.zipWith_append h, bytes_append, List.count_append]
  rfl

/-- Leading zeros leave a register that starts at zero as it is. -/
theorem foldl_zeros {σ : Type*} {step : σ → UInt8 → σ} {init : σ} (h : step init 0 = init) (n : ℕ)
    (data : List UInt8) : (List.replicate n 0 ++ data).foldl step init = data.foldl step init := by
  induction n with
  | zero => rfl
  | succ n ih => rw [List.replicate_succ, List.cons_append, List.foldl_cons, h, ih]

/-- A frame of zeros collides with one that ends as the generator does. -/
theorem collision_of_last {σ : Type*} {step : σ → UInt8 → σ} {init : σ} (h : step init 0 = init)
    {e : List UInt8} {n d : ℕ} (hn : e.length ≤ n) (he : e.foldl step init = init)
    (hd : distance (List.replicate e.length 0) e = d) (hpos : d ≠ 0) :
    Collision (List.foldl step init) n d := by
  obtain ⟨m, rfl⟩ := Nat.exists_eq_add_of_le' hn
  set zeros : List UInt8 := List.replicate e.length 0
  have hdist : distance (List.replicate m 0 ++ zeros) (List.replicate m 0 ++ e) = d := by
    rw [distance_append rfl, distance_self, Nat.zero_add, hd]
  have hzeros : zeros.foldl step init = init := by
    have hall := foldl_zeros h e.length []
    rwa [List.append_nil] at hall
  refine ⟨List.replicate m 0 ++ zeros, List.replicate m 0 ++ e, by simp [zeros], by simp,
    fun heq => ?_, ?_, hdist⟩
  · rw [heq, distance_self] at hdist
    exact hpos hdist.symm
  · rw [foldl_zeros h, foldl_zeros h, hzeros, he]

/-- Frames with one sum differ in two bytes. -/
theorem two_le_distance {c c' : List UInt8} (hlen : c.length = c'.length) (hne : c ≠ c')
    (hsum : sum c = sum c') : 2 ≤ distance c c' := by
  induction c generalizing c' with
  | nil => exact absurd (List.eq_nil_of_length_eq_zero hlen.symm).symm hne
  | cons b c ih =>
    cases c' with
    | nil => cases hlen
    | cons b' c' =>
      have hlen' : c.length = c'.length := Nat.succ_inj.mp hlen
      have hsize : [b].length = [b'].length := rfl
      have hsplit : distance (b :: c) (b' :: c') = distance [b] [b'] + distance c c' :=
        distance_append hsize
      rw [sum_cons, sum_cons] at hsum
      by_cases hb : b = b'
      · subst hb
        have htail := ih hlen' (fun h => hne (by rw [h])) (by grind)
        omega
      · have hhead : 0 < distance [b] [b'] := distance_pos rfl (by simpa using hb)
        have htail : 0 < distance c c' := by
          refine distance_pos hlen' ?_
          rintro rfl
          exact hb (by grind)
        omega

theorem sum_eq_of_checksum {c c' : List UInt8}
    (h : checksumInvertedSum c = checksumInvertedSum c') : sum c = sum c' := by
  rw [checksumInvertedSum_eq, checksumInvertedSum_eq] at h
  simpa using h

/-- Two bytes may be exchanged. -/
theorem collision_of_exchange {n : ℕ} (hn : 2 ≤ n) : Collision checksumInvertedSum n 2 := by
  obtain ⟨m, rfl⟩ := Nat.exists_eq_add_of_le' hn
  refine ⟨List.replicate m 0 ++ [0, 1], List.replicate m 0 ++ [1, 0], by simp, by simp, by simp, ?_,
    ?_⟩
  · rw [checksumInvertedSum_eq, checksumInvertedSum_eq, sum_append, sum_append]
    rfl
  · rw [distance_append rfl, distance_self]
    decide

/-- **How far frames with one check are apart.** In frames of up to two bytes there are none under
`crc16_xmodem`; from there on they differ in at least four bits up to 4095 bytes, and in at least
two beyond, and there are some that differ in no more. The same holds under `crc8_maxim` with one
byte and fifteen, and under `checksum_inverted_sum` two bits are always enough. -/
theorem hamming_distance (n : ℕ) :
    (n ≤ 2 → ∀ d, ¬ Collision crc16Xmodem n d) ∧
    (3 ≤ n → IsLeast {d | Collision crc16Xmodem n d} (if n ≤ 4095 then 4 else 2)) ∧
    (n ≤ 1 → ∀ d, ¬ Collision crc8Maxim n d) ∧
    (2 ≤ n → IsLeast {d | Collision crc8Maxim n d} (if n ≤ 15 then 4 else 2)) ∧
    (n ≤ 1 → ∀ d, ¬ Collision checksumInvertedSum n d) ∧
    (2 ≤ n → IsLeast {d | Collision checksumInvertedSum n d} 2) := by
  refine ⟨fun hn d => ?_, fun hn => ?_, fun hn d => ?_, fun hn => ?_, fun hn d => ?_, fun hn => ?_⟩
  · exact crc16Xmodem_computes.not_collision (show 8 * n ≤ 16 by omega)
  · split
    · refine ⟨collision_of_last (e := [0x01, 0x10, 0x21]) (by decide) hn (by decide +kernel)
        (by decide) (by decide), fun d hd => ?_⟩
      refine crc16Xmodem_computes.four_le xmodem_root ?_ hd
      rw [orderOf_xmodem]
      omega
    · refine ⟨crc16Xmodem_computes.collision_of_order ?_ ?_,
        fun d hd => crc16Xmodem_computes.two_le xmodem_root hd⟩ <;> rw [orderOf_xmodem] <;> omega
  · exact crc8Maxim_computes.not_collision (show 8 * n ≤ 8 by omega)
  · split
    · refine ⟨collision_of_last (e := [0x80, 0x8C]) (by decide) hn (by decide +kernel)
        (by decide) (by decide), fun d hd => ?_⟩
      refine crc8Maxim_computes.four_le maxim_root ?_ hd
      rw [orderOf_maxim]
      omega
    · refine ⟨crc8Maxim_computes.collision_of_order ?_ ?_,
        fun d hd => crc8Maxim_computes.two_le maxim_root hd⟩ <;> rw [orderOf_maxim] <;> omega
  · rintro ⟨c, c', hc, hc', hne, heq, rfl⟩
    obtain hzero | hone := Nat.le_one_iff_eq_zero_or_eq_one.mp hn
    · rw [List.eq_nil_of_length_eq_zero (hc.trans hzero)] at hne
      exact hne (List.eq_nil_of_length_eq_zero (hc'.trans hzero)).symm
    · refine hne ((checksumInvertedSum_patching [] [] _).unique ⟨hc.trans hone, rfl⟩
        ⟨hc'.trans hone, ?_⟩)
      simpa using heq.symm
  · refine ⟨collision_of_exchange hn, ?_⟩
    rintro d ⟨c, c', hc, hc', hne, heq, rfl⟩
    exact two_le_distance (hc.trans hc'.symm) hne (sum_eq_of_checksum heq)

end Serialization

end XmSigma
