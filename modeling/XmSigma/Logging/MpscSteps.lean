import XmSigma.Logging.MpscInvariant

/-!
# Every step of `MpscRtLogger` keeps the invariant

A producer that owns a position changes its cell only, and no other position of the window lives
in that cell, so what the others know stays true (`Inv.write`). The remaining steps move one of
the three numbers behind the ring: a successful exchange the number of claims (`Inv.claim`), the
two stores of the drain thread the other two (`Inv.advance`, `Inv.free`).

## Main results

* `Inv.of_run`: the invariant holds in every state of every run, as long as the counters stay
  below `2 ^ 63`
-/

namespace XmSigma

namespace MpscRtLogger

variable {ι : Type*} {z : Pow2Size} {t : History ι} {m : Shared} {s s' : State ι} {e : Event ι}
  {i : ι} {c : Call} {pos : UInt64} {todo : List Field}

/-! ### Cells -/

theorem cell_update_self (m : Shared) (pos : UInt64) (x : Cell) :
    Shared.cell z { m with cells_ := Function.update m.cells_ (z.slot pos) x } pos.toNat = x := by
  simp only [Shared.cell, z.slot_eq, Function.update_self]

/-- Storing in the cell of one position of a window leaves those of the others alone. -/
theorem cell_update_of_ne {lo q : ℕ} (m : Shared) (x : Cell) (hpos : lo ≤ pos.toNat)
    (hpos' : pos.toNat < lo + z.card) (hq : lo ≤ q) (hq' : q < lo + z.card)
    (hne : q ≠ pos.toNat) :
    Shared.cell z { m with cells_ := Function.update m.cells_ (z.slot pos) x } q =
      m.cell z q := by
  simp only [Shared.cell, z.slot_eq, Function.update_of_ne (slot_ne hpos hpos' hq hq' hne)]

/-- The record at `dequeue_pos_` has been forwarded only if it was published. -/
theorem Inv.pending_le (h : Inv z t s) : t.advanced + s.drain.pending ≤ t.claims.length := by
  have hle := h.advanced_le
  have hok := h.drain_ok
  cases hd : s.drain with
  | advance pos =>
    rw [hd] at hok
    exact hok.2.2
  | _ => exact hle

/-- No position has reached `2 ^ 63`. -/
theorem Inv.claims_lt (hb : CountersBelow z t) : t.claims.length < 2 ^ 63 := by
  have := z.card_pos
  unfold CountersBelow at hb
  omega

/-- A sequence equal to `enqueue_pos_` means that there is room. With a single cell it may also be
that of a published record. -/
theorem Inv.room (h : Inv z t s) (h2 : 2 ≤ z.card)
    (hseq : (s.shared.cell z t.claims.length).sequence.toNat = t.claims.length) :
    t.claims.length < t.freed + z.card := by
  by_contra hfull
  have hn : t.claims.length = t.freed + z.card := by
    have := h.claims_le
    omega
  obtain ⟨w, hlo, hhi, hmod, hcase⟩ := h.sequence_eq t.claims.length
  obtain rfl : w = t.freed := by
    refine z.slot_inj hlo hhi le_rfl (by omega) ?_
    rw [hmod, hn, Nat.add_mod_right]
  rcases hcase with ⟨hv, -⟩ | ⟨hv, -, -⟩ <;> omega

/-- With no producer writing, the sequence at `dequeue_pos_` says whether a record is there. -/
theorem Inv.head_sequence (h : Inv z t s) (h2 : 2 ≤ z.card) (hb : CountersBelow z t)
    (howns : ∀ i, ¬ (s.producers i).owns) (hpos : pos.toNat = t.advanced) :
    (s.shared.cells_ (z.slot pos)).sequence = pos + 1 ↔ t.advanced < t.claims.length := by
  have hcell : s.shared.cells_ (z.slot pos) = s.shared.cell z t.advanced := by
    rw [Shared.cell, z.slot_eq, hpos]
  have hlt := Inv.claims_lt hb
  have hadv := h.advanced_le
  have hfreed := h.freed_eq
  have hnext : (pos + 1).toNat = t.advanced + 1 := by rw [toNat_add_one (by omega), hpos]
  rw [hcell, ← UInt64.toNat_inj, hnext]
  constructor
  · intro hseq
    by_contra hge
    have hunfreed : s.drain.unfreed ≤ 1 := by cases s.drain <;> simp [Drain.unfreed]
    have := h.unclaimed t.advanced (Nat.not_lt.mp hge) (by omega)
    omega
  · intro hclaimed
    refine (h.published t.advanced _ _ h.freed_le (List.getElem?_eq_getElem hclaimed) ?_).1
    rintro ⟨i, c, pos', todo, hi, -⟩
    exact howns i (by rw [hi]; trivial)

/-! ### Steps of a producer -/

section
variable [DecidableEq ι]

/-- A producer whose exchange succeeds becomes the owner of its position. -/
theorem writing_claim {producers : ι → Log} (hold : ¬ (producers i).owns) (q : ℕ) :
    Writing (Function.update producers i (.assign c pos todo)) q ↔
      pos.toNat = q ∨ Writing producers q := by
  constructor
  · rintro ⟨j, c', pos', todo', hj, rfl⟩
    by_cases hji : j = i
    · subst hji
      simp only [Function.update_self, Log.assign.injEq] at hj
      exact .inl (by rw [hj.2.1])
    · rw [Function.update_of_ne hji] at hj
      exact .inr ⟨j, c', pos', todo', hj, rfl⟩
  · rintro (rfl | ⟨j, c', pos', todo', hj, rfl⟩)
    · exact ⟨i, c, pos, todo, Function.update_self .., rfl⟩
    · refine ⟨j, c', pos', todo', ?_, rfl⟩
      rw [Function.update_of_ne, hj]
      rintro rfl
      exact hold (by rw [hj]; trivial)

omit [DecidableEq ι] in
/-- An exchange succeeds only when there is room. -/
theorem Inv.claim_room (h : Inv z t s) (hi : s.producers i = .exchange c pos)
    (hn : pos.toNat = t.claims.length) : t.claims.length < t.freed + z.card := by
  have hok := h.log_ok i
  rw [hi] at hok
  exact hok.2 hn

/-- Then the new owner knows its cell to be free, and the other producers know what they knew. -/
theorem Inv.claim_log_ok (h : Inv z t s) (hi : s.producers i = .exchange c pos)
    (hn : pos.toNat = t.claims.length) (j : ι) :
    (Function.update s.producers i (.assign c pos assignments) j).Ok z (t.note (.claim i c))
      { s.shared with enqueue_pos_ := pos + 1 } j := by
  by_cases hj : j = i
  · subst hj
    have hcell : (s.shared.cell z pos.toNat).sequence = pos := by
      rw [← UInt64.toNat_inj, hn]
      exact h.unclaimed _ le_rfl (h.claim_room hi hn)
    rw [Function.update_self]
    exact ⟨by simpa [History.note, hn] using h.advanced_le, by simp [History.note, hn], hcell,
      fun f hf => absurd (by cases f <;> decide) hf⟩
  · rw [Function.update_of_ne hj]
    exact (h.log_ok j).mono (List.prefix_append _ _) le_rfl fun c' pos' todo' hp =>
      ⟨(h.owner hp).1, rfl⟩

/-- What is published below the new position stays so. -/
theorem Inv.claim_published (h : Inv z t s) (hold : ¬ (s.producers i).owns)
    (hn : pos.toNat = t.claims.length) {q : ℕ} {j : ι} {c' : Call} (hq : t.freed ≤ q)
    (hc : (t.note (.claim i c)).claims[q]? = some (j, c'))
    (hnw : ¬ Writing (Function.update s.producers i (.assign c pos todo)) q) :
    PublishedCell z t s.shared q c' := by
  rw [writing_claim hold, not_or] at hnw
  obtain ⟨hlen, -⟩ := List.getElem?_eq_some_iff.mp hc
  simp only [History.note, List.length_append, List.length_singleton] at hlen
  rw [History.note, List.getElem?_append_left (by omega)] at hc
  exact h.published q j c' hq hc hnw.2

omit [DecidableEq ι] in
/-- A claim is of a later position than any that the drain thread knows of. -/
theorem Drain.Ok.claim {d : Drain} {writing writing' : ℕ → Prop} (h : d.Ok t writing)
    (hw : ∀ q < t.claims.length, writing' q → writing q) (i : ι) (c : Call) :
    d.Ok (t.note (.claim i c)) writing' := by
  cases d with
  | read pos v =>
    obtain ⟨hp, hnw, j, c', hc, hv⟩ := h
    obtain ⟨hlen, -⟩ := List.getElem?_eq_some_iff.mp hc
    exact ⟨hp, mt (hw _ hlen) hnw, j, c', by rwa [History.note, List.getElem?_append_left hlen],
      hv⟩
  | advance pos =>
    obtain ⟨hp, hnw, hlen⟩ := h
    exact ⟨hp, mt (hw _ hlen) hnw, by simp only [History.note, List.length_append]; omega⟩
  | _ => exact h

/-- The exchange succeeds: one more position is claimed. -/
theorem Inv.claim (h : Inv z t s) (hb : CountersBelow z (t.note (.claim i c)))
    (hi : s.producers i = .exchange c pos) (hpos : s.shared.enqueue_pos_ = pos) :
    Inv z (t.note (.claim i c))
      { s with
        shared := { s.shared with enqueue_pos_ := pos + 1 }
        producers := Function.update s.producers i (.assign c pos assignments) } := by
  have hn : pos.toNat = t.claims.length := by rw [← hpos, h.enqueue_eq]
  have hroom := h.claim_room hi hn
  have hadv := h.advanced_le
  have hold : ¬ (s.producers i).owns := by rw [hi]; exact id
  have hlt := Inv.claims_lt hb.of_note
  exact { h with
    enqueue_eq := by
      simp only [History.note, List.length_append, List.length_singleton]
      rw [toNat_add_one (by omega), hn]
    advanced_le := hadv.trans (by simp [History.note])
    claims_le := by
      simp only [History.note, List.length_append, List.length_singleton]
      omega
    unclaimed := fun q hq => h.unclaimed q (by simp [History.note] at hq; omega)
    log_ok := h.claim_log_ok hi hn
    published := fun q j c' hq hc hnw => h.claim_published hold hn hq hc hnw
    drain_ok := h.drain_ok.claim (fun q hq hw => by
      rw [writing_claim hold] at hw
      exact hw.resolve_left (by omega)) i c
    forwarded_eq := by
      simp only [History.note, List.take_append_of_le_length h.pending_le]
      exact h.forwarded_eq }

/-- An owner that keeps its position or lets it go changes nothing for the other positions. -/
theorem Writing.of_write {producers : ι → Log} {p : Log} {q : ℕ}
    (hi : producers i = .assign c pos todo)
    (hp : ∀ c' pos' todo', p = .assign c' pos' todo' → pos' = pos)
    (hq : Writing (Function.update producers i p) q) : Writing producers q := by
  obtain ⟨j, c', pos', todo', hj, rfl⟩ := hq
  by_cases hji : j = i
  · subst hji
    rw [Function.update_self] at hj
    exact ⟨j, c, pos, todo, hi, by rw [hp _ _ _ hj]⟩
  · rw [Function.update_of_ne hji] at hj
    exact ⟨j, c', pos', todo', hj, rfl⟩

theorem Writing.write_of_ne {producers : ι → Log} {p : Log} {q : ℕ}
    (hi : producers i = .assign c pos todo) (hne : q ≠ pos.toNat) (hq : Writing producers q) :
    Writing (Function.update producers i p) q := by
  obtain ⟨j, c', pos', todo', hj, rfl⟩ := hq
  have hji : j ≠ i := by
    rintro rfl
    rw [hi] at hj
    cases hj
    exact hne rfl
  exact ⟨j, c', pos', todo', by rw [Function.update_of_ne hji, hj], rfl⟩

/-- The owner of a position stores in its cell, and keeps the position or lets it go. -/
theorem Inv.write {x : Cell} {p : Log} (h : Inv z t s) (hi : s.producers i = .assign c pos todo)
    (hp : ∀ c' pos' todo', p = .assign c' pos' todo' → pos' = pos)
    (hok : p.Ok z t
      { s.shared with cells_ := Function.update s.shared.cells_ (z.slot pos) x } i)
    (hpub : ¬ p.owns → x.sequence.toNat = pos.toNat + 1 ∧ ∀ f, x.Holds c f) :
    Inv z t
      { s with
        shared := { s.shared with cells_ := Function.update s.shared.cells_ (z.slot pos) x }
        producers := Function.update s.producers i p } := by
  obtain ⟨hlo, hclaimed, hhi⟩ := h.owner_window hi
  have hub := h.claims_le
  have hframe {q : ℕ} (hq : t.freed ≤ q) (hq' : q < t.freed + z.card) (hne : q ≠ pos.toNat) :
      Shared.cell z { s.shared with
        cells_ := Function.update s.shared.cells_ (z.slot pos) x } q = s.shared.cell z q :=
    cell_update_of_ne _ _ hlo hhi hq hq' hne
  refine { h with
    unclaimed := fun q hq hq' => ?_
    log_ok := fun j => ?_
    published := fun q j c' hq hc hnw => ?_
    drain_ok := h.drain_ok.congr fun q hq => hq.of_write hi hp }
  · rw [hframe (by omega) hq' (by omega)]
    exact h.unclaimed q hq hq'
  · by_cases hj : j = i
    · subst hj
      simpa only [Function.update_self] using hok
    · simp only [Function.update_of_ne hj]
      refine (h.log_ok j).mono (List.prefix_refl _) le_rfl fun c' pos' todo' hp' => ?_
      obtain ⟨hlo', -, hhi'⟩ := h.owner_window hp'
      exact ⟨(h.owner hp').1, hframe hlo' hhi' fun heq => hj (h.owner_unique hp' hi heq)⟩
  · obtain ⟨hlen, -⟩ := List.getElem?_eq_some_iff.mp hc
    by_cases hqp : q = pos.toNat
    · subst hqp
      have hfree : ¬ p.owns := fun howns => by
        cases hpe : p with
        | assign c' pos' todo' =>
          exact hnw ⟨i, c', pos', todo', (Function.update_self ..).trans hpe,
            by rw [hp _ _ _ hpe]⟩
        | _ => rw [hpe] at howns; exact howns
      obtain ⟨hseq, hdone⟩ := hpub hfree
      have hget := (h.owner hi).2.1
      obtain rfl : c = c' := by
        rw [hc] at hget
        exact (congrArg Prod.snd (Option.some.inj hget)).symm
      simp only [PublishedCell, cell_update_self]
      exact ⟨hseq, fun _ => hdone⟩
    · simp only [PublishedCell, hframe hq (by omega) hqp]
      exact h.published q j c' hq hc fun hq' => hnw (hq'.write_of_ne hi hqp)

/-- One assignment to the cell. -/
theorem Inv.assign {f : Field} (h : Inv z t s) (hi : s.producers i = .assign c pos (f :: todo)) :
    Inv z t
      { s with
        shared := { s.shared with
          cells_ := Function.update s.shared.cells_ (z.slot pos)
            { s.shared.cells_ (z.slot pos) with
              toRecord := (s.shared.cells_ (z.slot pos)).toRecord.assign c f } }
        producers := Function.update s.producers i (.assign c pos todo) } := by
  obtain ⟨hadv, hget, hseq, hdone⟩ := h.owner hi
  rw [Shared.cell, ← z.slot_eq] at hseq hdone
  refine h.write hi (fun c' pos' todo' hp => by cases hp; rfl) ⟨hadv, hget, ?_, fun g hg => ?_⟩
    fun hfree => absurd trivial hfree
  · rw [cell_update_self]
    exact hseq
  · rw [cell_update_self]
    by_cases hgf : g = f
    · subst hgf
      exact Record.assign_holds ..
    · exact (hdone g (by simp [hgf, hg])).assign_of_ne hgf

/-- The store that publishes the cell. -/
theorem Inv.publish (h : Inv z t s) (hb : CountersBelow z t)
    (hi : s.producers i = .assign c pos []) :
    Inv z (t.note (.publish i c))
      { s with
        shared := { s.shared with
          cells_ := Function.update s.shared.cells_ (z.slot pos)
            { s.shared.cells_ (z.slot pos) with sequence := pos + 1 } }
        producers := Function.update s.producers i .idle } := by
  obtain ⟨-, -, -, hdone⟩ := h.owner hi
  obtain ⟨-, hclaimed, -⟩ := h.owner_window hi
  have hlt := Inv.claims_lt hb
  rw [Shared.cell, ← z.slot_eq] at hdone
  have hidle : Inv z t
      { s with
        shared := { s.shared with
          cells_ := Function.update s.shared.cells_ (z.slot pos)
            { s.shared.cells_ (z.slot pos) with sequence := pos + 1 } }
        producers := Function.update s.producers i .idle } :=
    h.write hi (fun _ _ _ hp => by cases hp) trivial fun _ =>
      ⟨toNat_add_one (by omega), fun f => hdone f List.not_mem_nil⟩
  exact { hidle with }

theorem Inv.log_step {spurious : Bool} {m : Shared} {p : Log} (h : Inv z t s) (h2 : 2 ≤ z.card)
    (hb : CountersBelow z (t.note e))
    (hs : (s.producers i).step z i s.shared spurious = some (m, p, e)) :
    Inv z (t.note e)
      { s with shared := m, producers := Function.update s.producers i p } := by
  have hok := h.log_ok i
  generalize hi : s.producers i = p₀ at hs
  rw [hi] at hok
  have hmove (p : Log) (hold : ¬ p₀.owns) (hnew : ¬ p.owns) (hp : p.Ok z t s.shared i) :=
    h.move p (hi ▸ hold) hnew hp
  cases LogMove.of_step hs with
  | suppress _ | bumpDropped => exact { hmove .idle id id trivial with }
  | pass _ => exact hmove _ id id trivial
  | loadPos | lost _ | reload => exact hmove _ id id h.enqueue_eq.le
  | vacant hseq =>
    rw [z.slot_eq] at hseq
    refine hmove _ id id ⟨hok, fun heq => h.room h2 ?_⟩
    rw [← heq]
    exact congrArg UInt64.toNat hseq
  | full _ _ => exact hmove (.bumpDropped _) id id trivial
  | ahead _ _ => exact hmove (.reload _ _) id id hok
  | spurious _ => exact hmove (.loadSeq _ _) id id hok.1
  | claim heq => exact h.claim hb hi heq
  | assign => exact h.assign hi
  | publish => exact h.publish hb.of_note hi

end

/-! ### Steps of the drain thread -/

/-- The drain thread finds the sequence of a published record. -/
theorem Inv.take (h : Inv z t s) (hb : CountersBelow z t) (hd : s.drain = .loadSeq pos)
    (hdiff : signedDiff (s.shared.cells_ (z.slot pos)).sequence (pos + 1) = 0) :
    Inv z t { s with drain := .read pos {} } := by
  have hok := h.drain_ok
  have hfreed := h.freed_eq
  have hfwd := h.forwarded_eq
  have hadv := h.advanced_le
  have hlt := Inv.claims_lt hb
  simp only [hd, Drain.Ok, Drain.unfreed, Drain.pending] at hok hfreed hfwd
  have hseq : (s.shared.cell z t.advanced).sequence.toNat = t.advanced + 1 := by
    rw [Shared.cell, ← hok, ← z.slot_eq, signedDiff_eq_zero_iff.mp hdiff,
      toNat_add_one (by omega)]
  have hcard := z.card_pos
  have hcase := h.window_sequence (q := t.advanced) h.freed_le (by omega)
  rcases hcase with ⟨hv, -⟩ | ⟨-, hclaimed, hnw⟩
  · omega
  · exact { h with
      freed_eq := hfreed
      drain_ok := ⟨hok, hnw, _, _, List.getElem?_eq_getElem hclaimed, View.sees_empty _⟩
      forwarded_eq := hfwd }

/-- Handing the record to the sink. -/
theorem Inv.forward {v : View} {x : SinkRecord} (h : Inv z t s) (hd : s.drain = .read pos v)
    (hx : v.forward (s.shared.cells_ (z.slot pos)).toRecord = some x) :
    Inv z (t.note (.forward x)) { s with drain := .advance pos } := by
  have hok := h.drain_ok
  have hfreed := h.freed_eq
  have hfwd := h.forwarded_eq
  simp only [hd, Drain.Ok, Drain.unfreed, Drain.pending] at hok hfreed hfwd
  obtain ⟨hpos, hnw, j, c, hc, hv⟩ := hok
  obtain ⟨hlen, -⟩ := List.getElem?_eq_some_iff.mp hc
  obtain rfl : x = c.sinkRecord := by
    rw [z.slot_eq, hpos] at hx
    exact hv.forward_eq ((h.published _ j c h.freed_le hc hnw).2 le_rfl) hx
  exact { h with
    freed_eq := hfreed
    drain_ok := ⟨hpos, hnw, hlen⟩
    forwarded_eq := by simp [History.note, Drain.pending, hfwd, List.take_add_one, hc] }

/-- The store of `dequeue_pos_`. -/
theorem Inv.advance (h : Inv z t s) (hb : CountersBelow z t) (hd : s.drain = .advance pos) :
    Inv z (t.note .advance)
      { s with shared := { s.shared with dequeue_pos_ := pos + 1 }, drain := .free pos } := by
  have hok := h.drain_ok
  have hfreed := h.freed_eq
  have hfwd := h.forwarded_eq
  have hlt := Inv.claims_lt hb
  simp only [hd, Drain.Ok, Drain.unfreed, Drain.pending] at hok hfreed hfwd
  obtain ⟨hpos, hnw, hclaimed⟩ := hok
  exact { h with
    dequeue_eq := by
      rw [toNat_add_one (by omega), hpos]
      rfl
    freed_eq := by simp only [History.note, Drain.unfreed]; omega
    advanced_le := hclaimed
    log_ok := fun j => (h.log_ok j).mono (List.prefix_refl _) le_rfl fun c' pos' todo' hp => by
      have hne : pos'.toNat ≠ t.advanced := fun heq => hnw ⟨j, c', pos', todo', hp, heq⟩
      have := (h.owner hp).1
      exact ⟨by simp only [History.note]; omega, rfl⟩
    published := fun q j c hq hc hnw' =>
      have hq' := h.published q j c hq hc hnw'
      ⟨hq'.1, fun hle => hq'.2 (Nat.le_of_succ_le hle)⟩
    drain_ok := by
      change pos.toNat = t.freed
      omega
    forwarded_eq := hfwd }

/-- What the freeing store stores is the position one lap ahead. -/
theorem Inv.toNat_next_lap (h : Inv z t s) (hb : CountersBelow z t) (hpos : pos.toNat = t.freed) :
    (pos + z.mask + 1).toNat = t.freed + z.card := by
  have hadv := h.advanced_le
  have hfreed := h.freed_le
  unfold CountersBelow at hb
  rw [UInt64.add_assoc, z.mask_add_one, toNat_add_of_lt, hpos]
  · rfl
  · change pos.toNat + z.card < _
    omega

/-- The store that frees the cell: it now belongs to the position one lap ahead. -/
theorem Inv.free (h : Inv z t s) (hb : CountersBelow z t) (hd : s.drain = .free pos) :
    Inv z (t.note .free)
      { s with
        shared := { s.shared with
          cells_ := Function.update s.shared.cells_ (z.slot pos)
            { s.shared.cells_ (z.slot pos) with sequence := pos + z.mask + 1 } }
        drain := .loadPos } := by
  have hok := h.drain_ok
  have hfreed := h.freed_eq
  have hfwd := h.forwarded_eq
  have hadv := h.advanced_le
  have hub := h.claims_le
  have hcard := z.card_pos
  simp only [hd, Drain.Ok, Drain.unfreed, Drain.pending] at hok hfreed hfwd
  have hsize := h.toNat_next_lap hb hok
  have hframe {q : ℕ} (x : Cell) (hq : t.freed < q) (hq' : q < t.freed + z.card) :
      Shared.cell z { s.shared with
        cells_ := Function.update s.shared.cells_ (z.slot pos) x } q = s.shared.cell z q :=
    cell_update_of_ne _ _ hok.ge (by omega) hq.le hq' (by omega)
  exact { h with
    freed_eq := by simp only [History.note, Drain.unfreed]; omega
    claims_le := by simp only [History.note]; omega
    unclaimed := fun q hq hq' => by
      simp only [History.note] at hq hq'
      rcases Nat.lt_or_ge q (t.freed + z.card) with hlt | hge
      · rw [hframe _ (by omega) hlt]
        exact h.unclaimed q hq hlt
      · obtain rfl : q = pos.toNat + z.card := by omega
        simp only [Shared.cell, Nat.add_mod_right, z.slot_eq, Function.update_self]
        omega
    log_ok := fun j => (h.log_ok j).mono (List.prefix_refl _) (Nat.le_succ _)
      fun c' pos' todo' hp => by
        have hle := (h.owner hp).1
        obtain ⟨-, -, hhi⟩ := h.owner_window hp
        exact ⟨hle, hframe _ (by omega) hhi⟩
    published := fun q j c hq hc hnw => by
      obtain ⟨hlen, -⟩ := List.getElem?_eq_some_iff.mp hc
      simp only [PublishedCell, hframe _ hq (Nat.lt_of_lt_of_le hlen hub)]
      exact h.published q j c (Nat.le_of_succ_le hq) hc hnw
    drain_ok := trivial
    forwarded_eq := hfwd }

theorem Inv.drain_step {m : Shared} {p : Drain} {f : Field} (h : Inv z t s)
    (hb : CountersBelow z (t.note e)) (hs : s.drain.step z s.shared f = some (m, p, e)) :
    Inv z (t.note e) { s with shared := m, drain := p } := by
  have hok := h.drain_ok
  have hfreed := h.freed_eq
  have hfwd := h.forwarded_eq
  generalize hd : s.drain = p₀ at hs
  rw [hd] at hok hfreed hfwd
  cases DrainMove.of_step hs with
  | loadPos => exact { h with freed_eq := hfreed, drain_ok := h.dequeue_eq, forwarded_eq := hfwd }
  | found hseq => exact h.take hb.of_note hd (signedDiff_eq_zero_iff.mpr hseq)
  | empty _ => exact { h with freed_eq := hfreed, drain_ok := hok, forwarded_eq := hfwd }
  | read f hv' =>
    obtain ⟨hpos, hnw, j, c, hc, hv⟩ := hok
    rw [z.slot_eq, hpos] at hv'
    exact { h with
      freed_eq := hfreed
      drain_ok := ⟨hpos, hnw, j, c, hc,
        hv.read ((h.published _ j c h.freed_le hc hnw).2 le_rfl) hv'⟩
      forwarded_eq := hfwd }
  | forward hx => exact h.forward hd hx
  | advance => exact h.advance hb.of_note hd
  | free => exact h.free hb.of_note hd
  | _ => exact { h with freed_eq := hfreed, drain_ok := trivial, forwarded_eq := hfwd }

/-! ### Steps and runs -/

theorem Inv.initial (raw : ℕ → Vector UInt8 kMaxMsgLen) (level : LogLevel) :
    Inv z {} (MpscRtLogger.initial raw level : State ι) where
  enqueue_eq := rfl
  dequeue_eq := rfl
  freed_eq := rfl
  advanced_le := le_rfl
  claims_le := Nat.zero_le _
  unclaimed := fun q _ hq => by
    rw [Nat.zero_add] at hq
    have hcard := z.card_le
    simp only [MpscRtLogger.initial, Shared.cell, Nat.mod_eq_of_lt hq]
    exact toNat_ofNat_of_lt (by omega)
  log_ok := fun _ => trivial
  published := fun q i c _ hc => by simp at hc
  drain_ok := trivial
  forwarded_eq := rfl

variable [DecidableEq ι] {tr : List (Event ι)}

theorem Inv.step (h : Inv z t s) (h2 : 2 ≤ z.card) (hb : CountersBelow z (t.note e))
    (hs : (machine z).Step s e s') : Inv z (t.note e) s' := by
  cases Move.of_step hs with
  | call i c hi => exact { h.move (.loadLevel c) (by simp [hi, Log.owns]) id trivial with }
  | log i spurious hp => exact h.log_step h2 hb hp
  | setLevel level => exact { h with log_ok := fun j => (h.log_ok j).congr rfl }
  | drain f hp => exact h.drain_step hb hp
  | stop => exact { h with log_ok := fun j => (h.log_ok j).congr rfl }
  | _ => exact { h with }

/-- **The invariant holds in every state of every run** of a ring of at least two cells, whatever
the schedule and however many producers there are. -/
theorem Inv.of_run (h : (machine z).Run tr s) (h2 : 2 ≤ z.card)
    (hb : CountersBelow z (history tr)) : Inv z (history tr) s := by
  refine h.rule (I := fun tr s => CountersBelow z (history tr) → Inv z (history tr) s) ?_
    (fun hi hs hb => ?_) hb
  · rintro s ⟨raw, level, rfl⟩ -
    exact Inv.initial raw level
  · rw [history_snoc] at hb ⊢
    exact (hi hb.of_note).step h2 hb hs

end MpscRtLogger

end XmSigma
