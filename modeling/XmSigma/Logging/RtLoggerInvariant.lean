import XmSigma.Logging.RtLogger

/-!
# The invariant of `RtLogger`

`head_` and `tail_` are followed by the numbers of records published and of slots released: the
two words are these numbers modulo `2 ^ 64`, and the numbers never drift apart by more than the
capacity. From there on nothing depends on the words wrapping.

The slots between the two numbers hold the records published there; the producer may only be
writing to the slot just above them, and only while it is free; the drain thread may only be
reading the slot just at the lower end.

## Main results

* `Inv.of_run`: the invariant holds in every state of every run
* `Inv.full_iff`: the full test of `Log` compares the two numbers
-/

namespace XmSigma

namespace RtLogger

variable {z : Pow2Size} {t : History} {s s' : State} {e : Event}

/-- What the local variables of the producer are worth. -/
def Log.Ok (z : Pow2Size) (t : History) (ring : ℕ → Record) : Log → Prop
  | .loadTail _ head => head = .ofNat t.published.length
  | .assign c head todo =>
    head = .ofNat t.published.length ∧ t.published.length < t.released + z.card ∧
      ∀ f ∉ todo, (ring (t.published.length % z.card)).Holds c f
  | _ => True

/-- What the local variables of the drain thread are worth. -/
def Drain.Ok (t : History) : Drain → Prop
  | .loadHead tail | .loadRunning tail => tail = .ofNat t.released
  | .read tail v =>
    tail = .ofNat t.released ∧ ∃ c, t.published[t.released]? = some c ∧ v.Sees c
  | .storeTail tail => tail = .ofNat t.released ∧ t.released < t.published.length
  | _ => True

/-- The slots of the published and unreleased records hold them. -/
def Filled (z : Pow2Size) (t : History) (ring : ℕ → Record) : Prop :=
  ∀ q c, t.released ≤ q → t.published[q]? = some c → ∀ f, (ring (q % z.card)).Holds c f

/-- A call is in progress. -/
def Log.active : Log → ℕ
  | .idle => 0
  | _ => 1

/-- What holds in every state of every run, `t` being the history of the run. -/
structure Inv (z : Pow2Size) (t : History) (s : State) : Prop where
  head_eq : s.shared.head_ = .ofNat t.published.length
  tail_eq : s.shared.tail_ = .ofNat t.released
  dropped_eq : s.shared.dropped_ = .ofNat t.dropped.length
  released_le : t.released ≤ t.published.length
  published_le : t.published.length ≤ t.released + z.card
  filled : Filled z t s.shared.ring_
  log_ok : s.log.Ok z t s.shared.ring_
  drain_ok : s.drain.Ok t
  forwarded_eq :
    t.forwarded = (t.published.take (t.released + s.drain.pending)).map Call.sinkRecord
  calls_eq : t.calls.length =
    t.suppressed.length + t.dropped.length + t.published.length + s.log.active

/-! ### Consequences -/

/-- The full test compares the numbers behind the two indices. -/
theorem Inv.full_iff (h : Inv z t s) :
    z.size ≤ UInt64.ofNat t.published.length - s.shared.tail_ ↔
      t.released + z.card ≤ t.published.length := by
  have hle := h.released_le
  have hub := h.published_le
  have hcard := z.card_le
  rw [h.tail_eq, UInt64.le_iff_toNat_le, toNat_ofNat_sub hle (by omega)]
  change z.card ≤ _ ↔ _
  omega

/-- The ring looks empty exactly when every published record is released. -/
theorem Inv.empty_iff (h : Inv z t s) :
    s.shared.tail_ = s.shared.head_ ↔ t.released = t.published.length := by
  have hub := h.published_le
  have hcard := z.card_le
  rw [h.tail_eq, h.head_eq, ofNat_inj_of_le h.released_le (by omega)]

theorem Inv.pending_le (h : Inv z t s) : t.released + s.drain.pending ≤ t.published.length := by
  have hle := h.released_le
  have hok := h.drain_ok
  cases hd : s.drain with
  | storeTail tail =>
    rw [hd] at hok
    exact hok.2
  | _ => exact hle

/-! ### Steps of the producer -/

/-- An assignment to the slot above the published ones does not touch those. -/
theorem Filled.update {ring : ℕ → Record} {r : Record} (h : Filled z t ring)
    (hlt : t.published.length < t.released + z.card) :
    Filled z t (Function.update ring (t.published.length % z.card) r) := by
  intro q c hq hc f
  obtain ⟨hlen, -⟩ := List.getElem?_eq_some_iff.mp hc
  have hne : q % z.card ≠ t.published.length % z.card := fun heq =>
    hlen.ne (z.slot_inj hq (by omega) (by omega) hlt heq)
  rw [Function.update_of_ne hne]
  exact h q c hq hc f

/-- Publishing adds the slot the producer has filled. -/
theorem Filled.publish {ring : ℕ → Record} {c : Call} (h : Filled z t ring)
    (hc : ∀ f, (ring (t.published.length % z.card)).Holds c f) :
    Filled z (t.note (.publish c)) ring := by
  intro q c' hq hc' f
  rcases Nat.lt_or_ge q t.published.length with hlt | hge
  · exact h q c' hq (by rwa [History.note, List.getElem?_append_left hlt] at hc') f
  · obtain ⟨hlen, hget⟩ := List.getElem?_eq_some_iff.mp hc'
    simp only [History.note, List.length_append, List.length_singleton] at hlen
    obtain rfl : q = t.published.length := by omega
    obtain rfl : c = c' := by simpa [History.note] using hget
    exact hc f

/-- Publishing does not disturb the drain thread. -/
theorem Drain.Ok.publish {d : Drain} {c : Call} (h : d.Ok t) : d.Ok (t.note (.publish c)) := by
  cases d with
  | read tail v =>
    obtain ⟨htail, c', hc', hv⟩ := h
    obtain ⟨hlen, -⟩ := List.getElem?_eq_some_iff.mp hc'
    exact ⟨htail, c', by rwa [History.note, List.getElem?_append_left hlen], hv⟩
  | storeTail tail =>
    exact ⟨h.1, by simp only [History.note, List.length_append]; exact Nat.lt_add_right 1 h.2⟩
  | _ => exact h

/-- The store of `head_`. -/
theorem Inv.publish {c : Call} {head : UInt64} (h : Inv z t s) (hl : s.log = .assign c head []) :
    Inv z (t.note (.publish c))
      { s with shared := { s.shared with head_ := head + 1 }, log := .idle } := by
  have hok := h.log_ok
  have hcalls := h.calls_eq
  simp only [hl, Log.Ok, Log.active] at hok hcalls
  obtain ⟨hhead, hlt, hdone⟩ := hok
  exact
    { head_eq := by simp [History.note, hhead]
      tail_eq := h.tail_eq
      dropped_eq := h.dropped_eq
      released_le := h.released_le.trans (by simp [History.note])
      published_le := by simp only [History.note, List.length_append, List.length_singleton]; omega
      filled := h.filled.publish fun f => hdone f List.not_mem_nil
      log_ok := trivial
      drain_ok := h.drain_ok.publish
      forwarded_eq := by
        simp only [History.note, List.take_append_of_le_length h.pending_le]
        exact h.forwarded_eq
      calls_eq := by
        simp only [History.note, Log.active, List.length_append, List.length_singleton]
        omega }

/-- One assignment to the record. -/
theorem Inv.assign {c : Call} {head : UInt64} {f : Field} {todo : List Field} (h : Inv z t s)
    (hl : s.log = .assign c head (f :: todo)) :
    Inv z t { s with
      shared := { s.shared with
        ring_ := Function.update s.shared.ring_ (z.slot head)
          ((s.shared.ring_ (z.slot head)).assign c f) }
      log := .assign c head todo } := by
  have hok := h.log_ok
  have hcalls := h.calls_eq
  simp only [hl, Log.Ok, Log.active] at hok hcalls
  obtain ⟨rfl, hlt, hdone⟩ := hok
  simp only [z.slot_ofNat]
  refine { h with filled := h.filled.update hlt, log_ok := ⟨rfl, hlt, fun g hg => ?_⟩,
                  calls_eq := hcalls }
  simp only [Function.update_self]
  by_cases hgf : g = f
  · subst hgf
    exact Record.assign_holds ..
  · exact (hdone g (by simp [hgf, hg])).assign_of_ne hgf

theorem Inv.log_step {m : Shared} {p : Log} (h : Inv z t s)
    (hs : s.log.step z s.shared = some (m, p, e)) :
    Inv z (t.note e) { s with shared := m, log := p } := by
  have hok := h.log_ok
  have hcalls := h.calls_eq
  generalize hl : s.log = p₀ at hs
  rw [hl] at hok hcalls
  cases LogMove.of_step hs with
  | suppress _ =>
    simp only [Log.active] at hcalls
    exact { h with
      log_ok := trivial
      calls_eq := by
        simp only [History.note, Log.active, List.length_append, List.length_singleton]
        omega }
  | loadHead => exact { h with log_ok := h.head_eq, calls_eq := hcalls }
  | room hroom =>
    cases hok
    have hlt : t.published.length < t.released + z.card :=
      Nat.not_le.mp fun hle => hroom (h.full_iff.mpr hle)
    exact { h with
      log_ok := ⟨rfl, hlt, fun f hf => absurd (by cases f <;> decide) hf⟩
      calls_eq := hcalls }
  | bumpDropped =>
    simp only [Log.active] at hcalls
    exact { h with
      dropped_eq := by simp [History.note, h.dropped_eq]
      log_ok := trivial
      calls_eq := by
        simp only [History.note, Log.active, List.length_append, List.length_singleton]
        omega }
  | assign => exact h.assign hl
  | publish => exact h.publish hl
  | _ => exact { h with log_ok := trivial, calls_eq := hcalls }

/-! ### Steps of the drain thread -/

/-- Handing the record to the sink. -/
theorem Inv.forward {tail : UInt64} {v : View} {x : SinkRecord} (h : Inv z t s)
    (hd : s.drain = .read tail v) (hx : v.forward (s.shared.ring_ (z.slot tail)) = some x) :
    Inv z (t.note (.forward x)) { s with drain := .storeTail tail } := by
  have hok := h.drain_ok
  have hfwd := h.forwarded_eq
  simp only [hd, Drain.Ok, Drain.pending] at hok hfwd
  obtain ⟨rfl, c, hc, hv⟩ := hok
  obtain ⟨hlen, -⟩ := List.getElem?_eq_some_iff.mp hc
  have hx : x = c.sinkRecord := by
    rw [z.slot_ofNat] at hx
    exact hv.forward_eq (h.filled _ _ le_rfl hc) hx
  exact { h with
    filled := h.filled
    log_ok := h.log_ok
    drain_ok := ⟨rfl, hlen⟩
    forwarded_eq := by
      simp [History.note, Drain.pending, hfwd, hx, List.take_add_one, hc] }

/-- The store of `tail_`. -/
theorem Inv.release {tail : UInt64} (h : Inv z t s) (hd : s.drain = .storeTail tail) :
    Inv z (t.note .release)
      { s with shared := { s.shared with tail_ := tail + 1 }, drain := .loadTail } := by
  have hok := h.drain_ok
  have hfwd := h.forwarded_eq
  have hlog := h.log_ok
  simp only [hd, Drain.Ok, Drain.pending] at hok hfwd
  obtain ⟨rfl, hlt⟩ := hok
  exact { h with
    tail_eq := by simp [History.note]
    released_le := hlt
    published_le := h.published_le.trans (by simp only [History.note]; omega)
    filled := fun q c hq => h.filled q c (Nat.le_of_succ_le hq)
    log_ok := by
      cases hl : s.log with
      | assign c head todo =>
        simp only [hl, Log.Ok] at hlog ⊢
        exact ⟨hlog.1, hlog.2.1.trans (by simp only [History.note]; omega), hlog.2.2⟩
      | _ => rw [hl] at hlog; exact hlog
    drain_ok := trivial
    forwarded_eq := hfwd }

theorem Inv.drain_step {m : Shared} {p : Drain} {f : Field} (h : Inv z t s)
    (hs : s.drain.step z s.shared f = some (m, p, e)) :
    Inv z (t.note e) { s with shared := m, drain := p } := by
  have hok := h.drain_ok
  have hfwd := h.forwarded_eq
  generalize hd : s.drain = p₀ at hs
  rw [hd] at hok hfwd
  cases DrainMove.of_step hs with
  | loadTail => exact { h with drain_ok := h.tail_eq, forwarded_eq := hfwd }
  | empty _ => exact { h with drain_ok := hok, forwarded_eq := hfwd }
  | found hne =>
    have hlt : t.released < t.published.length := by
      refine h.released_le.lt_of_ne fun heq => hne ?_
      rw [hok, heq, h.head_eq]
    exact { h with
      drain_ok := ⟨hok, _, List.getElem?_eq_getElem hlt, View.sees_empty _⟩
      forwarded_eq := hfwd }
  | read f hv' =>
    obtain ⟨rfl, c, hc, hv⟩ := hok
    rw [z.slot_ofNat] at hv'
    exact { h with
      drain_ok := ⟨rfl, c, hc, hv.read (h.filled _ _ le_rfl hc) hv'⟩
      forwarded_eq := hfwd }
  | forward hx => exact h.forward hd hx
  | storeTail => exact h.release hd
  | _ => exact { h with drain_ok := trivial, forwarded_eq := hfwd }

/-! ### Steps and runs -/

theorem Inv.initial (raw : ℕ → Vector UInt8 kMaxMsgLen) (level : LogLevel) :
    Inv z {} (RtLogger.initial raw level) where
  head_eq := rfl
  tail_eq := rfl
  dropped_eq := rfl
  released_le := le_rfl
  published_le := Nat.zero_le _
  filled := fun q c _ hc => by simp at hc
  log_ok := trivial
  drain_ok := trivial
  forwarded_eq := rfl
  calls_eq := rfl

theorem Inv.step (h : Inv z t s) (hs : (machine z).Step s e s') : Inv z (t.note e) s' := by
  cases Move.of_step hs with
  | call c hl =>
    have hcalls := h.calls_eq
    simp only [hl, Log.active] at hcalls
    exact { h with
      log_ok := trivial
      calls_eq := by
        simp only [History.note, Log.active, List.length_append, List.length_singleton]
        omega }
  | log hp => exact h.log_step hp
  | drain f hp => exact h.drain_step hp
  | _ => exact { h with }

/-- **The invariant holds in every state of every run**, whatever the schedule and however often
the 64-bit counters wrap. -/
theorem Inv.of_run {tr : List Event} (h : (machine z).Run tr s) : Inv z (history tr) s := by
  refine h.rule (I := fun tr s => Inv z (history tr) s) ?_ fun hi hs => ?_
  · rintro s ⟨raw, level, rfl⟩
    exact Inv.initial raw level
  · rw [history_snoc]
    exact hi.step hs

end RtLogger

end XmSigma
