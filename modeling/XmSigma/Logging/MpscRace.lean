import XmSigma.Logging.MpscCapacity
import XmSigma.Logging.MpscFull

/-!
# The race for a position

A call in its claim loop has read a position from `enqueue_pos_` and loses its round if another
producer claims that position first. It finds out in one of two ways: its exchange fails, or the
sequence of the cell is already ahead of the position. Both prove that the position was taken: no
call looks at a position beyond `enqueue_pos_`, and the sequence of the cell at `enqueue_pos_` is
never ahead of it. This much holds for every capacity; the ring of one cell, for which the
invariant of the ring fails, has an invariant of its own (`OneCell`).

## Main definitions

* `Log.claiming`: the position of a call in its claim loop
* `Log.Round`: what a step in the claim loop can do
* `Race`: what the claim loop relies on

## Main results

* `Race.of_run`: it holds in every state of every run
* `reload_stale`: a call that finds the sequence ahead has lost its position
-/

namespace XmSigma

namespace MpscRtLogger

variable {ι : Type*} {z : Pow2Size} {t : History ι} {s s₁ s' : State ι} {e : Event ι}
  {tr tr₁ : List (Event ι)} {i j : ι} {c : Call} {pos : UInt64} {m m' : Shared} {p p' : Log}

/-! ### Steps in the claim loop -/

/-- The position a call in its claim loop has read. -/
def Log.claiming : Log → Option UInt64
  | .loadSeq _ pos | .exchange _ pos | .reload _ pos => some pos
  | _ => none

/-- What a step of producer `i` in its claim loop can do. -/
inductive Log.Round (z : Pow2Size) (i : ι) (m : Shared) (c : Call) (pos : UInt64) :
    Log → Log → Event ι → Prop
  | free (h : (m.cells_ (z.slot pos)).sequence = pos) :
    Round z i m c pos (.loadSeq c pos) (.exchange c pos) (.log i)
  | full (h : signedDiff (m.cells_ (z.slot pos)).sequence pos < 0) :
    Round z i m c pos (.loadSeq c pos) (.bumpDropped c) (.log i)
  | ahead (hne : (m.cells_ (z.slot pos)).sequence ≠ pos)
    (h : ¬ signedDiff (m.cells_ (z.slot pos)).sequence pos < 0) :
    Round z i m c pos (.loadSeq c pos) (.reload c pos) (.log i)
  | claim (h : m.enqueue_pos_ = pos) :
    Round z i m c pos (.exchange c pos) (.assign c pos assignments) (.claim i c)
  | lost (h : m.enqueue_pos_ ≠ pos) :
    Round z i m c pos (.exchange c pos) (.loadSeq c m.enqueue_pos_) (.retry i)
  | spurious (h : m.enqueue_pos_ = pos) :
    Round z i m c pos (.exchange c pos) (.loadSeq c pos) (.spurious i)
  | reload : Round z i m c pos (.reload c pos) (.loadSeq c m.enqueue_pos_) (.retry i)

theorem Log.round_of_step {spurious : Bool} (hs : p.step z i m spurious = some (m', p', e))
    (hp : p.claiming = some pos) : ∃ c, Log.Round z i m c pos p p' e := by
  cases LogMove.of_step hs <;> cases hp
  case vacant h => exact ⟨_, .free h⟩
  case full _ h => exact ⟨_, .full h⟩
  case ahead hne h => exact ⟨_, .ahead hne h⟩
  case lost h => exact ⟨_, .lost h⟩
  case spurious h => exact ⟨_, .spurious h⟩
  case claim h => exact ⟨_, .claim h⟩
  case reload => exact ⟨_, .reload⟩

/-- How a call gets to a position: it read it just now, or it was there before. -/
theorem Log.claiming_of_step {spurious : Bool} (hs : p.step z i m spurious = some (m', p', e))
    (hp : p'.claiming = some pos) : pos = m.enqueue_pos_ ∨ p.claiming = some pos := by
  cases LogMove.of_step hs with
  | loadPos | lost | reload => exact .inl (Option.some.inj hp).symm
  | vacant | ahead | spurious => exact .inr hp
  | _ => cases hp

/-- A call that reloads has found the sequence ahead of its position. -/
theorem Log.reload_of_step {spurious : Bool}
    (hs : p.step z i m spurious = some (m', .reload c pos, e)) :
    p = .loadSeq c pos ∧ (m.cells_ (z.slot pos)).sequence ≠ pos ∧
      ¬ signedDiff (m.cells_ (z.slot pos)).sequence pos < 0 := by
  cases LogMove.of_step hs with
  | ahead hne h => exact ⟨rfl, hne, h⟩

/-- The producer whose step an event reports. -/
def Event.producer : Event ι → Option ι
  | .call i _ | .suppress i _ | .drop i _ | .claim i _ | .retry i | .spurious i | .publish i _
  | .log i => some i
  | _ => none

theorem Log.producer_of_step {spurious : Bool} (hs : p.step z i m spurious = some (m', p', e)) :
    e.producer = some i := by
  cases LogMove.of_step hs <;> rfl

theorem Drain.producer_of_step {d d' : Drain} {f : Field}
    (hs : d.step z m f = some (m', d', e)) : e.producer = none := by
  cases DrainMove.of_step hs <;> rfl

section
variable [DecidableEq ι]

/-- What a step is to producer `i`: the beginning of a call, a step of its own, or a step of
another thread. -/
theorem step_cases (i : ι) (hs : (machine z).Step s e s') :
    (∃ d, e = .call i d ∧ s.producers i = .idle ∧ s'.producers i = .loadLevel d) ∨
    (∃ spurious m p, (s.producers i).step z i s.shared spurious = some (m, p, e) ∧
      s'.producers i = p) ∨
    (e.producer ≠ some i ∧ s'.producers i = s.producers i) := by
  cases Move.of_step hs with
  | call j d hj =>
    by_cases hji : i = j
    · subst hji
      exact .inl ⟨d, rfl, hj, Function.update_self ..⟩
    · exact .inr (.inr ⟨fun heq => hji (Option.some.inj heq).symm, Function.update_of_ne hji ..⟩)
  | log j spurious hp =>
    by_cases hji : i = j
    · subst hji
      exact .inr (.inl ⟨spurious, _, _, hp, Function.update_self ..⟩)
    · refine .inr (.inr ⟨fun heq => ?_, Function.update_of_ne hji ..⟩)
      rw [Log.producer_of_step hp] at heq
      exact hji (Option.some.inj heq).symm
  | drain f hp =>
    rw [Drain.producer_of_step hp]
    exact .inr (.inr ⟨by simp, rfl⟩)
  | _ => exact .inr (.inr ⟨by simp [Event.producer], rfl⟩)

end

/-! ### What the claim loop relies on -/

/-- No call looks at a position beyond `enqueue_pos_`, and the sequence there is not ahead. -/
structure Race (z : Pow2Size) (t : History ι) (s : State ι) : Prop where
  enqueue_eq : s.shared.enqueue_pos_.toNat = t.claims.length
  claiming_le : ∀ i pos, (s.producers i).claiming = some pos → pos.toNat ≤ t.claims.length
  not_ahead : (s.shared.cell z t.claims.length).sequence.toNat ≤ t.claims.length

/-- In a ring of two cells or more, the invariant of the ring provides it. -/
theorem Inv.race (h : Inv z t s) (h2 : 2 ≤ z.card) : Race z t s where
  enqueue_eq := h.enqueue_eq
  claiming_le i pos hpos := by
    have hok := h.log_ok i
    cases hi : s.producers i with
    | loadSeq c pos' | reload c pos' =>
      rw [hi] at hok hpos
      cases hpos
      exact hok
    | exchange c pos' =>
      rw [hi] at hok hpos
      cases hpos
      exact hok.1
    | _ => rw [hi] at hpos; cases hpos
  not_ahead := by
    rcases h.enqueue_sequence h2 with ⟨-, heq⟩ | ⟨-, hlt⟩
    · exact heq.le
    · exact hlt.le

/-- With the position current, the sequence is not ahead of it. -/
theorem Race.not_reload (h : Race z t s) (hb : CountersBelow z t)
    (hpos : pos.toNat = t.claims.length)
    (hne : (s.shared.cells_ (z.slot pos)).sequence ≠ pos) :
    signedDiff (s.shared.cells_ (z.slot pos)).sequence pos < 0 := by
  have hlt := Inv.claims_lt hb
  have hle : (s.shared.cells_ (z.slot pos)).sequence.toNat ≤ pos.toNat := by
    have hcell := h.not_ahead
    rw [Shared.cell, ← hpos] at hcell
    rwa [z.slot_eq]
  have hneq : (s.shared.cells_ (z.slot pos)).sequence.toNat ≠ pos.toNat :=
    fun heq => hne (UInt64.toNat_inj.mp heq)
  exact (signedDiff_neg_iff_toNat_lt (by omega) (by omega)).mpr (by omega)

/-! ### A ring of one cell -/

/-- What holds in every state of every run of a ring of one cell, `n` positions being claimed: no
party holds, and no sequence shows, anything beyond `enqueue_pos_`. -/
structure OneCell (n : ℕ) (s : State ι) : Prop where
  dequeue_le : s.shared.dequeue_pos_.toNat ≤ n
  claiming_le : ∀ i pos, (s.producers i).claiming = some pos → pos.toNat ≤ n
  holds_lt : ∀ i pos, (s.producers i).holds = some pos → pos.toNat < n
  looking_le : ∀ pos, s.drain = .loadSeq pos → pos.toNat ≤ n
  reading_lt : ∀ pos, s.drain.holds = some pos → pos.toNat < n
  sequence_le : (s.shared.cells_ 0).sequence.toNat ≤ n

/-- A producer comes to hold a cell by claiming its position. -/
theorem Log.holds_of_step {spurious : Bool} (hs : p.step z i m spurious = some (m', p', e))
    (hp : p'.holds = some pos) :
    p.holds = some pos ∨ pos = m.enqueue_pos_ ∧ ∃ c, e = .claim i c := by
  cases LogMove.of_step hs with
  | claim heq =>
    cases hp
    exact .inr ⟨heq.symm, _, rfl⟩
  | assign => exact .inl hp
  | _ => cases hp

/-- What a step of a producer does to the shared members that matter here. -/
theorem Log.Effect.one_cell (hz : z.card = 1) {n : ℕ} (h : Log.Effect z i m p m' p' e)
    (hholds : ∀ pos, p.holds = some pos → pos.toNat < n) (hn : n < 2 ^ 63)
    (hseq : (m.cells_ 0).sequence.toNat ≤ n) :
    m'.dequeue_pos_ = m.dequeue_pos_ ∧ (m'.cells_ 0).sequence.toNat ≤ n := by
  cases h with
  | fill c pos f todo =>
    refine ⟨rfl, ?_⟩
    simpa [slot_of_one hz] using hseq
  | publish c pos =>
    have hlt := hholds pos rfl
    refine ⟨rfl, ?_⟩
    simp only [slot_of_one hz, Function.update_self]
    rw [toNat_add_one (by omega)]
    exact hlt
  | _ => exact ⟨rfl, hseq⟩

/-- The drain thread may always be somewhere where it neither looks at a cell nor holds one. -/
theorem OneCell.away {n : ℕ} {d : Drain} (h : OneCell n s) (hlook : ∀ pos, d ≠ .loadSeq pos)
    (hhold : d.holds = none) : OneCell n { s with drain := d } :=
  { h with
    looking_le := fun pos hpos => absurd hpos (hlook pos)
    reading_lt := fun pos hpos => by rw [hhold] at hpos; cases hpos }

theorem OneCell.drain_step (hz : z.card = 1) {n : ℕ} {d : Drain} {f : Field} (h : OneCell n s)
    (hn : n < 2 ^ 63) (hs : s.drain.step z s.shared f = some (m, d, e)) :
    OneCell n { s with shared := m, drain := d } := by
  have hmask : z.mask + 1 = 1 := by
    rw [z.mask_add_one, ← UInt64.toNat_inj]
    exact hz
  have hreading := h.reading_lt
  have hlooking := h.looking_le
  generalize hd : s.drain = d₀ at hs
  cases DrainMove.of_step hs with
  | loadPos =>
    exact { h with
      looking_le := fun pos hpos => by cases hpos; exact h.dequeue_le
      reading_lt := fun pos hpos => by cases hpos }
  | @found pos hseq =>
    have hle := hlooking pos hd
    rw [slot_of_one hz] at hseq
    have hnext : (pos + 1).toNat ≤ n := hseq ▸ h.sequence_le
    rw [toNat_add_one (by omega)] at hnext
    exact { h with
      looking_le := fun pos' hpos => by cases hpos
      reading_lt := fun pos' hpos => by cases hpos; exact hnext }
  | @read pos =>
    have hlt := hreading pos (by rw [hd]; rfl)
    exact { h with
      looking_le := fun pos' hpos => by cases hpos
      reading_lt := fun pos' hpos => by cases hpos; exact hlt }
  | @forward pos =>
    have hlt := hreading pos (by rw [hd]; rfl)
    exact { h with
      looking_le := fun pos' hpos => by cases hpos
      reading_lt := fun pos' hpos => by cases hpos; exact hlt }
  | @advance pos =>
    have hlt := hreading pos (by rw [hd]; rfl)
    exact { h with
      dequeue_le := by rw [toNat_add_one (by omega)]; exact hlt
      looking_le := fun pos' hpos => by cases hpos
      reading_lt := fun pos' hpos => by cases hpos; exact hlt }
  | @free pos =>
    have hlt := hreading pos (by rw [hd]; rfl)
    have hseq : (pos + z.mask + 1).toNat ≤ n := by
      rw [UInt64.add_assoc, hmask, toNat_add_one (by omega)]
      exact hlt
    exact { h.away (d := .loadPos) (by simp) rfl with
      sequence_le := by simpa [slot_of_one hz] using hseq }
  | _ => exact h.away (by simp) rfl

section
variable [DecidableEq ι]

theorem OneCell.log_step (hz : z.card = 1) {spurious : Bool} (h : OneCell t.claims.length s)
    (hb : CountersBelow z t) (henqueue : s.shared.enqueue_pos_.toNat = t.claims.length)
    (hs : (s.producers i).step z i s.shared spurious = some (m, p, e)) :
    OneCell (t.note e).claims.length
      { s with shared := m, producers := Function.update s.producers i p } := by
  have hle := length_claims_le_note t e
  obtain ⟨hdequeue, hseq⟩ := (Log.effect_of_step hs).one_cell hz (fun pos => h.holds_lt i pos)
    (Inv.claims_lt hb) h.sequence_le
  refine ⟨hdequeue ▸ h.dequeue_le.trans hle, fun j pos hpos => ?_, fun j pos hpos => ?_,
    fun pos hd => (h.looking_le pos hd).trans hle, fun pos hd => (h.reading_lt pos hd).trans_le hle,
    hseq.trans hle⟩
  · by_cases hj : j = i
    · subst hj
      simp only [Function.update_self] at hpos
      rcases Log.claiming_of_step hs hpos with rfl | hold
      · exact henqueue.le.trans hle
      · exact (h.claiming_le j pos hold).trans hle
    · simp only [Function.update_of_ne hj] at hpos
      exact (h.claiming_le j pos hpos).trans hle
  · by_cases hj : j = i
    · subst hj
      simp only [Function.update_self] at hpos
      rcases Log.holds_of_step hs hpos with hold | ⟨rfl, c, rfl⟩
      · exact (h.holds_lt j pos hold).trans_le hle
      · simp only [History.note, List.length_append, List.length_singleton, henqueue]
        omega
    · simp only [Function.update_of_ne hj] at hpos
      exact (h.holds_lt j pos hpos).trans_le hle

theorem OneCell.step (hz : z.card = 1) (h : OneCell t.claims.length s) (hl : Ledger t s)
    (hb : CountersBelow z t) (hs : (machine z).Step s e s') :
    OneCell (t.note e).claims.length s' := by
  have hlt := Inv.claims_lt hb
  have henqueue : s.shared.enqueue_pos_.toNat = t.claims.length := by
    rw [hl.enqueue_eq, toNat_ofNat_of_lt (by omega)]
  cases Move.of_step hs with
  | call i c hi =>
    refine { h with claiming_le := fun j pos hpos => ?_, holds_lt := fun j pos hpos => ?_ }
    · by_cases hj : j = i
      · subst hj
        simp only [Function.update_self] at hpos
        cases hpos
      · simp only [Function.update_of_ne hj] at hpos
        exact h.claiming_le j pos hpos
    · by_cases hj : j = i
      · subst hj
        simp only [Function.update_self] at hpos
        cases hpos
      · simp only [Function.update_of_ne hj] at hpos
        exact h.holds_lt j pos hpos
  | log i spurious hp => exact h.log_step hz hb henqueue hp
  | drain f hp =>
    rw [(Drain.step_frame hp t).1.claims]
    exact h.drain_step hz hlt hp
  | _ => exact { h with }

theorem OneCell.of_run (hz : z.card = 1) (h : (machine z).Run tr s)
    (hb : CountersBelow z (history tr)) : OneCell (history tr).claims.length s := by
  refine h.rule_of (I := fun tr s => CountersBelow z (history tr) →
    OneCell (history tr).claims.length s) (J := fun tr s => Ledger (history tr) s)
    Ledger.of_run ?_ (fun hl hi hs hb => ?_) hb
  · rintro s ⟨raw, level, rfl⟩ -
    exact
      { dequeue_le := le_rfl
        claiming_le := fun i pos hpos => by cases hpos
        holds_lt := fun i pos hpos => by cases hpos
        looking_le := fun pos hpos => by cases hpos
        reading_lt := fun pos hpos => by cases hpos
        sequence_le := le_rfl }
  · rw [history_snoc] at hb ⊢
    exact (hi hb.of_note).step hz hl hb.of_note hs

/-! ### Every capacity -/

/-- **What the claim loop relies on holds in every state of every run**, for every capacity. -/
theorem Race.of_run (h : (machine z).Run tr s) (hb : CountersBelow z (history tr)) :
    Race z (history tr) s := by
  rcases Nat.lt_or_ge z.card 2 with hone | h2
  · have hz : z.card = 1 := by
      have := z.card_pos
      omega
    have hlt := Inv.claims_lt hb
    have hi := OneCell.of_run hz h hb
    exact
      { enqueue_eq := by rw [(Ledger.of_run h).enqueue_eq, toNat_ofNat_of_lt (by omega)]
        claiming_le := hi.claiming_le
        not_ahead := by
          rw [Shared.cell, hz, Nat.mod_one]
          exact hi.sequence_le }
  · exact (Inv.of_run h h2 hb).race h2

/-- A call that finds the sequence ahead of its position has lost it. -/
theorem reload_stale (h : (machine z).Run tr s) (hb : CountersBelow z (history tr))
    (hi : s.producers i = .reload c pos) : pos.toNat < (history tr).claims.length := by
  refine h.rule_of (I := fun tr s => CountersBelow z (history tr) →
      ∀ c pos, s.producers i = .reload c pos → pos.toNat < (history tr).claims.length)
    (J := fun tr s => CountersBelow z (history tr) → Race z (history tr) s) Race.of_run
    ?_ (fun {tr s e s'} hrace ih hs hb c pos hreload => ?_) hb c pos hi
  · rintro s ⟨raw, level, rfl⟩ - c pos hreload
    cases hreload
  · rw [history_snoc] at hb ⊢
    have hle := length_claims_le_note (history tr) e
    rcases step_cases i hs with ⟨d, -, -, hcall⟩ | ⟨spurious, m, p, hp, hp'⟩ | ⟨-, hsame⟩
    · rw [hcall] at hreload
      cases hreload
    · rw [hreload] at hp'
      subst hp'
      obtain ⟨hseq, hne, hahead⟩ := Log.reload_of_step hp
      have hrace := hrace hb.of_note
      have hcurrent := hrace.claiming_le i pos (by rw [hseq]; rfl)
      refine (hcurrent.lt_of_ne fun heq => ?_).trans_le hle
      exact hahead (hrace.not_reload hb.of_note heq hne)
    · exact (ih hb.of_note c pos (hsame ▸ hreload)).trans_le hle

end

end MpscRtLogger

end XmSigma
