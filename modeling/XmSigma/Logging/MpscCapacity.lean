import XmSigma.Logging.MpscOwnership
import XmSigma.Logging.MpscShutdown
import XmSigma.Logging.RingCapacity

/-!
# Which capacities `MpscRtLogger` supports

The constructor accepts every `ring_capacity`; 0 and 1 round to a ring of one cell. In such a ring
the sequence of a published record, its position plus one, is also the one that marks the cell free
for the next position, and the ring breaks: a second call claims the cell that the drain thread has
not read, and from then on the drain thread waits for a sequence that has gone by. With two cells
or more it is sound.

## Main results

* `sound_iff_two_cells`: the ring is sound exactly when at least two records were asked for
* `one_cell_unsound`: the ring of one cell is not
-/

namespace XmSigma

namespace MpscRtLogger

variable {ι : Type*} {z : Pow2Size} {t : History ι} {s : State ι} {tr : List (Event ι)}

/-- No call owns a cell, and the drain thread is between two records. -/
def Settled (s : State ι) : Prop := (∀ i, (s.producers i).holds = none) ∧ s.drain.holds = none

theorem Settled.not_owns (h : Settled s) (i : ι) : ¬ (s.producers i).owns := by
  have hi := h.1 i
  cases hp : s.producers i with
  | assign c pos todo => simp [hp, Log.holds] at hi
  | _ => exact id

/-- What a ring must do in every run, with `ι` for the producers. -/
structure Sound (z : Pow2Size) (ι : Type*) [DecidableEq ι] : Prop where
  /-- A claimed cell holds no published record that was not yet forwarded. -/
  keeps_unread : ∀ {tr : List (Event ι)} {s s' : State ι} {i : ι} {c : Call},
    (machine z).Run tr s → CountersBelow z (history (tr ++ [.claim i c])) →
    (machine z).Step s (.claim i c) s' →
    ∀ q, (history tr).forwarded.length ≤ q → q < (history tr).claims.length →
      ¬ Writing s.producers q → q % z.card ≠ z.slot s.shared.enqueue_pos_
  /-- The next check of the drain loop succeeds if there is anything to forward. -/
  never_wedged : ∀ {tr : List (Event ι)} {s : State ι}, (machine z).Run tr s →
    CountersBelow z (history tr) → Settled s →
    s.shared.dequeue_pos_ = s.shared.enqueue_pos_ ∨
      (s.shared.cells_ (z.slot s.shared.dequeue_pos_)).sequence = s.shared.dequeue_pos_ + 1
  /-- `Flush` can finish, without the help of a producer. -/
  flush_finishes : ∀ {tr : List (Event ι)} {s : State ι}, (machine z).Run tr s →
    CountersBelow z (history tr) → Settled s → s.destructor = .notStarted →
    ∃ tr' s', (machine z).Path s tr' s' ∧ s'.flush = .flushSink ∧
      s'.shared.dequeue_pos_ = s.shared.enqueue_pos_ ∧
      s'.shared.enqueue_pos_ = s.shared.enqueue_pos_ ∧ s'.producers = s.producers

/-! ### Two cells or more -/

/-- Where nobody holds a cell, the two positions and the sequence between them tell the same. -/
theorem Inv.settled (h : Inv z t s) (h2 : 2 ≤ z.card) (hb : CountersBelow z t) (hs : Settled s) :
    (s.shared.dequeue_pos_ = s.shared.enqueue_pos_ ↔ t.advanced = t.claims.length) ∧
    ((s.shared.cells_ (z.slot s.shared.dequeue_pos_)).sequence = s.shared.dequeue_pos_ + 1 ↔
      t.advanced < t.claims.length) := by
  refine ⟨?_, h.head_sequence h2 hb hs.not_owns h.dequeue_eq⟩
  rw [← UInt64.toNat_inj, h.dequeue_eq, h.enqueue_eq]

variable [DecidableEq ι]

/-- A claim is a successful exchange on `enqueue_pos_`. -/
theorem claim_eq {s' : State ι} {i : ι} {c : Call} (hs : (machine z).Step s (.claim i c) s') :
    s.producers i = .exchange c s.shared.enqueue_pos_ := by
  cases Move.of_step hs with
  | log j spurious hp =>
    have he := Log.effect_of_step hp
    generalize hj : s.producers j = p₀ at he
    cases he with
    | claim _ pos hpos => rw [hj, hpos]
    | silent hnote =>
      have hclaims := congrArg History.claims (hnote {})
      simp [History.note] at hclaims
  | drain f hp =>
    have hclaims := (Drain.step_frame hp ({} : History ι)).1.claims
    simp [History.note] at hclaims

theorem keeps_unread_of_two {s' : State ι} {i : ι} {c : Call} (h2 : 2 ≤ z.card)
    (h : (machine z).Run tr s) (hb : CountersBelow z (history (tr ++ [.claim i c])))
    (hs : (machine z).Step s (.claim i c) s') {q : ℕ} (hq : (history tr).forwarded.length ≤ q)
    (hclaimed : q < (history tr).claims.length) :
    q % z.card ≠ z.slot s.shared.enqueue_pos_ := by
  have hi := Inv.of_run h h2 hb.of_append
  have hok := hi.log_ok i
  rw [claim_eq hs] at hok
  have hroom := hok.2 hi.enqueue_eq
  have hpending := hi.pending_le
  have hfreed := hi.freed_le
  rw [hi.forwarded_eq, List.length_map, List.length_take] at hq
  rw [z.slot_eq, hi.enqueue_eq]
  intro hmod
  have hlo : (history tr).freed ≤ q := by omega
  have hle : (history tr).freed ≤ (history tr).claims.length := hlo.trans hclaimed.le
  exact hclaimed.ne (z.slot_inj hlo (hclaimed.trans hroom) hle hroom hmod)

/-- From between two records, the drain thread comes to load the sequence of its next cell. -/
theorem Inv.reaches_loadSeq (h : Inv z t s) (hs : Settled s) (hl : s.life.Ok)
    (hd : s.destructor = .notStarted) :
    ∃ n, (machine z).Path s (List.replicate n .drain)
      { s with drain := .loadSeq s.shared.dequeue_pos_ } := by
  have hrunning : s.shared.running_ = true := hl.flag_iff.mpr (congrArg Destructor.owner hd)
  have hloop := hl.looping hrunning
  have hok := h.drain_ok
  have hhold := hs.2
  cases hdr : s.drain with
  | loadPos => exact ⟨1, (step_drain .time hdr rfl).path⟩
  | loadSeq pos =>
    rw [hdr] at hok
    have hpos : s.shared.dequeue_pos_ = pos := by
      rw [← UInt64.toNat_inj, h.dequeue_eq]
      exact hok.symm
    refine ⟨0, ?_⟩
    rw [hpos, ← hdr]
    exact .refl
  | loadRunning pos =>
    exact ⟨2, .cons (step_drain .time hdr (if_pos hrunning)) (step_drain .time rfl rfl).path⟩
  | flushSink | exited => simp [State.life, hdr, Drain.place] at hloop
  | _ => simp [hdr, Drain.holds] at hhold

omit [DecidableEq ι] in
/-- What a round of the drain thread adds to the history. -/
theorem history_round (tr : List (Event ι)) (n : ℕ) (r : Record) :
    history (tr ++ (List.replicate n .drain ++ drainEvents r)) =
      { history tr with
        forwarded := (history tr).forwarded ++ [r.sinkRecord]
        advanced := (history tr).advanced + 1
        freed := (history tr).freed + 1 } := by
  have hdrain : history (tr ++ List.replicate n .drain) = history tr := by
    induction n with
    | zero => simp
    | succ n ih => rw [List.replicate_succ', ← List.append_assoc, history_snoc, ih]; rfl
  rw [← List.append_assoc, ← hdrain, history, List.foldl_append]
  rfl

/-- The drain thread can empty the ring. -/
theorem empties (h2 : 2 ≤ z.card) (n : ℕ) :
    ∀ {tr : List (Event ι)} {s : State ι}, (machine z).Run tr s → CountersBelow z (history tr) →
      Settled s → s.destructor = .notStarted →
      (history tr).claims.length = (history tr).advanced + n →
      ∃ tr' m d, (machine z).Path s tr' { s with shared := m, drain := d } ∧
        m.dequeue_pos_ = s.shared.enqueue_pos_ ∧ m.enqueue_pos_ = s.shared.enqueue_pos_ := by
  induction n with
  | zero =>
    intro tr s h hb hs _ hn
    have hi := Inv.of_run h h2 hb
    exact ⟨[], s.shared, s.drain, .refl, (hi.settled h2 hb hs).1.mpr hn.symm, rfl⟩
  | succ n ih =>
    intro tr s h hb hs hd hn
    have hi := Inv.of_run h h2 hb
    obtain ⟨k, hto⟩ := hi.reaches_loadSeq hs (life_ok h) hd
    have hseq := (hi.settled h2 hb hs).2.mpr (by omega)
    have hround := hto.append (drained_path rfl hseq)
    have hhist := history_round tr k (s.shared.cells_ (z.slot s.shared.dequeue_pos_)).toRecord
    obtain ⟨tr', m, d, hp, hdeq, henq⟩ := ih (h.append hround) (by rw [hhist]; exact hb)
      ⟨hs.1, rfl⟩ hd (by rw [hhist]; simp only; omega)
    exact ⟨_, m, d, hround.append hp, hdeq, henq⟩

/-- A step of a thread in `Flush`. -/
theorem step_flush {p p' : Flush} (hf : s.flush = p) (h : p.step s.shared true = p') :
    (machine z).Step s .flush { s with flush := p' } :=
  ⟨.flush true, by simp [machine, step, hf, h]⟩

/-- A thread in `Flush` gets out of its loop where the two positions are equal. -/
theorem flush_path (heq : s.shared.dequeue_pos_ = s.shared.enqueue_pos_) :
    ∃ tr', (machine z).Path s tr' { s with flush := .flushSink } := by
  have hcompare (s₀ : State ι) (hm : s₀.shared = s.shared) (hf : s₀.flush = .compare) :
      (machine z).Path s₀ [.flush, .flush] { s₀ with flush := .flushSink } :=
    .cons (step_flush hf rfl)
      (step_flush (p := .loadedDequeue s₀.shared.dequeue_pos_) rfl
        (if_neg (by rw [hm, heq]; exact not_not.mpr rfl))).path
  cases hf : s.flush with
  | idle => exact ⟨_, .cons (step_flush hf rfl) (hcompare _ rfl rfl)⟩
  | compare => exact ⟨_, hcompare s rfl hf⟩
  | loadedDequeue dequeue =>
    by_cases hd : dequeue ≠ s.shared.enqueue_pos_
    · exact ⟨_, .cons (step_flush hf (if_pos hd)) (hcompare _ rfl rfl)⟩
    · exact ⟨_, (step_flush hf (if_neg hd)).path⟩
  | loadedEnqueue enqueue =>
    by_cases hd : s.shared.dequeue_pos_ ≠ enqueue
    · exact ⟨_, .cons (step_flush hf (if_pos hd)) (hcompare _ rfl rfl)⟩
    · exact ⟨_, (step_flush hf (if_neg hd)).path⟩
  | flushSink => exact ⟨[], by rw [← hf]; exact .refl⟩

/-- A ring of two cells or more is sound. -/
theorem Sound.of_two (h2 : 2 ≤ z.card) : Sound z ι where
  keeps_unread h hb hs _ hq hclaimed _ := keeps_unread_of_two h2 h hb hs hq hclaimed
  never_wedged h hb hs := by
    have hi := Inv.of_run h h2 hb
    rw [(hi.settled h2 hb hs).1, (hi.settled h2 hb hs).2]
    exact hi.advanced_le.eq_or_lt
  flush_finishes := by
    intro tr s h hb hs hd
    have hle := (Inv.of_run h h2 hb).advanced_le
    obtain ⟨tr₁, m, d, hp, hdeq, henq⟩ := empties h2 _ h hb hs hd (Nat.add_sub_cancel' hle).symm
    obtain ⟨tr₂, hflush⟩ := flush_path (z := z)
      (show { s with shared := m, drain := d }.shared.dequeue_pos_ = _ from hdeq.trans henq.symm)
    exact ⟨_, _, hp.append hflush, rfl, hdeq, henq, rfl⟩

/-! ### One cell -/

/-- A new logger of level `kInfo`. -/
def fresh : State ι := initial (fun _ => Vector.replicate _ 0) .kInfo

/-- The logger after one accepted call. -/
def once (z : Pow2Size) : State ι :=
  { (fresh : State ι) with shared := (fresh : State ι).shared.accept z hello }

section
variable (hone : z.card = 1)
include hone

theorem slot_of_one (pos : UInt64) : z.slot pos = 0 := by rw [z.slot_eq, hone, Nat.mod_one]

/-- Publishing a record leaves the sequence that marks the cell free for the next position. -/
theorem sequence_accept (m : Shared) (c : Call) :
    ((m.accept z c).cells_ 0).sequence = m.enqueue_pos_ + 1 := by
  simp [Shared.accept, slot_of_one hone, Cell.publish]

variable (i : ι)
include i

theorem once_path : (machine z).Path fresh (acceptEvents i hello) (once z) :=
  accepted_path rfl (show ¬ hello.level < .kInfo by decide) (by rw [slot_of_one hone]; rfl)

/-- A second call claims the cell while it holds the record of the first. -/
theorem not_keeps_unread :
    ∃ (tr : List (Event ι)) (s s' : State ι) (c : Call), (machine z).Run tr s ∧
      CountersBelow z (history (tr ++ [.claim i c])) ∧ (machine z).Step s (.claim i c) s' ∧
      (history tr).forwarded.length ≤ 0 ∧ 0 < (history tr).claims.length ∧
      ¬ Writing s.producers 0 ∧ 0 % z.card = z.slot s.shared.enqueue_pos_ := by
  have hexchange := (once_path hone i).append
    (exchange_path (z := z) (s := once z) (i := i) (c := hello) rfl
      (show ¬ hello.level < .kInfo by decide)
      (by rw [slot_of_one hone]; exact sequence_accept hone _ _))
  refine ⟨_, _, _, hello, ⟨_, ⟨_, _, rfl⟩, hexchange⟩, ?_, claim_step _ i hello, le_rfl,
    Nat.one_pos, ?_, by rw [slot_of_one hone, Nat.zero_mod]⟩
  · have hclaims : (history (acceptEvents i hello ++
        [.call i hello, .log i, .log i, .log i] ++ [.claim i hello])).claims =
          [(i, hello), (i, hello)] := rfl
    rw [CountersBelow, hclaims, hone]
    exact show 2 + 1 ≤ 2 ^ 63 by omega
  · rw [writing_update (by exact id) (by exact id)]
    rintro ⟨j, c, pos, todo, hj, -⟩
    cases hj

/-- After two calls in a row the drain thread waits for a sequence that has gone by. -/
theorem wedged :
    ∃ (tr : List (Event ι)) (s : State ι), (machine z).Run tr s ∧
      CountersBelow z (history tr) ∧ Settled s ∧
      s.shared.dequeue_pos_ ≠ s.shared.enqueue_pos_ ∧
      (s.shared.cells_ (z.slot s.shared.dequeue_pos_)).sequence ≠ s.shared.dequeue_pos_ + 1 := by
  have htwice := (once_path hone i).append
    (accepted_path (z := z) (s := once z) (i := i) (c := hello) rfl
      (show ¬ hello.level < .kInfo by decide)
      (by rw [slot_of_one hone]; exact sequence_accept hone _ _))
  refine ⟨_, _, ⟨_, ⟨_, _, rfl⟩, htwice⟩, ?_, ⟨fun _ => rfl, rfl⟩,
    show (0 : UInt64) ≠ 0 + 1 + 1 by decide, ?_⟩
  · have hclaims : (history (acceptEvents i hello ++ acceptEvents i hello)).claims =
        [(i, hello), (i, hello)] := rfl
    rw [CountersBelow, hclaims, hone]
    exact show 2 + 1 ≤ 2 ^ 63 by omega
  · rw [slot_of_one hone]
    exact fun h => absurd ((sequence_accept hone _ _).symm.trans h)
      (show ¬ (0 + 1 + 1 : UInt64) = 0 + 1 by decide)

theorem not_sound_of_one : ¬ Sound z ι := by
  intro h
  obtain ⟨tr, s, hrun, hb, hs, hne, hseq⟩ := wedged hone i
  exact (h.never_wedged hrun hb hs).elim hne hseq

end

/-! ### Every capacity -/

/-- **Capacities.** A logger that the constructor built for `ring_capacity` never claims the cell
of an unread record, never wedges and can always finish a `Flush`, in every run of any producers,
if and only if `ring_capacity` is at least two. -/
theorem sound_iff_two_cells {ring_capacity : UInt64} (h : Built ring_capacity z) (i : ι) :
    Sound z ι ↔ 2 ≤ ring_capacity.toNat := by
  rw [← h.two_le_card_iff]
  refine ⟨fun hs => ?_, Sound.of_two⟩
  by_contra hlt
  have hpos := z.card_pos
  exact not_sound_of_one (by omega) i hs

theorem sound_iff_two_cells_small : Sound twoCells Bool :=
  (sound_iff_two_cells (show Built 2 twoCells from rfl) true).mpr (by decide)

/-- `MpscRtLogger("small", 1)` rounds to this ring, as `MpscRtLogger("small", 0)` does. -/
def oneCell : Pow2Size := ⟨1, 0, by decide, rfl⟩

/-- **A ring of one cell is not sound**: it neither keeps unread records nor lets the drain
thread go on. -/
theorem one_cell_unsound :
    Built 1 oneCell ∧ Built 0 oneCell ∧ ¬ Sound oneCell Bool ∧
    ∃ (tr : List (Event Bool)) (s s' : State Bool) (c : Call), (machine oneCell).Run tr s ∧
      (machine oneCell).Step s (.claim true c) s' ∧
      (history tr).forwarded.length ≤ 0 ∧ 0 < (history tr).claims.length ∧
      ¬ Writing s.producers 0 ∧ 0 % oneCell.card = oneCell.slot s.shared.enqueue_pos_ := by
  obtain ⟨tr, s, s', c, hrun, -, hs⟩ := not_keeps_unread (z := oneCell) rfl true
  exact ⟨rfl, rfl, not_sound_of_one rfl true, tr, s, s', c, hrun, hs⟩

end MpscRtLogger

end XmSigma
