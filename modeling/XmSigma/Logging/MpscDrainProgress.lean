import XmSigma.Lib.Progress
import XmSigma.Logging.LogQueue
import XmSigma.Logging.MpscFlush
import XmSigma.Logging.MpscRace
import XmSigma.Logging.MpscShutdown

/-!
# How many steps the drain thread of `MpscRtLogger` takes

The drain thread takes eight steps for a record, and at most one that is in vain before them. It
forwards in the order of the positions, so it has to wait for every call that claimed an earlier
position to publish; but when these have, a record is forwarded after a number of its steps that
only depends on how many positions are before it, `Flush` ends, and so does the destructor.

## Main results

* `claims_forwarded_in_time`: the steps of the drain thread until a record is forwarded
* `flush_ends`, `destructor_joins`
-/

namespace XmSigma

namespace MpscRtLogger

variable {ι : Type*} {z : Pow2Size} {t : History ι} {s s₁ s₂ : State ι} {e : Event ι}
  {tr tr₁ tr₂ : List (Event ι)} {i : ι} {pos : UInt64}

/-- A step of the drain thread. -/
def Event.ofDrain : Event ι → Bool
  | .forward _ | .advance | .free | .drain => true
  | _ => false

/-- A step of the thread calling `Flush`. -/
def Event.ofFlush : Event ι → Bool
  | .flush => true
  | _ => false

theorem Log.not_ofDrain {m m' : Shared} {p p' : Log} {spurious : Bool}
    (hs : p.step z i m spurious = some (m', p', e)) :
    e.ofDrain = false ∧ e.ofFlush = false ∧
      ∀ t : History ι, (t.note e).advanced = t.advanced := by
  cases LogMove.of_step hs <;> exact ⟨rfl, rfl, fun _ => rfl⟩

theorem Drain.ofDrain {m m' : Shared} {p p' : Drain} {f : Field}
    (hs : p.step z m f = some (m', p', e)) : e.ofDrain = true ∧ e.ofFlush = false := by
  cases DrainMove.of_step hs <;> exact ⟨rfl, rfl⟩

/-! ### The drain thread -/

/-- How many steps the drain thread takes until `dequeue_pos_` has advanced by `k`. It may have
found its cell unpublished before it was published, and may have to free a cell first. -/
def Drain.until (k : ℕ) : Drain → ℕ
  | .loadRunning _ | .free _ => 8 * k + 1
  | .loadPos => 8 * k
  | .loadSeq _ => 8 * k - 1
  | .read _ v => 8 * k + v.missing - 5
  | .advance _ => 8 * k - 6
  | .flushSink | .exited => 0

theorem Drain.until_le (k : ℕ) (p : Drain) : p.until k ≤ 8 * k + 1 := by
  cases p with
  | read pos v =>
    have := v.missing_le
    simp only [Drain.until]
    omega
  | _ => simp only [Drain.until]; omega

/-- In its loop the drain thread has some of these steps to take. -/
theorem Drain.until_pos {k : ℕ} {p : Drain} (hk : 0 < k)
    (hloop : p.place = .busy ∨ p.place = .asking) : 0 < p.until k := by
  cases p with
  | flushSink | exited => simp [Drain.place] at hloop
  | _ => simp only [Drain.until]; omega

/-- While the logger lives and the first `n` positions are published, each of its steps is one of
them. -/
theorem Inv.until_step {n : ℕ} {m : Shared} {p : Drain} {f : Field} (hi : Inv z t s)
    (hb : CountersBelow z t) (hrun : s.shared.running_ = true)
    (hloop : s.drain.place = .busy ∨ s.drain.place = .asking) (hn : n ≤ t.claims.length)
    (hpub : ∀ q < n, ¬ Writing s.producers q) (hlt : t.advanced < n)
    (hs : s.drain.step z s.shared f = some (m, p, e)) :
    p.until (n - (t.note e).advanced) + 1 ≤ s.drain.until (n - t.advanced) := by
  have hok := hi.drain_ok
  have hbound := Inv.claims_lt hb
  generalize hd : s.drain = p₀ at hs
  rw [hd] at hok hloop
  cases DrainMove.of_step hs with
  | @empty pos hne =>
    refine absurd ?_ hne
    have hclaimed : t.advanced < t.claims.length := hlt.trans_le hn
    have hcell := (hi.published t.advanced _ _ hi.freed_le (List.getElem?_eq_getElem hclaimed)
      (hpub _ hlt)).1
    have hpos : pos.toNat = t.advanced := hok
    rw [Shared.cell, ← hpos, ← z.slot_eq] at hcell
    rw [← UInt64.toNat_inj, hcell, toNat_add_one (by omega)]
  | leave hstopped =>
    rw [hrun] at hstopped
    cases hstopped
  | read f hv =>
    have hone := View.missing_read hv
    simp only [Drain.until, History.note]
    omega
  | forward hx =>
    have hnone := View.missing_forward hx
    simp only [Drain.until, History.note]
    omega
  | flushSink => simp [Drain.place] at hloop
  | _ =>
    simp only [Drain.until, History.note, View.missing_empty]
    omega

theorem advanced_mono (tr tr₁ : List (Event ι)) :
    (history tr).advanced ≤ (history (tr ++ tr₁)).advanced := by
  induction tr₁ using List.reverseRecOn with
  | nil => simp
  | append_singleton tr₁ e ih =>
    rw [← List.append_assoc, history_snoc]
    refine ih.trans ?_
    cases e <;> simp [History.note]

section
variable [DecidableEq ι]

theorem drain_enabled (hd : s.drain ≠ .exited) (z : Pow2Size) :
    ∃ f s' e, step z s (.drain f) = some (s', e) := by
  obtain ⟨f, ⟨m, p, e⟩, hx⟩ := Drain.exists_next ι hd z s.shared
  exact ⟨f, _, e, by rw [step, hx]; rfl⟩

/-- Until the destructor starts, `running_` is on and the drain thread in its loop. -/
theorem alive (h : (machine z).Run tr s) (hlive : s.destructor = .notStarted)
    (hp : (machine z).Path s tr₁ s₁) (hstop : Event.stop ∉ tr₁) :
    s₁.shared.running_ = true ∧ (s₁.drain.place = .busy ∨ s₁.drain.place = .asking) :=
  life_follows.looping (life_ok h) hp (congrArg Destructor.owner hlive) fun e he => by
    cases e with
    | stop => exact absurd he hstop
    | _ => rfl

/-- A position that is claimed and published is never written again. -/
theorem published_stays {n : ℕ} (h : (machine z).Run tr s) (h2 : 2 ≤ z.card)
    (hn : n ≤ (history tr).claims.length) (hpub : ∀ q < n, ¬ Writing s.producers q)
    (hp : (machine z).Path s tr₁ s₁) (hb : CountersBelow z (history (tr ++ tr₁))) :
    ∀ q < n, ¬ Writing s₁.producers q := by
  refine hp.along (I := fun _ s' => ∀ q < n, ¬ Writing s'.producers q) hpub
    fun {tr' s' e s''} rest htr hp' hpub hs q hq hw => ?_
  have hb' : CountersBelow z (history (tr ++ tr')) := by
    rw [htr, ← List.append_assoc] at hb
    exact hb.of_append
  have hi := Inv.of_run (h.append hp') h2 hb'
  obtain ⟨i, c, pos, todo, hwriting, hpos⟩ := hw
  rcases step_cases i hs with ⟨d, -, -, hcall⟩ | ⟨spurious, m, p, hlog, hnext⟩ | ⟨-, hsame⟩
  · rw [hcall] at hwriting
    cases hwriting
  · rw [hwriting] at hnext
    subst hnext
    generalize hl : s'.producers i = p₀ at hlog
    cases LogMove.of_step hlog with
    | claim heq =>
      have henqueue := hi.enqueue_eq
      rw [heq, claims_append, List.length_append] at henqueue
      omega
    | assign => exact hpub q hq ⟨i, c, pos, _, hl, hpos⟩
  · exact hpub q hq ⟨i, c, pos, todo, hsame ▸ hwriting, hpos⟩

/-- Enough steps of the drain thread move `dequeue_pos_` past what is published. -/
theorem advanced_in_time {n : ℕ} (h : (machine z).Run tr s) (h2 : 2 ≤ z.card)
    (hn : n ≤ (history tr).claims.length) (hpub : ∀ q < n, ¬ Writing s.producers q)
    (hlive : s.destructor = .notStarted) (hp : (machine z).Path s tr₁ s₁)
    (hstop : Event.stop ∉ tr₁) (hb : CountersBelow z (history (tr ++ tr₁)))
    (hsteps : 8 * (n - (history tr).advanced) < tr₁.countP Event.ofDrain) :
    n ≤ (history (tr ++ tr₁)).advanced := by
  have hbound := s.drain.until_le (n - (history tr).advanced)
  refine hp.counts Event.ofDrain (fun tr₁ => (history (tr ++ tr₁)).advanced)
    (fun k s => s.drain.until k) n (fun tr₁ e => ?_)
    (fun {tr' s' e s''} rest htr hp' hlt hs => ?_)
    (fun k hk => Drain.until_pos hk (alive h hlive hp hstop).2)
    (by simp only [List.append_nil]; omega)
  · rw [← List.append_assoc]
    exact advanced_mono _ _
  · have hb' : CountersBelow z (history (tr ++ tr')) := by
      rw [htr, ← List.append_assoc] at hb
      exact hb.of_append
    have hi := Inv.of_run (h.append hp') h2 hb'
    obtain ⟨hon, hloop⟩ := alive h hlive hp' fun hmem => hstop (by simp [htr, hmem])
    have hclaims : n ≤ (history (tr ++ tr')).claims.length := by
      rw [claims_append, List.length_append]
      omega
    rw [← List.append_assoc, history_snoc]
    cases Move.of_step hs with
    | log i spurious hl =>
      obtain ⟨hdrain, -, hadvanced⟩ := Log.not_ofDrain hl
      rw [hdrain, hadvanced]
      exact le_rfl
    | drain f hd =>
      rw [(Drain.ofDrain hd).1]
      exact hi.until_step hb' hon hloop hclaims (published_stays h h2 hn hpub hp' hb') hlt hd
    | _ => exact le_rfl

/-- **Every record is forwarded in time.** Take a moment of a run at which the calls that claimed
the first `n` positions have published. However much the producers go on to log, and whatever the
other threads do, the records of these claims have been forwarded once the drain thread has taken
more than eight steps for each of them that `dequeue_pos_` was not past; and the drain thread can
take them, as long as the destructor has not started. -/
theorem claims_forwarded_in_time {n : ℕ} (h : (machine z).Run tr s) (h2 : 2 ≤ z.card)
    (hn : n ≤ (history tr).claims.length) (hpub : ∀ q < n, ¬ Writing s.producers q)
    (hlive : s.destructor = .notStarted) (hp : (machine z).Path s tr₁ s₁)
    (hstop : Event.stop ∉ tr₁) (hb : CountersBelow z (history (tr ++ tr₁))) :
    (∃ f s' e, step z s₁ (.drain f) = some (s', e)) ∧
    n ≤ (history tr).advanced + z.card ∧
    (8 * (n - (history tr).advanced) < tr₁.countP Event.ofDrain →
      ((history tr).claims.take n).map (fun x => x.2.sinkRecord) <+:
        (history (tr ++ tr₁)).forwarded) := by
  have hi := Inv.of_run h h2 hb.of_append
  have hfreed := hi.freed_eq
  have hclaims := hi.claims_le
  have hexit : s₁.drain ≠ .exited := fun hexit => by
    have hloop := (alive h hlive hp hstop).2
    simp [hexit, Drain.place] at hloop
  refine ⟨drain_enabled hexit z, by omega, fun hsteps => ?_⟩
  have hreached := advanced_in_time h h2 hn hpub hlive hp hstop hb hsteps
  rw [(Inv.of_run (h.append hp) h2 hb).forwarded_eq]
  refine List.IsPrefix.map _ (List.prefix_take_iff.mpr ⟨?_, ?_⟩)
  · rw [claims_append]
    exact (List.take_prefix _ _).trans (List.prefix_append _ _)
  · rw [List.length_take]
    omega

end

/-- One call of the small logger. -/
def logged : Option (List (Event Bool) × State Bool) :=
  (machine twoCells).exec small (logAction true hello)

theorem logged_isSome : logged.isSome := by decide +kernel

/-- The drain thread takes nine steps, the producers none. -/
def forwarded : Option (List (Event Bool) × State Bool) :=
  (machine twoCells).exec (logged.get logged_isSome).2 (drainAction ++ [.drain .time])

theorem forwarded_isSome : forwarded.isSome := by decide +kernel

theorem logged_idle (i : Bool) : (logged.get logged_isSome).2.producers i = .idle := by
  revert i
  decide +kernel

theorem logged_published (q : ℕ) : ¬ Writing (logged.get logged_isSome).2.producers q := by
  rintro ⟨i, c, pos, todo, hwriting, -⟩
  rw [logged_idle] at hwriting
  cases hwriting

theorem forwarded_events : Event.stop ∉ (forwarded.get forwarded_isSome).1 := by decide +kernel

theorem claims_forwarded_in_time_small :
    ((history (logged.get logged_isSome).1).claims.take 1).map (fun x => x.2.sinkRecord) <+:
      (history ((logged.get logged_isSome).1 ++ (forwarded.get forwarded_isSome).1)).forwarded :=
  (claims_forwarded_in_time (run_small logged_isSome) (by decide) (by decide +kernel)
    (fun q _ => logged_published q) rfl (.of_exec_get forwarded_isSome) forwarded_events
    (by unfold CountersBelow; decide +kernel)).2.2 (by decide +kernel)

/-! ### `Flush` -/

theorem Flush.eq_flushSink {p : Flush} (h : p.waiter = .done) : p = .flushSink := by
  cases p <;> first | rfl | cases h

section
variable [DecidableEq ι]

/-- Without new calls, idle producers claim nothing. -/
theorem quiet (hidle : ∀ i, s.producers i = .idle) (hp : (machine z).Path s tr s₁)
    (hcalls : ∀ i c, Event.call i c ∉ tr) : (history tr).claims = [] := by
  refine hp.along (I := fun tr _ => (history tr).claims = []) rfl
    fun {tr' s' e s''} rest htr hp' hclaims hs => ?_
  have hidle' := idle_of_path hp' hidle fun i c hmem => hcalls i c (by simp [htr, hmem])
  rw [history_snoc]
  rcases (quiet_step hs hidle' fun i c hc => hcalls i c (by simp [htr, hc])).2 with
    ⟨-, hnote⟩ | ⟨f, hd⟩
  · rw [hnote, hclaims]
  · exact (Drain.step_frame hd _).1.claims.trans hclaims

/-- The wait loop was left on the way from `s` to `s₁`. -/
def Exits (z : Pow2Size) : State ι → List (Event ι) → State ι → Prop :=
  (machine z).Visits fun s => s.flush = .flushSink

/-- Once `dequeue_pos_` is past every claim and no call is made, the wait loop is left in three
steps. -/
theorem exits_of_advanced (h : (machine z).Run tr s) (h2 : 2 ≤ z.card)
    (hidle : ∀ i, s.producers i = .idle)
    (hall : (history tr).claims.length ≤ (history tr).advanced)
    (hp : (machine z).Path s tr₁ s₁) (hcalls : ∀ i c, Event.call i c ∉ tr₁)
    (hb : CountersBelow z (history (tr ++ tr₁))) (hsteps : 3 ≤ tr₁.countP Event.ofFlush) :
    Exits z s tr₁ s₁ := by
  have hstill {tr' : List (Event ι)} {s' : State ι} (hp' : (machine z).Path s tr' s')
      (hcalls' : ∀ i c, Event.call i c ∉ tr') (hb' : CountersBelow z (history (tr ++ tr'))) :
      s'.shared.dequeue_pos_ = s.shared.enqueue_pos_ ∧
        s'.shared.enqueue_pos_ = s.shared.enqueue_pos_ := by
    have hi := Inv.of_run h h2 hb'.of_append
    have hi' := Inv.of_run (h.append hp') h2 hb'
    have hclaims : (history (tr ++ tr')).claims = (history tr).claims := by
      rw [claims_append, quiet hidle hp' hcalls', List.append_nil]
    have hmono := advanced_mono tr tr'
    have hle := hi'.advanced_le
    have henqueue := hi'.enqueue_eq
    have hold := hi.enqueue_eq
    rw [hclaims] at hle henqueue
    constructor
    · rw [← UInt64.toNat_inj, hi'.dequeue_eq, hold]
      omega
    · rw [← UInt64.toNat_inj, henqueue, hold]
  refine (CatchUp.Waiter.visits_done (fun s => s.flush.waiter) Event.ofFlush
    s.shared.enqueue_pos_ hp (fun {tr' s' e s''} rest htr hp' hs => ?_) hsteps).imp
    fun s => Flush.eq_flushSink
  cases Move.of_step hs with
  | log i spurious hl => exact .inl ⟨(Log.not_ofDrain hl).2.1, rfl⟩
  | drain f hd => exact .inl ⟨(Drain.ofDrain hd).2, rfl⟩
  | flush dequeueFirst =>
    have hb' : CountersBelow z (history (tr ++ tr')) := by
      rw [htr, ← List.append_assoc] at hb
      exact hb.of_append
    obtain ⟨hdequeue, henqueue⟩ :=
      hstill hp' (fun i c hmem => hcalls i c (by simp [htr, hmem])) hb'
    refine .inr ⟨dequeueFirst, ?_⟩
    rw [Flush.waiter_step, hdequeue, henqueue]
  | _ => exact .inl ⟨rfl, rfl⟩

/-- **`Flush` ends.** Let no call of `Log` be in progress or made, and the destructor not have
started. Once the drain thread has taken more than eight steps for each claim that `dequeue_pos_`
was not past, a thread in `Flush` leaves its wait loop within three steps of its own. -/
theorem flush_ends (h : (machine z).Run tr s) (h2 : 2 ≤ z.card)
    (hidle : ∀ i, s.producers i = .idle) (hlive : s.destructor = .notStarted)
    (hp₁ : (machine z).Path s tr₁ s₁) (hp₂ : (machine z).Path s₁ tr₂ s₂)
    (hcalls : ∀ i c, Event.call i c ∉ tr₁ ++ tr₂) (hstop : Event.stop ∉ tr₁)
    (hb : CountersBelow z (history (tr ++ tr₁ ++ tr₂)))
    (hdrain : 8 * ((history tr).claims.length - (history tr).advanced) <
      tr₁.countP Event.ofDrain)
    (hflush : 3 ≤ tr₂.countP Event.ofFlush) : Exits z s₁ tr₂ s₂ := by
  have hcalls₁ : ∀ i c, Event.call i c ∉ tr₁ := fun i c hmem => hcalls i c (by simp [hmem])
  have hnone : ∀ q < (history tr).claims.length, ¬ Writing s.producers q := by
    rintro q - ⟨i, c, pos, todo, hwriting, -⟩
    rw [hidle i] at hwriting
    cases hwriting
  have hadvanced := advanced_in_time h h2 le_rfl hnone hlive hp₁ hstop hb.of_append hdrain
  refine exits_of_advanced (h.append hp₁) h2 (idle_of_path hp₁ hidle hcalls₁) ?_ hp₂
    (fun i c hmem => hcalls i c (by simp [hmem])) hb hflush
  rwa [claims_append, quiet hidle hp₁ hcalls₁, List.append_nil]

end

/-- The record is forwarded; then `Flush` is called. -/
def waited : Option (List (Event Bool) × State Bool) :=
  (machine twoCells).exec (forwarded.get forwarded_isSome).2 (List.replicate 3 (.flush true))

theorem waited_isSome : waited.isSome := by decide +kernel

theorem no_call_waited (i : Bool) (c : Call) :
    Event.call i c ∉ (forwarded.get forwarded_isSome).1 ++ (waited.get waited_isSome).1 := by
  have hevents : (forwarded.get forwarded_isSome).1 ++ (waited.get waited_isSome).1 =
      [.drain, .drain, .drain, .drain, .drain, .forward hello.sinkRecord, .advance, .free, .drain,
        .flush, .flush, .flush] := by decide +kernel
  rw [hevents]
  simp

theorem flush_ends_small :
    Exits twoCells (forwarded.get forwarded_isSome).2 (waited.get waited_isSome).1
      (waited.get waited_isSome).2 :=
  flush_ends (run_small logged_isSome) (by decide) logged_idle rfl
    (.of_exec_get forwarded_isSome) (.of_exec_get waited_isSome) no_call_waited forwarded_events
    (by unfold CountersBelow; decide +kernel) (by decide +kernel) (by decide +kernel)

/-! ### The destructor -/

/-- How many steps the drain thread takes at most until it has left its loop, with `k` claims not
passed by `dequeue_pos_`, once `running_` is off. -/
def Drain.last (k : ℕ) : Drain → ℕ
  | .free _ => 8 * k + 5
  | .loadPos => 8 * k + 4
  | .loadSeq _ => 8 * k + 3
  | .loadRunning _ => 8 * k + 2
  | .read _ v => 8 * k + v.missing - 1
  | .advance _ => 8 * k - 2
  | .flushSink => 1
  | .exited => 0

theorem Drain.last_le (k : ℕ) (p : Drain) : p.last k ≤ 8 * k + 5 := by
  cases p with
  | read pos v =>
    have := v.missing_le
    simp only [Drain.last]
    omega
  | _ => simp only [Drain.last]; omega

/-- The position that the drain thread reads is claimed. -/
theorem Inv.reading_lt (hi : Inv z t s) {v : View} (hd : s.drain = .read pos v) :
    t.advanced < t.claims.length := by
  have hok := hi.drain_ok
  rw [hd] at hok
  obtain ⟨-, -, i, c, hc, -⟩ := hok
  exact (List.getElem?_eq_some_iff.mp hc).1

/-- Each of its steps is one of them. -/
theorem Inv.last_step {m : Shared} {p : Drain} {f : Field} (hi : Inv z t s)
    (hrun : s.shared.running_ = false) (hs : s.drain.step z s.shared f = some (m, p, e)) :
    p.last (t.claims.length - (t.note e).advanced) + 1 ≤
      s.drain.last (t.claims.length - t.advanced) := by
  have hok := hi.drain_ok
  generalize hd : s.drain = p₀ at hs
  rw [hd] at hok
  cases DrainMove.of_step hs with
  | again hon =>
    rw [hrun] at hon
    cases hon
  | found hne =>
    simp only [Drain.last, History.note, View.missing_empty]
    omega
  | read f hv =>
    have hlt := hi.reading_lt hd
    have hone := View.missing_read hv
    simp only [Drain.last, History.note]
    omega
  | forward hx =>
    have hlt := hi.reading_lt hd
    simp only [Drain.last, History.note]
    omega
  | advance =>
    have hlt := hok.2.2
    simp only [Drain.last, History.note]
    omega
  | _ =>
    simp only [Drain.last, History.note]
    omega

/-- After the last of them it has left its loop. -/
theorem Inv.exited_of_last (hi : Inv z t s)
    (hzero : s.drain.last (t.claims.length - t.advanced) = 0) : s.drain = .exited := by
  have hok := hi.drain_ok
  cases hd : s.drain with
  | exited => rfl
  | read pos v =>
    have hlt := hi.reading_lt hd
    rw [hd] at hzero
    simp only [Drain.last] at hzero
    omega
  | advance pos =>
    rw [hd] at hok hzero
    have hlt := hok.2.2
    simp only [Drain.last] at hzero
    omega
  | _ => rw [hd] at hzero; simp [Drain.last] at hzero

section
variable [DecidableEq ι]

/-- What the destructor waits for: it may join, or the drain thread can go on. -/
def CanGoOn (z : Pow2Size) (s : State ι) : Prop :=
  s.destructor = .joined ∨ (∃ s', step z s .join = some (s', .join)) ∨
    ∃ f s' e, step z s (.drain f) = some (s', e)

theorem canGoOn_of_stopped (z : Pow2Size) (hl : s.life.Ok) (hoff : s.shared.running_ = false) :
    CanGoOn z s := by
  rcases hl.waits hoff with hjoined | ⟨hjoining, hended⟩ | hgo
  · exact .inl (Destructor.owner_injective hjoined)
  · have hd : s.destructor = .joining := Destructor.owner_injective hjoining
    have hjoin : step z s .join = some ({ s with destructor := .joined }, .join) := by
      simp [step, hd, Drain.place_eq_ended hended]
    exact .inr (.inl ⟨_, hjoin⟩)
  · exact .inr (.inr (drain_enabled (fun hexit => hgo (congrArg Drain.place hexit)) z))

/-- **The destructor joins.** Let all calls of `Log` have returned when the destructor starts, and
none be made after. Then the drain thread takes at most eight steps for each claim that
`dequeue_pos_` was not past and five more; after them it has left its loop and the destructor
joins it, and before it is never stuck. -/
theorem destructor_joins (h : (machine z).Run tr s) (h2 : 2 ≤ z.card)
    (hidle : ∀ i, s.producers i = .idle) (hstop : step z s .stop = some (s₁, .stop))
    (hp : (machine z).Path s₁ tr₁ s₂) (hcalls : ∀ i c, Event.call i c ∉ tr₁)
    (hb : CountersBelow z (history (tr ++ .stop :: tr₁))) :
    tr₁.countP Event.ofDrain ≤
      8 * ((history tr).claims.length - (history tr).advanced) + 5 ∧
    CanGoOn z s₂ ∧
    (tr₁.countP Event.ofDrain =
        8 * ((history tr).claims.length - (history tr).advanced) + 5 → s₂.drain = .exited) := by
  have hrun : (machine z).Run (tr ++ [.stop]) s₁ := h.snoc ⟨.stop, hstop⟩
  obtain ⟨-, rfl⟩ := stop_eq (z := z) hstop
  have hoff : (stopped s).life.flag = false := rfl
  have hnote : history (tr ++ [.stop]) = history tr := history_snoc _ _
  have happ : tr ++ .stop :: tr₁ = tr ++ [.stop] ++ tr₁ := by simp
  rw [happ] at hb
  have hsame {tr' : List (Event ι)} {s' : State ι} (hp' : (machine z).Path (stopped s) tr' s')
      (hcalls' : ∀ i c, Event.call i c ∉ tr') :
      (history (tr ++ [.stop] ++ tr')).claims.length = (history tr).claims.length := by
    rw [claims_append, hnote, quiet (s := stopped s) hidle hp' hcalls', List.append_nil]
  set n := (history tr).claims.length with hn
  have hle : tr₁.countP Event.ofDrain +
      s₂.drain.last (n - (history (tr ++ [.stop] ++ tr₁)).advanced) ≤
      s.drain.last (n - (history (tr ++ [.stop] ++ [])).advanced) := by
    refine hp.steps_le Event.ofDrain
      (fun tr₁ s => s.drain.last (n - (history (tr ++ [.stop] ++ tr₁)).advanced))
      fun {tr' s' e s''} rest htr hp' hs => ?_
    have hclaims := hsame hp' fun i c hmem => hcalls i c (by simp [htr, hmem])
    have hb' : CountersBelow z (history (tr ++ [.stop] ++ tr')) := by
      rw [htr, ← List.append_assoc] at hb
      exact hb.of_append
    have hi := Inv.of_run (hrun.append hp') h2 hb'
    rw [← List.append_assoc, history_snoc]
    cases Move.of_step hs with
    | log i spurious hl =>
      obtain ⟨hdrain, -, hadvanced⟩ := Log.not_ofDrain hl
      rw [hdrain, hadvanced]
      exact le_rfl
    | drain f hd =>
      rw [(Drain.ofDrain hd).1, ← hclaims]
      exact hi.last_step (life_follows.stopped hp' hoff) hd
    | _ => exact le_rfl
  rw [List.append_nil, hnote] at hle
  have hmax := s.drain.last_le (n - (history tr).advanced)
  refine ⟨by omega, canGoOn_of_stopped z (life_ok (hrun.append hp)) (life_follows.stopped hp hoff),
    fun hfull => ?_⟩
  refine (Inv.of_run (hrun.append hp) h2 hb).exited_of_last ?_
  rw [hsame hp hcalls]
  omega

end

/-- The destructor of the small logger starts when its record has been forwarded and its cell is
about to be freed. -/
def freeing : Option (List (Event Bool) × State Bool) :=
  (machine twoCells).exec small (logAction true hello ++ drainAction.dropLast)

theorem freeing_isSome : freeing.isSome := by decide +kernel

theorem freeing_idle (i : Bool) : (freeing.get freeing_isSome).2.producers i = .idle := by
  revert i
  decide +kernel

/-- From there on the drain thread takes five steps. -/
def destroyed : Option (List (Event Bool) × State Bool) :=
  (machine twoCells).exec (stopped (freeing.get freeing_isSome).2)
    (List.replicate 5 (.drain .time))

theorem destroyed_isSome : destroyed.isSome := by decide +kernel

theorem no_call_destroyed (i : Bool) (c : Call) :
    Event.call i c ∉ (destroyed.get destroyed_isSome).1 := by
  have hevents : (destroyed.get destroyed_isSome).1 = [.free, .drain, .drain, .drain, .drain] := by
    decide +kernel
  rw [hevents]
  simp

theorem destructor_joins_small : (destroyed.get destroyed_isSome).2.drain = .exited :=
  (destructor_joins (run_small freeing_isSome) (by decide) freeing_idle rfl
    (.of_exec_get destroyed_isSome) no_call_destroyed
    (by unfold CountersBelow; decide +kernel)).2.2 (by decide +kernel)

end MpscRtLogger

end XmSigma
