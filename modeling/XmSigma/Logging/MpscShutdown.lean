import XmSigma.Lib.Worker
import XmSigma.Logging.MpscDelivery

/-!
# How `MpscRtLogger` shuts down

As with `RtLogger`, whether the destructor loses records depends on one moment. The drain thread
looks at the sequence of its next cell and at `running_` in two separate loads; a record published
between the two is left behind if the destructor stores `running_` before the second.

## Main results

* `claims_survive_shutdown_iff`: the shutdown loses nothing exactly when the destructor does not
  store `running_` while the drain thread acts on a stale sequence
* `claims_lost_at_shutdown`: a run in which it does
-/

namespace XmSigma

namespace MpscRtLogger

variable {ι : Type*} {z : Pow2Size} {t : History ι} {s s₁ s₂ : State ι} {e : Event ι}
  {tr tr₁ tr₂ : List (Event ι)}

/-! ### The life of the logger -/

/-- The drain thread is a worker, `running_` being its flag. -/
def Drain.place : Drain → Worker.Place
  | .loadPos | .loadSeq _ | .read .. | .advance _ | .free _ => .busy
  | .loadRunning _ => .asking
  | .flushSink => .left
  | .exited => .ended

/-- The destructor is the owner of the drain thread. -/
def Destructor.owner : Destructor → Worker.Owner
  | .notStarted => .active
  | .joining => .joining
  | .joined => .joined

theorem Destructor.owner_injective : Function.Injective Destructor.owner := by
  intro d d'
  cases d <;> cases d' <;> simp [Destructor.owner]

/-- The two in the state of the logger. -/
def State.life (s : State ι) : Worker.Life := ⟨s.shared.running_, s.drain.place, s.destructor.owner⟩

/-- The step in which the destructor stores `running_`. -/
def Event.stops : Event ι → Bool
  | .stop => true
  | _ => false

/-- The producers leave `running_` alone. -/
theorem Log.running_step {i : ι} {m m' : Shared} {p p' : Log} {spurious : Bool}
    (hs : p.step z i m spurious = some (m', p', e)) :
    m'.running_ = m.running_ ∧ e.stops = false := by
  cases LogMove.of_step hs <;> exact ⟨rfl, rfl⟩

/-- The drain thread leaves `running_` alone, and goes on as a worker does. -/
theorem Drain.place_move {m m' : Shared} {p p' : Drain} {f : Field}
    (hs : p.step z m f = some (m', p', e)) :
    p.place.Move m.running_ p'.place ∧ m'.running_ = m.running_ ∧ e.stops = false := by
  cases DrainMove.of_step hs with
  | empty => exact ⟨.ask, rfl, rfl⟩
  | again hrun => exact ⟨.again hrun, rfl, rfl⟩
  | leave hrun => exact ⟨.leave hrun, rfl, rfl⟩
  | flushSink => exact ⟨.finish, rfl, rfl⟩
  | _ => exact ⟨.work, rfl, rfl⟩

section
variable [DecidableEq ι]

theorem life_follows : Worker.Follows (machine (ι := ι) z) State.life Event.stops := by
  intro s e s' hs
  cases Move.of_step hs with
  | log i spurious hp =>
    obtain ⟨hrun, hstops⟩ := Log.running_step hp
    simp only [State.life, hrun, hstops]
    exact .rest
  | drain f hp =>
    obtain ⟨hmove, hrun, hstops⟩ := Drain.place_move hp
    simp only [State.life, hrun, hstops]
    exact .work hmove
  | stop hd => exact .stop (congrArg Destructor.owner hd)
  | join hd hx => exact .join (congrArg Destructor.owner hd) (congrArg Drain.place hx)
  | _ => exact .rest

theorem life_ok (h : (machine z).Run tr s) : s.life.Ok := by
  refine life_follows.ok ?_ h
  rintro s ⟨raw, level, rfl⟩
  exact .new

theorem Drain.place_eq_ended {p : Drain} (h : p.place = .ended) : p = .exited := by
  cases p <;> first | rfl | cases h

/-- What the destructor's store makes of a state. -/
def stopped (s : State ι) : State ι :=
  { s with shared := { s.shared with running_ := false }, destructor := .joining }

theorem stop_eq (hs : step z s .stop = some (s₁, e)) :
    s.destructor = .notStarted ∧ s₁ = stopped s := by
  simp only [step] at hs
  split at hs <;> cases hs
  next hd => exact ⟨hd, rfl⟩

/-! ### After the destructor has stored `running_` -/

/-- What a step can be once the producers are idle for good: a step of the drain thread, or one
that nobody notes. -/
theorem quiet_step (hs : (machine z).Step s e s₁) (hidle : ∀ i, s.producers i = .idle)
    (he : ∀ i c, e ≠ .call i c) :
    (∀ i, s₁.producers i = .idle) ∧
      ((s₁.drain = s.drain ∧ ∀ t : History ι, t.note e = t) ∨
        ∃ f, s.drain.step z s.shared f = some (s₁.shared, s₁.drain, e)) := by
  cases Move.of_step hs with
  | call i c => exact absurd rfl (he i c)
  | log i spurious hp =>
    rw [hidle i] at hp
    cases hp
  | drain f hp => exact ⟨hidle, .inr ⟨f, hp⟩⟩
  | _ => exact ⟨hidle, .inl ⟨rfl, fun _ => rfl⟩⟩

theorem idle_of_path (hp : (machine z).Path s tr s₁) (hidle : ∀ i, s.producers i = .idle)
    (hcalls : ∀ i c, Event.call i c ∉ tr) : ∀ i, s₁.producers i = .idle :=
  hp.rule (Q := fun e => ∀ i c, e ≠ .call i c) (I := fun _ s => ∀ i, s.producers i = .idle)
    (fun _ he i c hc => hcalls i c (hc ▸ he)) hidle fun he hidle hs => (quiet_step hs hidle he).1

end

/-- Once it has found its cell unpublished, nothing that the drain thread does is noted. -/
theorem Drain.note_of_asking {m m' : Shared} {p p' : Drain} {f : Field} (h : p.place ≠ .busy)
    (hs : p.step z m f = some (m', p', e)) (t : History ι) : t.note e = t := by
  cases DrainMove.of_step hs with
  | again | leave | flushSink => rfl
  | _ => exact absurd rfl h

/-- It finds that only when the sequence is not that of a published record. -/
theorem Drain.asking_of_step {m m' : Shared} {p p' : Drain} {f : Field} (h : p.place = .busy)
    (h' : p'.place = .asking) (hs : p.step z m f = some (m', p', e)) :
    (∃ pos, p = .loadSeq pos ∧ (m.cells_ (z.slot pos)).sequence ≠ pos + 1) ∧
      ∀ t : History ι, t.note e = t := by
  cases DrainMove.of_step hs with
  | empty hne => exact ⟨⟨_, rfl, hne⟩, fun _ => rfl⟩
  | leave | flushSink => cases h
  | _ => cases h'

theorem owns_of_idle {producers : ι → Log} (h : ∀ i, producers i = .idle) (i : ι) :
    ¬ (producers i).owns := by
  rw [h i]
  exact id

/-- Every claimed position is passed. -/
def History.Emptied (t : History ι) : Prop := t.advanced = t.claims.length

/-- The drain thread has found the next cell unpublished and is about to load `running_`, but the
cell is published by now. -/
def ActsOnStaleSequence (z : Pow2Size) (s : State ι) : Prop :=
  ∃ pos, s.drain = .loadRunning pos ∧ (s.shared.cells_ (z.slot pos)).sequence = pos + 1

/-- In its loop, the drain thread leaves something undone just then. -/
theorem Inv.fresh_iff (h : Inv z t s) (h2 : 2 ≤ z.card) (hb : CountersBelow z t)
    (hidle : ∀ i, s.producers i = .idle)
    (hloop : s.drain.place = .busy ∨ s.drain.place = .asking) :
    s.drain.place = .busy ∨ t.Emptied ↔ ¬ ActsOnStaleSequence z s := by
  have hok := h.drain_ok
  cases hd : s.drain with
  | loadRunning pos =>
    simp only [hd, Drain.Ok] at hok
    have hstale : ActsOnStaleSequence z s ↔
        (s.shared.cells_ (z.slot pos)).sequence = pos + 1 := by
      simp [ActsOnStaleSequence, hd]
    have hle := h.advanced_le
    rw [hstale, h.head_sequence h2 hb (owns_of_idle hidle) hok, History.Emptied]
    simp only [Drain.place, reduceCtorEq, false_or]
    omega
  | flushSink | exited => simp [hd, Drain.place] at hloop
  | _ => exact iff_of_true (.inl rfl) (by rintro ⟨pos, hpos, -⟩; rw [hd] at hpos; cases hpos)

/-- Nothing is lost: every claimed record was forwarded, and the calls add up. -/
def History.Complete (h : History ι) : Prop :=
  h.forwarded = h.claims.map (fun x => x.2.sinkRecord) ∧
    h.calls.length = h.suppressed.length + h.dropped.length + h.forwarded.length

section
variable [DecidableEq ι]

/-- Whether every claim is passed when the drain thread has left its loop is decided when
`running_` is stored. -/
theorem emptied_iff (h2 : 2 ≤ z.card) (hrun : (machine z).Run tr₁ s₁)
    (hidle : ∀ i, s₁.producers i = .idle) (hoff : s₁.shared.running_ = false)
    (hp : (machine z).Path s₁ tr₂ s₂) (hcalls : ∀ i c, Event.call i c ∉ tr₂)
    (hexit : s₂.drain = .exited) (hb : CountersBelow z (history (tr₁ ++ tr₂))) :
    (history (tr₁ ++ tr₂)).Emptied ↔ s₁.drain.place = .busy ∨ (history tr₁).Emptied := by
  have hend : s₂.life.place ≠ .busy := by simp [State.life, hexit, Drain.place]
  have hquiet {tr : List (Event ι)} {s : State ι} {e : Event ι} {s' : State ι}
      (rest : List (Event ι)) (htr : tr₂ = tr ++ e :: rest) (hp' : (machine z).Path s₁ tr s)
      (hs : (machine z).Step s e s') :=
    (quiet_step hs (idle_of_path hp' hidle fun i c hmem => hcalls i c (by simp [htr, hmem]))
      fun i c hc => hcalls i c (by simp [htr, hc])).2
  have hiff := life_follows.complete_iff (D := fun tr => (history (tr₁ ++ tr)).Emptied) hp hoff
    (fun {tr s e s'} rest htr hp' hs hplace => ?_)
    (fun {tr s e s'} rest htr hp' hs hplace hask => ?_)
    hend
  · rwa [List.append_nil] at hiff
  · have hnote : ∀ t : History ι, t.note e = t := by
      rcases hquiet rest htr hp' hs with ⟨-, hnote⟩ | ⟨f, hf⟩
      · exact hnote
      · exact Drain.note_of_asking hplace hf
    rw [← List.append_assoc, history_snoc, hnote]
  · rcases hquiet rest htr hp' hs with ⟨hsame, -⟩ | ⟨f, hf⟩
    · rw [State.life, hsame] at hask
      exact absurd (hplace.symm.trans hask) (by decide)
    · obtain ⟨⟨pos, hpos, hne⟩, hnote⟩ := Drain.asking_of_step hplace hask hf
      have hidle' := idle_of_path hp' hidle fun i c hmem => hcalls i c (by simp [htr, hmem])
      have hb' : CountersBelow z (history (tr₁ ++ tr)) := by
        rw [htr, ← List.append_assoc] at hb
        exact hb.of_append
      have hi := Inv.of_run (hrun.append hp') h2 hb'
      have hok := hi.drain_ok
      simp only [hpos, Drain.Ok] at hok
      rw [Ne, hi.head_sequence h2 hb' (owns_of_idle hidle') hok] at hne
      rw [← List.append_assoc, history_snoc, hnote]
      exact hi.advanced_le.antisymm (Nat.not_lt.mp hne)

/-- Once the drain thread has ended, nothing is lost if every claim is passed. -/
theorem complete_iff (h : (machine z).Run tr s) (h2 : 2 ≤ z.card)
    (hb : CountersBelow z (history tr)) (hidle : ∀ i, s.producers i = .idle)
    (hexit : s.drain = .exited) : (history tr).Complete ↔ (history tr).Emptied := by
  have hi := Inv.of_run h h2 hb
  have hfwd := hi.forwarded_eq
  simp only [hexit, Drain.pending, Nat.add_zero] at hfwd
  constructor
  · rintro ⟨hall, -⟩
    have hlen := congrArg List.length (hfwd.symm.trans hall)
    have hle := hi.advanced_le
    simp only [List.length_map, List.length_take] at hlen
    rw [History.Emptied]
    omega
  · intro hall
    obtain ⟨hsettled, hpub⟩ := (Ledger.of_run h).idle hidle
    have hcnt := hsettled.length_eq
    rw [hall, List.take_length] at hfwd
    refine ⟨hfwd, ?_⟩
    simp only [List.length_append] at hcnt
    rw [hcnt, hfwd, List.length_map, hpub.length_eq]

/-- **Shutdown.** Take any run in which the destructor starts when all calls of `Log` of all
producers have returned, none is made afterwards, and the drain thread has been joined. Every
claimed record was forwarded, and calls = suppressed + dropped + forwarded, if and only if the
destructor did not store `running_` while the drain thread, having found its cell unpublished and
about to load `running_`, was acting on a sequence that had moved on. -/
theorem claims_survive_shutdown_iff (h2 : 2 ≤ z.card) (h₁ : (machine z).Run tr₁ s₁)
    (hret : ∀ i, s₁.producers i = .idle) (hstop : (machine z).step s₁ .stop = some (s₂, .stop))
    (h₂ : (machine z).Path s₂ tr₂ s) (hcalls : ∀ i c, Event.call i c ∉ tr₂)
    (hjoined : s.destructor = .joined)
    (hb : CountersBelow z (history (tr₁ ++ .stop :: tr₂))) :
    (history (tr₁ ++ .stop :: tr₂)).Complete ∧
        s.shared.dropped_ = .ofNat (history (tr₁ ++ .stop :: tr₂)).dropped.length ↔
      ¬ ActsOnStaleSequence z s₁ := by
  have hrun : (machine z).Run (tr₁ ++ [.stop]) s₂ := h₁.snoc ⟨_, hstop⟩
  have hnote : history (tr₁ ++ [.stop]) = history tr₁ := history_snoc _ _
  have happ : tr₁ ++ .stop :: tr₂ = tr₁ ++ [.stop] ++ tr₂ := by simp
  rw [happ] at hb ⊢
  have hb₁ : CountersBelow z (history tr₁) := by
    rw [← hnote]
    exact hb.of_append
  obtain ⟨hlive, rfl⟩ := stop_eq (z := z) hstop
  have hlife := life_ok h₁
  have hloop := hlife.looping (hlife.flag_iff.mpr (congrArg Destructor.owner hlive))
  have hend := hrun.append h₂
  have hexit : s.drain = .exited :=
    Drain.place_eq_ended ((life_ok hend).joined (congrArg Destructor.owner hjoined))
  rw [and_iff_left (Ledger.of_run hend).dropped_eq,
    complete_iff hend h2 hb (idle_of_path h₂ hret hcalls) hexit,
    emptied_iff h2 hrun hret rfl h₂ hcalls hexit hb, hnote]
  exact (Inv.of_run h₁ h2 hb₁).fresh_iff h2 hb₁ hret hloop

end

/-! ### Two shutdowns of the small logger -/

/-- The destructor joins a drain thread that found its cell unpublished. -/
def leaveAction : List (Action Bool) := [.drain .time, .drain .time, .join]

/-- The destructor starts after the records were forwarded. -/
def closed : Option (List (Event Bool) × State Bool) :=
  (machine twoCells).exec (stopped (delivered.get delivered_isSome).2)
    ([.drain .time, .drain .time] ++ leaveAction)

theorem closed_isSome : closed.isSome := by decide +kernel

theorem closed_events :
    (closed.get closed_isSome).1 = [.drain, .drain, .drain, .drain, .join] := by decide +kernel

theorem claims_survive_shutdown_small :
    (history ((delivered.get delivered_isSome).1 ++
      .stop :: (closed.get closed_isSome).1)).Complete :=
  ((claims_survive_shutdown_iff (by decide) (run_small delivered_isSome) (by decide +kernel) rfl
    (.of_exec_get closed_isSome)
    (fun i c => by
      change Event.call i c ∉ (closed.get closed_isSome).1
      simp [closed_events])
    rfl (by unfold CountersBelow; decide +kernel)).mpr (by rintro ⟨pos, h, -⟩; cases h)).1

/-- The drain thread finds its cell unpublished; then a record is published. -/
def late : Option (List (Event Bool) × State Bool) :=
  (machine twoCells).exec small ([.drain .time, .drain .time] ++ logAction true hello)

theorem late_isSome : late.isSome := by decide +kernel

/-- The destructor starts before the drain thread loads `running_`. -/
def abandoned : Option (List (Event Bool) × State Bool) :=
  (machine twoCells).exec (stopped (late.get late_isSome).2) leaveAction

theorem abandoned_isSome : abandoned.isSome := by decide +kernel

theorem abandoned_events : (abandoned.get abandoned_isSome).1 = [.drain, .drain, .join] := by
  decide +kernel

/-- **A shutdown can lose a claimed record.** -/
theorem claims_lost_at_shutdown :
    ¬ ∀ (z : Pow2Size) (tr₁ tr₂ : List (Event Bool)) (s₁ s₂ s : State Bool), 2 ≤ z.card →
      (machine z).Run tr₁ s₁ → (∀ i, s₁.producers i = .idle) →
      (machine z).step s₁ .stop = some (s₂, .stop) → (machine z).Path s₂ tr₂ s →
      (∀ i c, Event.call i c ∉ tr₂) → s.destructor = .joined →
      CountersBelow z (history (tr₁ ++ .stop :: tr₂)) →
      (history (tr₁ ++ .stop :: tr₂)).Complete := by
  intro h
  have hall : (history ((late.get late_isSome).1 ++
      .stop :: (abandoned.get abandoned_isSome).1)).Complete :=
    h twoCells _ _ _ (stopped _) _ (by decide) (run_small late_isSome) (by decide +kernel) rfl
      (.of_exec_get abandoned_isSome) (fun i c => by simp [abandoned_events]) rfl
      (by unfold CountersBelow; decide +kernel)
  have hlost : (history ((late.get late_isSome).1 ++
      .stop :: (abandoned.get abandoned_isSome).1)).forwarded = [] := by decide +kernel
  have hclaims : (history ((late.get late_isSome).1 ++
      .stop :: (abandoned.get abandoned_isSome).1)).claims = [(true, hello)] := by decide +kernel
  have heq := hlost.symm.trans hall.1
  rw [hclaims] at heq
  cases heq

end MpscRtLogger

end XmSigma
