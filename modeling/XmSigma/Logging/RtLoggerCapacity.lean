import XmSigma.Logging.RtLoggerDelivery
import XmSigma.Logging.RtLoggerSerial

/-!
# When `RtLogger` drops a record

The full test of `Log` reads `tail_` once, and what it finds decides the call: no later step of any
thread changes whether the record is dropped or published. The test is exact. It fails only where
every slot holds a record that is not yet released, so all `capacity_` slots are usable, and where
it succeeds the slot at `head_` holds nothing the drain thread still has to read.

## Main results

* `drops_exactly_when_full`: when a call is dropped, and which slot it writes otherwise
-/

namespace XmSigma

namespace RtLogger

variable {z : Pow2Size} {s s₁ s₂ : State} {e : Event} {tr tr₁ : List Event} {c : Call}

/-- The records published and not yet released, oldest first. -/
def History.unreleased (h : History) : List Call := h.published.drop h.released

theorem Inv.length_unreleased {t : History} (h : Inv z t s) :
    t.released + t.unreleased.length = t.published.length := by
  have hle := h.released_le
  rw [History.unreleased, List.length_drop]
  omega

/-- The two indices are the number of unreleased records apart. -/
theorem Inv.toNat_head_sub_tail {t : History} (h : Inv z t s) :
    (s.shared.head_ - s.shared.tail_).toNat = t.unreleased.length := by
  have hub := h.published_le
  have hcard := z.card_le
  rw [h.head_eq, h.tail_eq, toNat_ofNat_sub h.released_le (by omega), History.unreleased,
    List.length_drop]

/-! ### A call past the full test -/

/-- The call has been decided, or is over. -/
def Log.settled : Log → Prop
  | .idle | .bumpDropped _ | .assign _ _ _ => True
  | _ => False

/-- The call that is still to count itself as dropped. -/
def Log.dropping : Log → List Call
  | .bumpDropped c => [c]
  | _ => []

/-- The call that is still to publish its record. -/
def Log.publishing : Log → List Call
  | .assign c _ _ => [c]
  | _ => []

/-- A decided call does what was decided, once. -/
theorem Log.settled_step {m m' : Shared} {p p' : Log} (h : p.settled)
    (hs : p.step z m = some (m', p', e)) (t : History) :
    p'.settled ∧ (t.note e).dropped ++ p'.dropping = t.dropped ++ p.dropping ∧
      (t.note e).published ++ p'.publishing = t.published ++ p.publishing := by
  cases LogMove.of_step hs with
  | bumpDropped => exact ⟨trivial, by simp [History.note, dropping], rfl⟩
  | assign => exact ⟨trivial, rfl, rfl⟩
  | publish => exact ⟨trivial, rfl, by simp [History.note, publishing]⟩
  | _ => exact h.elim

/-- The drain thread neither drops nor publishes. -/
theorem Drain.note_frame {m m' : Shared} {p p' : Drain} {f : Field}
    (hs : p.step z m f = some (m', p', e)) (t : History) :
    (t.note e).dropped = t.dropped ∧ (t.note e).published = t.published := by
  cases DrainMove.of_step hs <;> exact ⟨rfl, rfl⟩

/-- As long as no other call is made, what is dropped and published is what was decided. -/
theorem settled_path (hp : (machine z).Path s tr s₁) (hs : s.log.settled)
    (hcalls : ∀ d, Event.call d ∉ tr) :
    s₁.log.settled ∧ (history tr).dropped ++ s₁.log.dropping = s.log.dropping ∧
      (history tr).published ++ s₁.log.publishing = s.log.publishing := by
  refine hp.rule (Q := fun e => ∀ d, e ≠ .call d)
    (I := fun tr s₁ => s₁.log.settled ∧
      (history tr).dropped ++ s₁.log.dropping = s.log.dropping ∧
      (history tr).published ++ s₁.log.publishing = s.log.publishing)
    (fun e he d hd => hcalls d (hd ▸ he)) ⟨hs, rfl, rfl⟩ fun {tr s₁ e s₂} he hi hstep => ?_
  obtain ⟨hsettled, hdropped, hpublished⟩ := hi
  rw [history_snoc]
  cases Move.of_step hstep with
  | call d _ => exact absurd rfl (he d)
  | log hlog =>
    obtain ⟨hsettled', hdropped', hpublished'⟩ := Log.settled_step hsettled hlog (history tr)
    exact ⟨hsettled', hdropped'.trans hdropped, hpublished'.trans hpublished⟩
  | drain f hdrain =>
    obtain ⟨hdropped', hpublished'⟩ := Drain.note_frame hdrain (history tr)
    exact ⟨hsettled, by rw [hdropped', hdropped], by rw [hpublished', hpublished]⟩
  | _ => exact ⟨hsettled, hdropped, hpublished⟩

/-! ### Filling the ring -/

/-- A step of the producer, from the program point `p`. -/
theorem step_log {p p' : Log} {m : Shared} (h : p.step z s.shared = some (m, p', e)) :
    (machine z).Step { s with log := p } e { s with shared := m, log := p' } :=
  ⟨.log, by simp [machine, step, h]⟩

/-- From the full test on, a producer can go on to publish. -/
theorem fill_path (s : State) (c : Call) (head : UInt64) (todo : List Field) :
    (machine z).Path { s with log := .assign c head todo }
      (List.replicate todo.length .log ++ [.publish c])
      { s with shared := s.shared.write z c head todo, log := .idle } := by
  induction todo generalizing s with
  | nil =>
    simpa [Shared.write] using
      (step_log (z := z) (s := s) (p := .assign c head []) rfl).path
  | cons f todo ih =>
    refine .cons (step_log rfl) ?_
    have hpath := ih { s with
      shared := { s.shared with
        ring_ := Function.update s.shared.ring_ (z.slot head)
          ((s.shared.ring_ (z.slot head)).assign c f) } }
    simpa [Shared.write] using hpath

/-- What an accepted call reports. -/
def acceptEvents (c : Call) : List Event :=
  [.call c, .log, .log, .log] ++ (List.replicate assignments.length .log ++ [.publish c])

/-- A whole call that finds a free slot. -/
theorem accepted_path (hl : s.log = .idle) (hlevel : ¬ c.level < s.shared.min_level_)
    (hroom : ¬ z.size ≤ s.shared.head_ - s.shared.tail_) :
    (machine z).Path s (acceptEvents c)
      { s with shared := s.shared.write z c s.shared.head_ assignments } := by
  have hcall : (machine z).Step s (.call c) { s with log := .loadLevel c } :=
    ⟨.call c, by simp only [machine, step, hl]⟩
  have hfill := fill_path (z := z) s c s.shared.head_ assignments
  rw [← hl] at hfill
  exact
    .cons hcall <|
    .cons (step_log (if_neg hlevel)) <|
    .cons (step_log rfl) <|
    .cons (step_log (if_neg hroom)) hfill

theorem history_accept (tr : List Event) (c : Call) :
    history (tr ++ acceptEvents c) =
      { history tr with
        calls := (history tr).calls ++ [c], published := (history tr).published ++ [c] } := by
  rw [history, List.foldl_append]
  rfl

/-- A producer can publish `n` records before the first is released, for any `n` up to the
capacity. -/
theorem exists_unreleased {n : ℕ} (hn : n ≤ z.card) :
    ∃ tr s, (machine z).Run tr s ∧ s.log = .idle ∧ s.shared.min_level_ = .kTrace ∧
      (history tr).published.length = n ∧ (history tr).released = 0 ∧
      (history tr).dropped = [] := by
  induction n with
  | zero =>
    exact ⟨[], initial (fun _ => Vector.replicate _ 0) .kTrace, ⟨_, ⟨_, _, rfl⟩, .refl⟩,
      rfl, rfl, rfl, rfl, rfl⟩
  | succ n ih =>
    obtain ⟨tr, s, hrun, hidle, hlevel, hlen, hreleased, hdropped⟩ := ih (by omega)
    have hi := Inv.of_run hrun
    have hroom : ¬ z.size ≤ s.shared.head_ - s.shared.tail_ := by
      rw [hi.head_eq, hi.full_iff]
      omega
    have hpath := accepted_path (c := hello) hidle (by rw [hlevel]; decide) hroom
    refine ⟨_, _, hrun.append hpath, hidle, hlevel, ?_, ?_, ?_⟩ <;> rw [history_accept]
    · rw [List.length_append, hlen, List.length_singleton]
    · exact hreleased
    · exact hdropped

/-! ### The result -/

/-- The load of `tail_` decides the call by the number of unreleased records. -/
theorem Inv.loadTail {t : History} {head : UInt64} (h : Inv z t s) (hl : s.log = .loadTail c head)
    (hs : (machine z).step s .log = some (s₁, e)) :
    s₁.log = if t.unreleased.length = z.card then .bumpDropped c
      else .assign c head assignments := by
  have hok := h.log_ok
  have hlen := h.length_unreleased
  have hub := h.published_le
  simp only [hl, Log.Ok] at hok
  subst hok
  have hfull : z.size ≤ UInt64.ofNat t.published.length - s.shared.tail_ ↔
      t.unreleased.length = z.card := by
    rw [h.full_iff]
    omega
  simp only [machine, RtLogger.step, hl, Log.step, hfull] at hs
  split at hs <;> cases hs
  next hcond => rw [if_pos hcond]
  next hcond => rw [if_neg hcond]

/-- **Dropping.** In every reachable state the two indices are at most the capacity apart. A call
that passed the level test and now loads `tail_` drops its record if exactly `capacity_` records
are published and unreleased, and publishes it otherwise, whatever the other threads do until it
returns. The slot it writes is neither the one the drain thread is reading nor that of any record
it has yet to release. And all `capacity_` slots can be filled. -/
theorem drops_exactly_when_full (h : (machine z).Run tr s) :
    (s.shared.head_ - s.shared.tail_).toNat ≤ z.card ∧
    (∀ c head s₁ e, s.log = .loadTail c head → (machine z).step s .log = some (s₁, e) →
      ∀ tr₁ s₂, (machine z).Path s₁ tr₁ s₂ → (∀ d, Event.call d ∉ tr₁) → s₂.log = .idle →
        if (history tr).unreleased.length = z.card then
          (history tr₁).dropped = [c] ∧ (history tr₁).published = []
        else (history tr₁).dropped = [] ∧ (history tr₁).published = [c]) ∧
    (∀ c head todo, s.log = .assign c head todo →
      (∀ tail v, s.drain = .read tail v → z.slot tail ≠ z.slot head) ∧
      ∀ q, (history tr).released ≤ q → q < (history tr).published.length →
        z.slot (.ofNat q) ≠ z.slot head) ∧
    ∃ tr' s', (machine z).Run tr' s' ∧ (history tr').unreleased.length = z.card ∧
      (history tr').dropped = [] := by
  have hi := Inv.of_run h
  have hunread (c : Call) (head : UInt64) (todo : List Field) (hl : s.log = .assign c head todo)
      (q : ℕ) (hlo : (history tr).released ≤ q) (hhi : q < (history tr).published.length) :
      z.slot (.ofNat q) ≠ z.slot head := by
    have hok := hi.log_ok
    simp only [hl, Log.Ok] at hok
    obtain ⟨rfl, hlt, -⟩ := hok
    rw [z.slot_ofNat, z.slot_ofNat]
    intro heq
    exact hhi.ne (z.slot_inj hlo (by omega) hi.released_le hlt heq)
  refine ⟨?_, fun c head s₁ e hl hs tr₁ s₂ hp hcalls hidle => ?_, fun c head todo hl =>
    ⟨fun tail v hd => ?_, hunread c head todo hl⟩, ?_⟩
  · have hlen := hi.length_unreleased
    have hub := hi.published_le
    rw [hi.toNat_head_sub_tail]
    omega
  · have hlog := hi.loadTail hl hs
    have hsettled : s₁.log.settled := by
      rw [hlog]
      split <;> trivial
    obtain ⟨-, hdropped, hpublished⟩ := settled_path hp hsettled hcalls
    simp only [hidle, Log.dropping, Log.publishing, List.append_nil] at hdropped hpublished
    rw [hdropped, hpublished, hlog]
    split <;> exact ⟨rfl, rfl⟩
  · have hok := hi.drain_ok
    simp only [hd, Drain.Ok] at hok
    obtain ⟨rfl, d, hget, -⟩ := hok
    obtain ⟨hlt, -⟩ := List.getElem?_eq_some_iff.mp hget
    exact hunread c head todo hl _ le_rfl hlt
  · obtain ⟨tr', s', hrun, -, -, hlen, hreleased, hdropped⟩ := exists_unreleased (z := z) le_rfl
    have hunreleased := (Inv.of_run hrun).length_unreleased
    exact ⟨tr', s', hrun, by omega, hdropped⟩

/-- Two calls fill the ring of two slots; a third comes to its load of `tail_`. -/
def filled : Option (List Event × State) :=
  (machine twoSlots).exec small
    (logAction hello ++ logAction hello ++ [.call hello, .log, .log])

theorem filled_isSome : filled.isSome := by decide +kernel

/-- The third call returns, with the drain thread running meanwhile. -/
def refused : Option (List Event × State) :=
  (machine twoSlots).exec
    { (filled.get filled_isSome).2 with log := .bumpDropped hello } (drainAction ++ [.log])

theorem refused_isSome : refused.isSome := by decide +kernel

theorem refused_events : (refused.get refused_isSome).1 =
    [.drain, .drain, .drain, .drain, .drain, .forward hello.sinkRecord, .release, .drop hello] :=
  rfl

theorem drops_exactly_when_full_small :
    (history (refused.get refused_isSome).1).dropped = [hello] ∧
      (history (refused.get refused_isSome).1).published = [] :=
  (drops_exactly_when_full (run_small filled_isSome)).2.1 hello 2 _ _ rfl rfl _ _
    (.of_exec_get refused_isSome) (fun d => by simp [refused_events]) rfl

end RtLogger

end XmSigma
