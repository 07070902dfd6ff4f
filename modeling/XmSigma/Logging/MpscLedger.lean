import XmSigma.Logging.MpscRtLogger
import Mathlib.Data.Finset.Card
import Mathlib.Data.List.Perm.Basic

/-!
# The books of `MpscRtLogger`

Where every call of every producer ends: on the level test, on a full ring, or in a published
cell. Nothing here looks at the ring. The account of one producer is kept by that producer's
steps alone, so the books balance under every schedule, for every capacity and across every wrap
of a counter.

## Main definitions

* `callsOf`: the calls of one producer in a list
* `Account.Ok`: the account of a producer agrees with the program point it is at
* `Log.Effect`: what a step of a producer does to the books

## Main results

* `Ledger.of_run`: the books balance in every state of every run
-/

namespace XmSigma

namespace MpscRtLogger

variable {ι : Type*} {i j : ι} {z : Pow2Size} {t : History ι} {s s' : State ι} {e : Event ι}
  {tr : List (Event ι)}

/-! ### What a step does to the books -/

/-- The call in progress that has not been decided yet. -/
def Log.undecided : Log → List Call
  | .loadLevel c | .loadPos c | .loadSeq c _ | .exchange c _ | .bumpDropped c | .reload c _ => [c]
  | .idle | .assign _ _ _ => []

/-- The call in progress that owns a cell. -/
def Log.writing : Log → List Call
  | .assign c _ _ => [c]
  | _ => []

/-- What a step of producer `i` can do. -/
inductive Log.Effect (z : Pow2Size) (i : ι) (m : Shared) : Log → Shared → Log → Event ι → Prop
  | suppress (c : Call) : Effect z i m (.loadLevel c) m .idle (.suppress i c)
  | drop (c : Call) :
    Effect z i m (.bumpDropped c) { m with dropped_ := m.dropped_ + 1 } .idle (.drop i c)
  | claim (c : Call) (pos : UInt64) (h : m.enqueue_pos_ = pos) :
    Effect z i m (.exchange c pos) { m with enqueue_pos_ := pos + 1 } (.assign c pos assignments)
      (.claim i c)
  | fill (c : Call) (pos : UInt64) (f : Field) (todo : List Field) :
    Effect z i m (.assign c pos (f :: todo))
      { m with
        cells_ := Function.update m.cells_ (z.slot pos)
          { m.cells_ (z.slot pos) with
            toRecord := (m.cells_ (z.slot pos)).toRecord.assign c f } }
      (.assign c pos todo) (.log i)
  | publish (c : Call) (pos : UInt64) :
    Effect z i m (.assign c pos [])
      { m with
        cells_ := Function.update m.cells_ (z.slot pos)
          { m.cells_ (z.slot pos) with sequence := pos + 1 } }
      .idle (.publish i c)
  | silent {p p' : Log} {e : Event ι} (hnote : ∀ t : History ι, t.note e = t) (hp : p ≠ .idle)
      (hp' : p' ≠ .idle) (hundecided : p'.undecided = p.undecided)
      (hwriting : p'.writing = p.writing) : Effect z i m p m p' e

theorem Log.effect_of_step {spurious : Bool} {m m' : Shared} {p p' : Log}
    (hs : p.step z i m spurious = some (m', p', e)) : Log.Effect z i m p m' p' e := by
  cases LogMove.of_step hs with
  | suppress _ => exact .suppress _
  | claim heq => exact .claim _ _ heq
  | bumpDropped => exact .drop _
  | assign => exact .fill _ _ _ _
  | publish => exact .publish _ _
  | _ => exact .silent (fun _ => rfl) (by simp) (by simp) rfl rfl

/-- The calls that have returned. -/
def History.returned (t : History ι) : ℕ :=
  t.suppressed.length + t.dropped.length + t.published.length

/-- A step of a producer ends its call, which is then counted once, or goes on with it. -/
theorem Log.Effect.returned {m m' : Shared} {p p' : Log} (h : Log.Effect z i m p m' p' e)
    (t : History ι) :
    p ≠ .idle ∧ (t.note e).calls = t.calls ∧
      ((p' = .idle ∧ (t.note e).returned = t.returned + 1) ∨
        (p' ≠ .idle ∧ (t.note e).returned = t.returned)) := by
  cases h with
  | silent hnote hp hp' => rw [hnote]; exact ⟨hp, rfl, .inr ⟨hp', rfl⟩⟩
  | claim c pos _ => exact ⟨by simp, rfl, .inr ⟨by simp, rfl⟩⟩
  | fill c pos f todo => exact ⟨by simp, rfl, .inr ⟨by simp, rfl⟩⟩
  | _ =>
    refine ⟨by simp, rfl, .inl ⟨rfl, ?_⟩⟩
    simp only [History.returned, History.note, List.length_append, List.length_singleton]
    omega

/-- The two counters of the books move with the events that stand for them. -/
theorem Log.Effect.counters {m m' : Shared} {p p' : Log} (h : Log.Effect z i m p m' p' e)
    (hdropped : m.dropped_ = .ofNat t.dropped.length)
    (henqueue : m.enqueue_pos_ = .ofNat t.claims.length) :
    m'.dropped_ = .ofNat (t.note e).dropped.length ∧
      m'.enqueue_pos_ = .ofNat (t.note e).claims.length := by
  cases h with
  | silent hnote => rw [hnote]; exact ⟨hdropped, henqueue⟩
  | claim c pos hpos => exact ⟨hdropped, by simp [History.note, ← hpos, henqueue]⟩
  | drop c => exact ⟨by simp [History.note, hdropped], henqueue⟩
  | _ => exact ⟨hdropped, henqueue⟩

/-- Two histories with the same books. -/
structure History.SameBooks (t t' : History ι) : Prop where
  calls : t'.calls = t.calls
  suppressed : t'.suppressed = t.suppressed
  dropped : t'.dropped = t.dropped
  claims : t'.claims = t.claims
  published : t'.published = t.published

/-- What a step of the drain thread leaves alone. -/
theorem Drain.step_frame {m m' : Shared} {p p' : Drain} {f : Field}
    (hs : p.step z m f = some (m', p', e)) (t : History ι) :
    t.SameBooks (t.note e) ∧ m'.dropped_ = m.dropped_ ∧ m'.enqueue_pos_ = m.enqueue_pos_ := by
  cases DrainMove.of_step hs <;> exact ⟨⟨rfl, rfl, rfl, rfl, rfl⟩, rfl, rfl⟩

variable [DecidableEq ι]

/-! ### The calls of one producer -/

/-- The calls of producer `i`, in order. -/
def callsOf (i : ι) (l : List (ι × Call)) : List Call := (l.filter fun x => x.1 = i).map Prod.snd

@[simp] theorem callsOf_append (l l' : List (ι × Call)) :
    callsOf i (l ++ l') = callsOf i l ++ callsOf i l' := by
  simp [callsOf]

@[simp] theorem callsOf_self (c : Call) : callsOf i [(i, c)] = [c] := by simp [callsOf]

theorem callsOf_of_ne (h : j ≠ i) (c : Call) : callsOf i [(j, c)] = [] := by simp [callsOf, h]

theorem callsOf_sublist {l l' : List (ι × Call)} (h : l.Sublist l') :
    (callsOf i l).Sublist (callsOf i l') :=
  (h.filter _).map _

theorem count_callsOf (i : ι) (c : Call) (l : List (ι × Call)) :
    (callsOf i l).count c = l.count (i, c) := by
  induction l with
  | nil => rfl
  | cons x l ih =>
    obtain ⟨j, d⟩ := x
    rw [← List.singleton_append, callsOf_append, List.count_append, List.count_append, ih]
    by_cases hji : j = i
    · subst hji
      by_cases hdc : d = c <;> simp [hdc]
    · simp [callsOf_of_ne hji, hji]

/-- Lists in which every producer has the same calls have the same calls. -/
theorem perm_of_callsOf {l l' : List (ι × Call)}
    (h : ∀ i, (callsOf i l).Perm (callsOf i l')) : l.Perm l' := by
  refine List.perm_iff_count.mpr fun x => ?_
  obtain ⟨i, c⟩ := x
  rw [← count_callsOf, ← count_callsOf, (h i).count_eq]

/-! ### Accounts -/

/-- The history of one producer. -/
structure Account where
  calls : List Call
  suppressed : List Call
  dropped : List Call
  claims : List Call
  published : List Call

/-- The account of producer `i`. -/
def History.account (t : History ι) (i : ι) : Account where
  calls := callsOf i t.calls
  suppressed := callsOf i t.suppressed
  dropped := callsOf i t.dropped
  claims := callsOf i t.claims
  published := callsOf i t.published

/-- The account of a producer at program point `p`. -/
structure Account.Ok (a : Account) (p : Log) : Prop where
  /-- Every call is settled in exactly one way, or in progress. -/
  settled : a.calls.Perm (a.suppressed ++ a.dropped ++ a.published ++ p.writing ++ p.undecided)
  /-- Cells are claimed in the order of the calls. -/
  order : (a.claims ++ p.undecided).Sublist a.calls
  /-- Every claim is published, or being written. -/
  claims_eq : a.claims = a.published ++ p.writing

namespace Account.Ok

variable {a : Account} {p p' : Log} {c : Call}

theorem call (h : a.Ok .idle) (c : Call) :
    Account.Ok { a with calls := a.calls ++ [c] } (.loadLevel c) where
  settled := by simpa [Log.writing, Log.undecided] using h.settled.append_right [c]
  order := (by simpa [Log.undecided] using h.order : a.claims.Sublist a.calls).append
    (List.Sublist.refl [c])
  claims_eq := h.claims_eq

theorem suppress (h : a.Ok (.loadLevel c)) :
    Account.Ok { a with suppressed := a.suppressed ++ [c] } .idle where
  settled := h.settled.trans (List.perm_iff_count.mpr fun x => by
    simp only [Log.writing, Log.undecided, List.count_append, List.count_nil]
    omega)
  order := (List.append_nil a.claims).symm ▸ (List.sublist_append_left ..).trans h.order
  claims_eq := h.claims_eq

theorem drop (h : a.Ok (.bumpDropped c)) :
    Account.Ok { a with dropped := a.dropped ++ [c] } .idle where
  settled := h.settled.trans (List.perm_iff_count.mpr fun x => by
    simp only [Log.writing, Log.undecided, List.count_append, List.count_nil]
    omega)
  order := (List.append_nil a.claims).symm ▸ (List.sublist_append_left ..).trans h.order
  claims_eq := h.claims_eq

theorem claim {pos : UInt64} (h : a.Ok (.exchange c pos)) (todo : List Field) :
    Account.Ok { a with claims := a.claims ++ [c] } (.assign c pos todo) where
  settled := h.settled.trans (List.perm_iff_count.mpr fun x => by
    simp only [Log.writing, Log.undecided, List.count_append, List.count_nil]
    omega)
  order := (List.append_nil (a.claims ++ [c])).symm ▸ h.order
  claims_eq := by simp [h.claims_eq, Log.writing]

theorem publish {pos : UInt64} {todo : List Field} (h : a.Ok (.assign c pos todo)) :
    Account.Ok { a with published := a.published ++ [c] } .idle where
  settled := h.settled.trans (List.perm_iff_count.mpr fun x => by
    simp only [Log.writing, Log.undecided, List.count_append, List.count_nil]
    omega)
  order := h.order
  claims_eq := by simp [h.claims_eq, Log.writing]

theorem congr (h : a.Ok p) (hundecided : p'.undecided = p.undecided)
    (hwriting : p'.writing = p.writing) : a.Ok p' where
  settled := by rw [hundecided, hwriting]; exact h.settled
  order := by rw [hundecided]; exact h.order
  claims_eq := by rw [hwriting]; exact h.claims_eq

end Account.Ok

/-- A step of one producer leaves the accounts of the others alone. -/
theorem Log.Effect.account_of_ne {m m' : Shared} {p p' : Log}
    (h : Log.Effect z i m p m' p' e) (hj : i ≠ j) : (t.note e).account j = t.account j := by
  cases h with
  | silent hnote => rw [hnote]
  | _ => simp [History.account, History.note, callsOf_of_ne hj]

/-- A step of a producer keeps its account. -/
theorem Log.Effect.account {m m' : Shared} {p p' : Log}
    (h : Log.Effect z i m p m' p' e) (ha : (t.account i).Ok p) : ((t.note e).account i).Ok p' := by
  cases h with
  | suppress c => simpa [History.account, History.note] using ha.suppress
  | drop c => simpa [History.account, History.note] using ha.drop
  | claim c pos _ => simpa [History.account, History.note] using ha.claim assignments
  | fill c pos f todo => exact ha.congr rfl rfl
  | publish c pos => simpa [History.account, History.note] using ha.publish
  | silent hnote _ _ hundecided hwriting =>
    rw [hnote]
    exact ha.congr hundecided hwriting

/-! ### The books -/

/-- `A` is the set of producers with a call in progress. -/
def Active (A : Finset ι) (producers : ι → Log) : Prop := ∀ i, i ∈ A ↔ producers i ≠ .idle

/-- What holds in every state of every run, `t` being the history of the run. -/
structure Ledger (t : History ι) (s : State ι) : Prop where
  account : ∀ i, (t.account i).Ok (s.producers i)
  active : ∃ A, Active A s.producers ∧ t.calls.length = t.returned + A.card
  dropped_eq : s.shared.dropped_ = .ofNat t.dropped.length
  enqueue_eq : s.shared.enqueue_pos_ = .ofNat t.claims.length

theorem Active.update_idle {A : Finset ι} {producers : ι → Log} (h : Active A producers) :
    Active (A.erase i) (Function.update producers i .idle) := by
  intro j
  by_cases hj : j = i
  · subst hj
    simp
  · simp [hj, h j]

theorem Active.update {A : Finset ι} {producers : ι → Log} {p : Log} (h : Active A producers)
    (hp : p ≠ .idle) : Active (insert i A) (Function.update producers i p) := by
  intro j
  by_cases hj : j = i
  · subst hj
    simpa using hp
  · simp [hj, h j]

theorem Ledger.log_step {m : Shared} {p : Log} (h : Ledger t s)
    (he : Log.Effect z i s.shared (s.producers i) m p e) :
    Ledger (t.note e) { s with shared := m, producers := Function.update s.producers i p } := by
  obtain ⟨hdropped, henqueue⟩ := he.counters h.dropped_eq h.enqueue_eq
  refine ⟨fun j => ?_, ?_, hdropped, henqueue⟩
  · by_cases hj : j = i
    · subst hj
      simpa only [Function.update_self] using he.account (h.account j)
    · rw [he.account_of_ne (Ne.symm hj)]
      simpa only [Function.update_of_ne hj] using h.account j
  · obtain ⟨A, hA, hcard⟩ := h.active
    obtain ⟨hp, hcalls, hcase⟩ := he.returned t
    have hmem : i ∈ A := (hA i).mpr hp
    rw [hcalls, hcard]
    rcases hcase with ⟨rfl, hret⟩ | ⟨hne, hret⟩
    · refine ⟨A.erase i, hA.update_idle, ?_⟩
      have hpos := Finset.card_pos.mpr ⟨i, hmem⟩
      rw [hret, Finset.card_erase_of_mem hmem]
      omega
    · exact ⟨insert i A, hA.update hne, by rw [hret, Finset.insert_eq_of_mem hmem]⟩

theorem Ledger.call (h : Ledger t s) (hi : s.producers i = .idle) (c : Call) :
    Ledger (t.note (.call i c))
      { s with producers := Function.update s.producers i (.loadLevel c) } := by
  refine ⟨fun j => ?_, ?_, h.dropped_eq, h.enqueue_eq⟩
  · have ha := h.account j
    by_cases hj : j = i
    · subst hj
      rw [hi] at ha
      simpa [History.account, History.note] using ha.call c
    · simpa [History.account, History.note, hj, callsOf_of_ne (Ne.symm hj)] using ha
  · obtain ⟨A, hA, hcard⟩ := h.active
    have hmem : i ∉ A := fun hmem => (hA i).mp hmem hi
    refine ⟨insert i A, hA.update (by simp), ?_⟩
    rw [Finset.card_insert_of_notMem hmem]
    simp only [History.note, History.returned, List.length_append, List.length_singleton] at *
    omega

/-- Steps that are not a producer's do not show in the books. -/
theorem Ledger.frame {t' : History ι} (h : Ledger t s) (hb : t.SameBooks t')
    (hproducers : s'.producers = s.producers) (hdropped : s'.shared.dropped_ = s.shared.dropped_)
    (henqueue : s'.shared.enqueue_pos_ = s.shared.enqueue_pos_) : Ledger t' s' := by
  obtain ⟨hcalls, hsup, hdrop, hclaims, hpub⟩ := hb
  refine ⟨fun i => ?_, ?_, by rw [hdropped, hdrop, h.dropped_eq], by
    rw [henqueue, hclaims, h.enqueue_eq]⟩
  · rw [hproducers, History.account, hcalls, hsup, hdrop, hclaims, hpub]
    exact h.account i
  · rw [hproducers, History.returned, hcalls, hsup, hdrop, hpub]
    exact h.active

theorem Ledger.step (h : Ledger t s) (hs : (machine z).Step s e s') : Ledger (t.note e) s' := by
  have hsame : t.SameBooks t := ⟨rfl, rfl, rfl, rfl, rfl⟩
  cases Move.of_step hs with
  | call i c hi => exact h.call hi c
  | log i spurious hp => exact h.log_step (Log.effect_of_step hp)
  | drain f hp =>
    obtain ⟨hb, hdropped, henqueue⟩ := Drain.step_frame hp t
    exact h.frame hb rfl hdropped henqueue
  | _ => exact h.frame hsame rfl rfl rfl

theorem Ledger.initial (raw : ℕ → Vector UInt8 kMaxMsgLen) (level : LogLevel) :
    Ledger {} (MpscRtLogger.initial raw level : State ι) where
  account _ := ⟨.refl _, .refl _, rfl⟩
  active := ⟨∅, by simp [Active, MpscRtLogger.initial], rfl⟩
  dropped_eq := rfl
  enqueue_eq := rfl

/-- **The books balance in every state of every run.** -/
theorem Ledger.of_run (h : (machine z).Run tr s) : Ledger (history tr) s := by
  refine h.rule (I := fun tr s => Ledger (history tr) s) ?_ fun hi hs => ?_
  · rintro s ⟨raw, level, rfl⟩
    exact Ledger.initial raw level
  · rw [history_snoc]
    exact hi.step hs

/-! ### Consequences -/

/-- Where every producer is idle, the calls are those suppressed, dropped or published, and every
claim was published. -/
theorem Ledger.idle (h : Ledger t s) (hidle : ∀ i, s.producers i = .idle) :
    t.calls.Perm (t.suppressed ++ t.dropped ++ t.published) ∧ t.claims.Perm t.published := by
  refine ⟨perm_of_callsOf fun i => ?_, perm_of_callsOf fun i => ?_⟩
  · have := (h.account i).settled
    rw [hidle i] at this
    simpa [History.account, Log.writing, Log.undecided] using this
  · have := (h.account i).claims_eq
    rw [hidle i] at this
    simp only [History.account, Log.writing, List.append_nil] at this
    rw [this]

/-- Each producer claims its cells in the order of its calls. -/
theorem Ledger.claims_sublist (h : Ledger t s) (i : ι) :
    (callsOf i t.claims).Sublist (callsOf i t.calls) :=
  (List.sublist_append_left ..).trans (h.account i).order

end MpscRtLogger

end XmSigma
