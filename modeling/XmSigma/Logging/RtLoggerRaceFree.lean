import XmSigma.Lib.HappensBefore
import XmSigma.Logging.RtLoggerCapacity

/-!
# No data race in the ring of `RtLogger`

The records are ordinary memory: nothing but the memory orders of the accesses to the two indices
keeps an assignment of the producer and a read of the drain thread apart. Here each step also says
which access it is, and with which order, so that it can be asked which accesses are ordered by
happens-before.

The records are passed on. The producer knows all accesses to the slot it fills, `head_` carries
those to the slots published, the drain thread knows those to the slot it reads, and `tail_` carries
those to the slots that are free.

The four orders with which the two indices are published and acquired are a parameter, so that it
can be said of each that it is needed.

## Main definitions

* `access`: the access a step makes
* `Guard`: who answers for which slot

## Main results

* `race_free_iff_orders`: there is no data race exactly because of the four orders in the source
-/

namespace XmSigma

namespace RtLogger

/-! ### The accesses -/

/-- The threads. A call of `SetLevel`, by whatever thread, is an access of `setter`. -/
inductive Thread
  | producer
  | drain
  | flush
  | setter
  | destructor
  deriving DecidableEq

/-- The atomic members. -/
inductive Member
  | min_level_
  | head_
  | tail_
  | dropped_
  | running_
  deriving DecidableEq

/-- A field of the record in a slot. -/
abbrev Place : Type := ℕ × Field

/-- The orders with which `Log` and `DrainLoop` access the two indices: whether the stores release
and the loads of the other thread's index acquire. -/
structure Orders where
  headStore : Bool
  headLoad : Bool
  tailStore : Bool
  tailLoad : Bool
  deriving DecidableEq

/-- The orders in the source. -/
def Orders.source : Orders := ⟨true, true, true, true⟩

/-- The access of the producer. -/
def Log.access (o : Orders) (z : Pow2Size) : Log → MemAccess Thread Member Place
  | .idle => .silent .producer
  | .loadLevel _ => .load .producer .min_level_ false
  | .loadHead _ => .load .producer .head_ false
  | .loadTail _ _ => .load .producer .tail_ o.tailLoad
  | .bumpDropped _ => .update .producer .dropped_
  | .assign _ head (f :: _) => .plain .producer (z.slot head, f)
  | .assign _ _ [] => .store .producer .head_ o.headStore

/-- The access of the drain thread, if `f` is the argument it evaluates next. -/
def Drain.access (o : Orders) (z : Pow2Size) (f : Field) : Drain → MemAccess Thread Member Place
  | .loadTail => .load .drain .tail_ false
  | .loadHead _ => .load .drain .head_ o.headLoad
  | .loadRunning _ => .load .drain .running_ true
  | .read tail _ => .plain .drain (z.slot tail, f)
  | .storeTail _ => .store .drain .tail_ o.tailStore
  | .flushSink | .exited => .silent .drain

/-- The access of a thread in `Flush`. -/
def Flush.access (tailFirst : Bool) : Flush → MemAccess Thread Member Place
  | .idle | .flushSink => .silent .flush
  | .compare => .load .flush (if tailFirst then .tail_ else .head_) true
  | .loadedTail _ => .load .flush .head_ true
  | .loadedHead _ => .load .flush .tail_ true

/-- The access a step makes. -/
def access (o : Orders) (z : Pow2Size) (s : State) : Action → MemAccess Thread Member Place
  | .call _ => .silent .producer
  | .log => s.log.access o z
  | .setLevel _ => .store .setter .min_level_ false
  | .drain f => s.drain.access o z f
  | .flush tailFirst => s.flush.access tailFirst
  | .stop => .store .destructor .running_ true
  | .join => .silent .destructor

/-- The logger, with the accesses its steps make. -/
def accesses (o : Orders) (z : Pow2Size) :
    Machine State Action (Event × MemAccess Thread Member Place) :=
  (machine z).annotate (access o z)

/-! ### Who answers for a slot -/

variable {z : Pow2Size} {o : Orders} {s s' : State} {e : Event} {t : History}
  {b : MemAccess Thread Member Place} {es : List (MemAccess Thread Member Place)} {n r i j x : ℕ}

/-- How many slots the producer has to fill. -/
def Log.holding : Log → ℕ
  | .assign _ _ _ => 1
  | _ => 0

/-- How many slots the drain thread has to read. -/
def Drain.holding : Drain → ℕ
  | .read _ _ | .storeTail _ => 1
  | _ => 0

/-- Who answers for which slot, after `n` publications and `r` releases: the producer holds the next
`i` slots, the drain thread the oldest `j`. -/
inductive Guard (z : Pow2Size) (n r i j : ℕ) : Place → Keeper Thread Member → Prop
  | filling (hi : i = 1) (f : Field) : Guard z n r i j (n % z.card, f) (.thread .producer)
  | reading (hj : j = 1) (f : Field) : Guard z n r i j (r % z.card, f) (.thread .drain)
  /-- Handed to the drain thread; the producer still knows what it handed on. -/
  | published (q : ℕ) (hq : r + j ≤ q) (hn : q < n) (f : Field) (c : Keeper Thread Member)
    (hc : c = .var .head_ ∨ c = .thread .producer) : Guard z n r i j (q % z.card, f) c
  /-- Handed back to the producer. -/
  | free (q : ℕ) (hq : n + i ≤ q) (hr : q < r + z.card) (f : Field) (c : Keeper Thread Member)
    (hc : c = .var .tail_ ∨ c = .thread .drain) : Guard z n r i j (q % z.card, f) c

/-- An access that touches no record and stores neither index. -/
def Neutral : MemAccess Thread Member Place → Prop
  | .plain _ _ => False
  | .store _ l _ => l ≠ .head_ ∧ l ≠ .tail_
  | _ => True

theorem Guard.head_or_tail {x : Place} {l : Member} (h : Guard z n r i j x (.var l)) :
    l = .head_ ∨ l = .tail_ := by
  cases h with
  | published q hq hn f _ hc => exact .inl (by simpa using hc)
  | free q hq hr f _ hc => exact .inr (by simpa using hc)

theorem Guard.neutral (h : Custody es (Guard z n r i j)) (hb : Neutral b) :
    Custody (es ++ [b]) (Guard z n r i j) := by
  refine h.snoc_of_le (fun k x hk => ?_) (fun _ _ => id) fun x l hx hl => ?_
  · subst hk
    exact hb
  · cases b with
    | store k l' release =>
      obtain rfl : l' = l := hl
      exact hx.head_or_tail.elim hb.1 hb.2
    | _ => exact hl

/-- The producer has found a free slot. -/
theorem Guard.acquireFree (h : Custody es (Guard z n r 0 j)) (hroom : n < r + z.card) :
    Custody (es ++ [.load .producer .tail_ true]) (Guard z n r 1 j) := by
  refine h.snoc nofun fun x c hc => ?_
  cases hc with
  | filling _ f => exact .acquire (.free n le_rfl hroom f _ (.inl rfl)) rfl
  | reading hj f => exact .keep (.reading hj f) nofun fun _ _ => id
  | published q hq hn f _ hc => exact .keep (.published q hq hn f _ hc) nofun fun _ _ => id
  | free q hq hr f _ hc => exact .keep (.free q (by omega) hr f _ hc) nofun fun _ _ => id

/-- The drain thread has found a record. -/
theorem Guard.acquirePublished (h : Custody es (Guard z n r i 0)) (hsome : r < n) :
    Custody (es ++ [.load .drain .head_ true]) (Guard z n r i 1) := by
  refine h.snoc nofun fun x c hc => ?_
  cases hc with
  | filling hi f => exact .keep (.filling hi f) nofun fun _ _ => id
  | reading _ f => exact .acquire (.published r le_rfl hsome f _ (.inl rfl)) rfl
  | published q hq hn f _ hc => exact .keep (.published q (by omega) hn f _ hc) nofun fun _ _ => id
  | free q hq hr f _ hc => exact .keep (.free q hq hr f _ hc) nofun fun _ _ => id

/-- The store of `head_` hands on all that the producer has published. -/
theorem Guard.publish (h : Custody es (Guard z n r 1 j)) :
    Custody (es ++ [.store .producer .head_ true]) (Guard z (n + 1) r 0 j) := by
  refine h.snoc nofun fun x c hc => ?_
  cases hc with
  | filling hi f => cases hi
  | reading hj f => exact .know (.reading hj f) nofun
  | published q hq hn f _ hc =>
    have hknown : Guard z n r 1 j (q % z.card, f) (.thread .producer) := by
      rcases Nat.lt_or_eq_of_le (Nat.le_of_lt_succ hn) with hlt | rfl
      · exact .published q hq hlt f _ (.inr rfl)
      · exact .filling rfl f
    rcases hc with rfl | rfl
    · exact .release hknown rfl
    · exact .know hknown nofun
  | free q hq hr f _ hc =>
    refine .keep (.free q (by omega) hr f _ hc) nofun ?_
    rintro l rfl
    obtain rfl : l = .tail_ := by simpa using hc
    exact nofun

/-- The store of `tail_` hands back all that the drain thread has released. -/
theorem Guard.release (h : Custody es (Guard z n r i 1)) :
    Custody (es ++ [.store .drain .tail_ true]) (Guard z n (r + 1) i 0) := by
  refine h.snoc nofun fun x c hc => ?_
  cases hc with
  | filling hi f => exact .know (.filling hi f) nofun
  | reading hj f => cases hj
  | published q hq hn f _ hc =>
    refine .keep (.published q (by omega) hn f _ hc) nofun ?_
    rintro l rfl
    obtain rfl : l = .head_ := by simpa using hc
    exact nofun
  | free q hq hr f _ hc =>
    have hknown : Guard z n r i 1 (q % z.card, f) (.thread .drain) := by
      rcases Nat.lt_or_ge q (r + z.card) with hlt | hge
      · exact .free q hq hlt f _ (.inr rfl)
      · obtain rfl : q = r + z.card := by omega
        rw [Nat.add_mod_right]
        exact .reading rfl f
    rcases hc with rfl | rfl
    · exact .release hknown rfl
    · exact .know hknown nofun

/-- The slot of an access. -/
theorem slot_of_plain {k k' : Thread} {x y : ℕ} {f g : Field}
    (h : (.plain k (x, f) : MemAccess Thread Member Place) = .plain k' (y, g)) : x = y :=
  (Prod.mk.inj (MemAccess.plain.inj h).2).1

/-- The producer touches the slot it holds. -/
theorem Guard.fill (h : Custody es (Guard z n r 1 j)) (hj : r + j ≤ n) (hn : n < r + z.card)
    (f : Field) : Custody (es ++ [.plain .producer (n % z.card, f)]) (Guard z n r 1 j) := by
  refine h.snoc (fun k x hx => ?_) fun x c hc => ?_
  · cases hx
    exact .filling rfl f
  have hne {q : ℕ} (hlo : r ≤ q) (hhi : q < r + z.card) (hq : q ≠ n) (g : Field) (k : Thread) :
      (.plain .producer (n % z.card, f) : MemAccess Thread Member Place) ≠
        .plain k (q % z.card, g) := fun hk =>
    hq (z.slot_inj (by omega) hn hlo hhi (slot_of_plain hk)).symm
  cases hc with
  | filling hi g => exact .know (.filling hi g) fun k hk => (MemAccess.plain.inj hk).1.symm
  | reading hj' g =>
    exact .keep (.reading hj' g) (hne le_rfl (by omega) (by omega) g) fun _ _ => id
  | published q hq hlt g _ hc =>
    exact .keep (.published q hq hlt g _ hc) (hne (by omega) (by omega) hlt.ne g) fun _ _ => id
  | free q hq hr g _ hc =>
    exact .keep (.free q hq hr g _ hc) (hne (by omega) hr (by omega) g) fun _ _ => id

/-- The drain thread touches the slot it holds. -/
theorem Guard.read (h : Custody es (Guard z n r i 1)) (hr : r < n) (hi : n + i ≤ r + z.card)
    (f : Field) : Custody (es ++ [.plain .drain (r % z.card, f)]) (Guard z n r i 1) := by
  refine h.snoc (fun k x hx => ?_) fun x c hc => ?_
  · cases hx
    exact .reading rfl f
  have hne {q : ℕ} (hlo : r < q) (hhi : q < r + z.card) (g : Field) (k : Thread) :
      (.plain .drain (r % z.card, f) : MemAccess Thread Member Place) ≠
        .plain k (q % z.card, g) := fun hk =>
    hlo.ne (z.slot_inj le_rfl (by omega) hlo.le hhi (slot_of_plain hk))
  cases hc with
  | filling hi' g => exact .keep (.filling hi' g) (hne hr (by omega) g) fun _ _ => id
  | reading hj g => exact .know (.reading hj g) fun k hk => (MemAccess.plain.inj hk).1.symm
  | published q hq hlt g _ hc =>
    exact .keep (.published q hq hlt g _ hc) (hne hq (by omega) g) fun _ _ => id
  | free q hq hlt g _ hc =>
    exact .keep (.free q hq hlt g _ hc) (hne (by omega) hlt g) fun _ _ => id

/-! ### Steps -/

/-- Who answers for what, in a state after a history. -/
abbrev Guarded (z : Pow2Size) (t : History) (s : State)
    (es : List (MemAccess Thread Member Place)) : Prop :=
  Custody es (Guard z t.published.length t.released s.log.holding s.drain.holding)

/-- What the drain thread holds is published. -/
theorem Inv.holding_le (hi : Inv z t s) : t.released + s.drain.holding ≤ t.published.length := by
  have hle := hi.released_le
  have hok := hi.drain_ok
  cases hd : s.drain with
  | read tail v =>
    rw [hd] at hok
    obtain ⟨-, c, hc, -⟩ := hok
    exact (List.getElem?_eq_some_iff.mp hc).1
  | storeTail tail =>
    rw [hd] at hok
    exact hok.2
  | _ => exact hle

/-- What the producer holds is free. -/
theorem Inv.holding_free (hi : Inv z t s) :
    t.published.length + s.log.holding ≤ t.released + z.card := by
  have hub := hi.published_le
  have hok := hi.log_ok
  cases hl : s.log with
  | assign c head todo =>
    rw [hl] at hok
    exact hok.2.1
  | _ => exact hub

theorem Guarded.log_step {m : Shared} {p : Log} (hi : Inv z t s) (h : Guarded z t s es)
    (hs : s.log.step z s.shared = some (m, p, e)) :
    Guarded z (t.note e) { s with shared := m, log := p } (es ++ [s.log.access .source z]) := by
  have hok := hi.log_ok
  have hdrain := hi.holding_le
  simp only [Guarded] at h ⊢
  generalize s.log = p₀ at hs h hok
  cases LogMove.of_step hs with
  | room hroom =>
    cases hok
    have hlt : t.published.length < t.released + z.card :=
      Nat.not_le.mp fun hle => hroom (hi.full_iff.mpr hle)
    exact Guard.acquireFree h hlt
  | assign =>
    obtain ⟨rfl, hlt, -⟩ := hok
    rw [Log.access, z.slot_ofNat]
    exact Guard.fill h hdrain hlt _
  | publish =>
    simp only [History.note, List.length_append, List.length_singleton]
    exact Guard.publish h
  | _ => exact Guard.neutral h trivial

theorem Guarded.drain_step {m : Shared} {d : Drain} {f : Field} (hi : Inv z t s)
    (h : Guarded z t s es) (hs : s.drain.step z s.shared f = some (m, d, e)) :
    Guarded z (t.note e) { s with shared := m, drain := d }
      (es ++ [s.drain.access .source z f]) := by
  have hok := hi.drain_ok
  have hle := hi.holding_le
  have hfree := hi.holding_free
  simp only [Guarded] at h ⊢
  generalize s.drain = d₀ at hs h hok hle
  cases DrainMove.of_step hs with
  | found hne =>
    have hlt : t.released < t.published.length := by
      refine hi.released_le.lt_of_ne fun heq => hne ?_
      rw [hok, heq, hi.head_eq]
    exact Guard.acquirePublished h hlt
  | read g hv =>
    obtain ⟨rfl, -⟩ := hok
    rw [Drain.access, z.slot_ofNat]
    exact Guard.read h hle hfree f
  | forward hx =>
    obtain ⟨rfl, -⟩ := hok
    rw [Drain.access, z.slot_ofNat]
    exact Guard.read h hle hfree f
  | storeTail => exact Guard.release h
  | _ => exact Guard.neutral h trivial

theorem Guarded.step (hi : Inv z t s) (h : Guarded z t s es)
    (hs : (accesses .source z).Step s (e, b) s') : Guarded z (t.note e) s' (es ++ [b]) := by
  obtain ⟨a, ha, rfl⟩ := Machine.annotate_step_iff.mp hs
  cases a with
  | call c =>
    simp only [machine, RtLogger.step] at ha
    split at ha <;> cases ha
    next hl =>
    simp only [Guarded, hl] at h ⊢
    exact Guard.neutral h trivial
  | log =>
    obtain ⟨⟨m, p, e'⟩, hp, hx⟩ := Option.map_eq_some_iff.mp ha
    cases hx
    exact h.log_step hi hp
  | setLevel level =>
    cases ha
    exact Guard.neutral h ⟨by decide, by decide⟩
  | drain f =>
    obtain ⟨⟨m, p, e'⟩, hp, hx⟩ := Option.map_eq_some_iff.mp ha
    cases hx
    exact h.drain_step hi hp
  | flush tailFirst =>
    cases ha
    refine Guard.neutral h ?_
    simp only [access]
    cases s.flush <;> trivial
  | stop =>
    simp only [machine, RtLogger.step] at ha
    split at ha <;> cases ha
    exact Guard.neutral h ⟨by decide, by decide⟩
  | join =>
    simp only [machine, RtLogger.step] at ha
    split at ha <;> cases ha
    exact Guard.neutral h trivial

/-- In every run there is no race, and it is known who answers for which slot. -/
theorem Guarded.of_run {tr : List (Event × MemAccess Thread Member Place)}
    (h : (accesses .source z).Run tr s) :
    Guarded z (history (tr.map Prod.fst)) s (tr.map Prod.snd) := by
  refine h.rule_of (I := fun tr s => Guarded z (history (tr.map Prod.fst)) s (tr.map Prod.snd))
    (J := fun tr s => Inv z (history (tr.map Prod.fst)) s) (fun h => Inv.of_run h.of_annotate)
    (fun _ _ => .nil _) fun {tr s x s'} hi hk hs => ?_
  obtain ⟨e, b⟩ := x
  simp only [List.map_append, List.map_cons, List.map_nil, history_snoc]
  exact hk.step hi hs

/-! ### Weaker orders -/

variable {tr : List (Event × MemAccess Thread Member Place)} {k : Thread} {l : Member}

/-- Where a release store is made. -/
theorem release_of_run (h : (accesses o z).Run tr s) (hb : .store k l true ∈ tr.map Prod.snd) :
    k = .producer ∧ l = .head_ ∧ o.headStore = true ∨
      k = .drain ∧ l = .tail_ ∧ o.tailStore = true ∨ k = .destructor ∧ l = .running_ := by
  obtain ⟨⟨e, b⟩, hmem, rfl⟩ := List.mem_map.mp hb
  obtain ⟨s, a, s', -, ha⟩ := h.exists_note hmem
  cases a with
  | log =>
    simp only [access] at ha
    generalize s.log = p at ha
    cases p with
    | assign c head todo =>
      cases todo with
      | nil =>
        obtain ⟨rfl, rfl, ho⟩ := MemAccess.store.inj ha
        exact .inl ⟨rfl, rfl, ho⟩
      | cons f todo => cases ha
    | _ => cases ha
  | drain f =>
    simp only [access] at ha
    generalize s.drain = d at ha
    cases d with
    | storeTail tail =>
      obtain ⟨rfl, rfl, ho⟩ := MemAccess.store.inj ha
      exact .inr (.inl ⟨rfl, rfl, ho⟩)
    | _ => cases ha
  | flush tailFirst =>
    simp only [access] at ha
    generalize s.flush = p at ha
    cases p <;> cases ha
  | stop =>
    cases ha
    exact .inr (.inr ⟨rfl, rfl⟩)
  | _ => cases ha

/-- Where an index is acquired, other than by `Flush`. -/
theorem acquire_of_run (h : (accesses o z).Run tr s) (hb : .load k l true ∈ tr.map Prod.snd) :
    k = .flush ∨ k = .drain ∧ l = .head_ ∧ o.headLoad = true ∨
      k = .producer ∧ l = .tail_ ∧ o.tailLoad = true ∨ k = .drain ∧ l = .running_ := by
  obtain ⟨⟨e, b⟩, hmem, rfl⟩ := List.mem_map.mp hb
  obtain ⟨s, a, s', -, ha⟩ := h.exists_note hmem
  cases a with
  | log =>
    simp only [access] at ha
    generalize s.log = p at ha
    cases p with
    | loadTail c head =>
      obtain ⟨rfl, rfl, ho⟩ := MemAccess.load.inj ha
      exact .inr (.inr (.inl ⟨rfl, rfl, ho⟩))
    | assign c head todo => cases todo <;> cases ha
    | _ => cases ha
  | drain f =>
    simp only [access] at ha
    generalize s.drain = d at ha
    cases d with
    | loadHead tail =>
      obtain ⟨rfl, rfl, ho⟩ := MemAccess.load.inj ha
      exact .inr (.inl ⟨rfl, rfl, ho⟩)
    | loadRunning tail =>
      cases ha
      exact .inr (.inr (.inr ⟨rfl, rfl⟩))
    | _ => cases ha
  | flush tailFirst =>
    simp only [access] at ha
    generalize s.flush = p at ha
    cases p <;> cases ha <;> exact .inl rfl
  | _ => cases ha

/-- With weaker orders for `head_`, nothing the producer does is known to the drain thread. -/
theorem confined_head (h : (accesses o z).Run tr s)
    (ho : ¬ (o.headStore = true ∧ o.headLoad = true)) :
    Confined (tr.map Prod.snd) {.producer, .flush} := by
  intro k hk l hs k' hl
  rcases release_of_run h hs with ⟨rfl, rfl, hstore⟩ | ⟨rfl, -⟩ | ⟨rfl, -⟩
  · rcases acquire_of_run h hl with rfl | ⟨-, -, hload⟩ | ⟨-, hl, -⟩ | ⟨-, hl⟩
    · exact .inr rfl
    · exact absurd ⟨hstore, hload⟩ ho
    · cases hl
    · cases hl
  · simp at hk
  · simp at hk

/-- With weaker orders for `tail_`, nothing the drain thread does is known to the producer. -/
theorem confined_tail (h : (accesses o z).Run tr s)
    (ho : ¬ (o.tailStore = true ∧ o.tailLoad = true)) :
    Confined (tr.map Prod.snd) {.drain, .flush} := by
  intro k hk l hs k' hl
  rcases release_of_run h hs with ⟨rfl, -⟩ | ⟨rfl, rfl, hstore⟩ | ⟨rfl, -⟩
  · simp at hk
  · rcases acquire_of_run h hl with rfl | ⟨-, hl, -⟩ | ⟨-, -, hload⟩ | ⟨-, hl⟩
    · exact .inr rfl
    · cases hl
    · exact absurd ⟨hstore, hload⟩ ho
    · cases hl
  · simp at hk

/-! ### A ring that goes round -/

/-- A step of the drain thread, from the program point `d`. -/
theorem step_drain {d d' : Drain} {m : Shared} (f : Field)
    (h : d.step z s.shared f = some (m, d', e)) :
    (machine z).Step { s with drain := d } e { s with shared := m, drain := d' } :=
  ⟨.drain f, by simp [machine, RtLogger.step, h]⟩

/-- The ring holds `n` records, and nobody is at work. -/
structure Waiting (n r : ℕ) (t : History) (s : State) : Prop where
  log_idle : s.log = .idle
  drain_head : s.drain = .loadTail
  level_eq : s.shared.min_level_ = .kTrace
  published_eq : t.published.length = n
  released_eq : t.released = r

variable {tr : List Event}

/-- What was published and released up to a state, and after it. -/
theorem history_stretch (tr tr₁ : List Event) :
    (history (tr ++ tr₁)).published.length =
        (history tr).published.length + (history tr₁).published.length ∧
      (history (tr ++ tr₁)).released = (history tr).released + (history tr₁).released := by
  rw [history_append]
  simp [History.append]

/-- A call of `Log` makes its first assignment, and goes on to publish. -/
theorem Waiting.fill (h : (machine z).Run tr s) (hw : Waiting n r (history tr) s)
    (hroom : n < r + z.card) (o : Orders) :
    ∃ tr₁ s₁ s₂ tr₂ s₃, (machine z).Path s tr₁ s₁ ∧ (machine z).step s₁ .log = some (s₂, .log) ∧
      access o z s₁ .log = .plain .producer (n % z.card, .level) ∧
      (machine z).Path s₂ tr₂ s₃ ∧ Waiting (n + 1) r (history (tr ++ (tr₁ ++ .log :: tr₂))) s₃ := by
  have hi := Inv.of_run h
  have hfull : ¬ z.size ≤ s.shared.head_ - s.shared.tail_ := by
    rw [hi.head_eq, hi.full_iff, hw.published_eq, hw.released_eq]
    omega
  have hcall : (machine z).Step s (.call hello) { s with log := .loadLevel hello } :=
    ⟨.call hello, by simp only [machine, RtLogger.step, hw.log_idle]⟩
  have hlevel : ¬ hello.level < s.shared.min_level_ := by
    rw [hw.level_eq]
    decide
  have hadmit : (machine z).Step { s with log := .loadTail hello s.shared.head_ } .log
      { s with log := .assign hello s.shared.head_ assignments } := step_log (if_neg hfull)
  refine ⟨_, _, _, _, _,
    .cons hcall <| .cons (step_log (if_neg hlevel)) <| .cons (step_log rfl) hadmit.path, rfl, ?_,
    fill_path { s with shared := _ } hello s.shared.head_ [.time, .msg, .len],
    rfl, hw.drain_head, hw.level_eq, ?_, ?_⟩
  · show MemAccess.plain _ _ = _
    rw [hi.head_eq, z.slot_ofNat, hw.published_eq]
  · rw [(history_stretch _ _).1, hw.published_eq]
    rfl
  · rw [(history_stretch _ _).2, hw.released_eq]
    rfl

/-- The drain thread reads the level of the oldest record, and goes on to release it. -/
theorem Waiting.drain (h : (machine z).Run tr s) (hw : Waiting n r (history tr) s) (hsome : r < n)
    (o : Orders) :
    ∃ tr₁ s₁ s₂ tr₂ s₃, (machine z).Path s tr₁ s₁ ∧
      (machine z).step s₁ (.drain .level) = some (s₂, .drain) ∧
      access o z s₁ (.drain .level) = .plain .drain (r % z.card, .level) ∧
      (machine z).Path s₂ tr₂ s₃ ∧
      Waiting n (r + 1) (history (tr ++ (tr₁ ++ .drain :: tr₂))) s₃ := by
  have hi := Inv.of_run h
  have hne : s.shared.tail_ ≠ s.shared.head_ := by
    rw [Ne, hi.empty_iff, hw.published_eq, hw.released_eq]
    exact hsome.ne
  have hload : (machine z).Step s .drain { s with drain := .loadHead s.shared.tail_ } := by
    have hs := step_drain (z := z) (s := s) (d := .loadTail) .time rfl
    rwa [← hw.drain_head] at hs
  have hfound : (machine z).Step { s with drain := .loadHead s.shared.tail_ } .drain
      { s with drain := .read s.shared.tail_ {} } := step_drain .time (if_neg hne)
  let record := s.shared.ring_ (z.slot s.shared.tail_)
  have hread : (machine z).Path
      { s with drain := .read s.shared.tail_ { level := some record.level } }
      [.drain, .drain, .forward record.sinkRecord, .release]
      { s with
        shared := { s.shared with tail_ := s.shared.tail_ + 1 }, drain := .loadTail } :=
    .cons (step_drain .time rfl) <| .cons (step_drain .len rfl) <|
    .cons (step_drain .msg rfl) (step_drain .time rfl).path
  refine ⟨_, _, _, _, _, .cons hload hfound.path, rfl, ?_, hread, hw.log_idle, rfl, hw.level_eq,
    ?_, ?_⟩
  · show MemAccess.plain _ _ = _
    rw [hi.tail_eq, z.slot_ofNat, hw.released_eq]
  · rw [(history_stretch _ _).1, hw.published_eq]
    rfl
  · rw [(history_stretch _ _).2, hw.released_eq]
    rfl

theorem exists_waiting (hn : n ≤ z.card) :
    ∃ tr s, (machine z).Run tr s ∧ Waiting n 0 (history tr) s := by
  induction n with
  | zero =>
    exact ⟨[], initial (fun _ => Vector.replicate _ 0) .kTrace, ⟨_, ⟨_, _, rfl⟩, .refl⟩,
      rfl, rfl, rfl, rfl, rfl⟩
  | succ n ih =>
    obtain ⟨tr, s, hrun, hw⟩ := ih (by omega)
    obtain ⟨tr₁, s₁, s₂, tr₂, s₃, hp₁, hs, -, hp₂, hw'⟩ := hw.fill hrun (by omega) .source
    exact ⟨_, s₃, hrun.append (hp₁.append (.cons ⟨_, hs⟩ hp₂)), hw'⟩

/-! ### The result -/

/-- With weaker orders for `head_`: a record is published, and read. -/
theorem exists_race_head (z : Pow2Size) (ho : ¬ (o.headStore = true ∧ o.headLoad = true)) :
    ∃ tr s, (accesses o z).Run tr s ∧ ¬ Ordered (tr.map Prod.snd) := by
  obtain ⟨tr, s, hrun, hw⟩ := exists_waiting (z := z) (n := 0) (Nat.zero_le _)
  have hpos := z.card_pos
  obtain ⟨tr₁, s₁, s₂, tr₂, s₃, hp₁, hs₁, hx₁, hp₂, hw'⟩ := hw.fill hrun (by omega) o
  have hrun' := hrun.append (hp₁.append (.cons ⟨_, hs₁⟩ hp₂))
  obtain ⟨tr₃, s₄, s₅, -, -, hp₃, hs₄, hx₄, -⟩ := hw'.drain hrun' Nat.one_pos o
  obtain ⟨tr', h', -, hrace⟩ := Machine.exists_race (S := {.producer, .flush}) (hrun.append hp₁)
    hs₁ hx₁ (hp₂.append hp₃) hs₄ hx₄ (.inl rfl) (by simp) fun h _ => confined_head h ho
  exact ⟨tr', _, h', hrace⟩

/-- With weaker orders for `tail_`: the ring is full, a record is released, and its slot filled. -/
theorem exists_race_tail (z : Pow2Size) (ho : ¬ (o.tailStore = true ∧ o.tailLoad = true)) :
    ∃ tr s, (accesses o z).Run tr s ∧ ¬ Ordered (tr.map Prod.snd) := by
  obtain ⟨tr, s, hrun, hw⟩ := exists_waiting (z := z) le_rfl
  obtain ⟨tr₁, s₁, s₂, tr₂, s₃, hp₁, hs₁, hx₁, hp₂, hw'⟩ := hw.drain hrun z.card_pos o
  have hrun' := hrun.append (hp₁.append (.cons ⟨_, hs₁⟩ hp₂))
  obtain ⟨tr₃, s₄, s₅, -, -, hp₃, hs₄, hx₄, -⟩ := hw'.fill hrun' (by omega) o
  rw [Nat.mod_self, ← Nat.zero_mod z.card] at hx₄
  obtain ⟨tr', h', -, hrace⟩ := Machine.exists_race (S := {.drain, .flush}) (hrun.append hp₁)
    hs₁ hx₁ (hp₂.append hp₃) hs₄ hx₄ (.inl rfl) (by simp) fun h _ => confined_tail h ho
  exact ⟨tr', _, h', hrace⟩

/-- **No data race, because of four memory orders.** With the orders in the source, in every run
any two accesses to a field of a record are ordered by happens-before; and with any of the four
relaxed, for a ring of any capacity, there is a run in which they are not. -/
theorem race_free_iff_orders (z : Pow2Size) (o : Orders) :
    (∀ tr s, (accesses o z).Run tr s → Ordered (tr.map Prod.snd)) ↔ o = .source := by
  constructor
  · intro h
    by_contra hne
    have hrace : ∃ tr s, (accesses o z).Run tr s ∧ ¬ Ordered (tr.map Prod.snd) := by
      by_cases hhead : o.headStore = true ∧ o.headLoad = true
      · refine exists_race_tail z fun htail => hne ?_
        obtain ⟨_, _, _, _⟩ := o
        obtain ⟨rfl, rfl⟩ := hhead
        obtain ⟨rfl, rfl⟩ := htail
        rfl
      · exact exists_race_head z hhead
    obtain ⟨tr, s, hrun, hnot⟩ := hrace
    exact hnot (h tr s hrun)
  · rintro rfl tr s hrun
    exact (Guarded.of_run hrun).ordered

end RtLogger

end XmSigma
