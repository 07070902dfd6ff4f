import XmSigma.Logging.MpscRace

/-!
# How often a call goes round its claim loop

The loop has no measure of its own: a call can lose any number of rounds. But it loses a round
only to a claim that another producer made since the call read `enqueue_pos_`, the claim of the
very position it read, and it goes on from a later position. So each round lost has a claim of
its own to be charged to, and a call that nobody disturbs is through after one round.

The observer of a call is a fold over the events since its first read of `enqueue_pos_`; before
that read the call has no rounds.

## Main definitions

* `Rounds`: the position read last, and the producers that took the positions lost
* `competing`: the producers whose claims a call competes with
* `Contends`: what a call and its observer agree on

## Main results

* `Contends.of_path`: they agree on every path
* `claim_loop_lock_free`: every round lost raises the position and is charged to a claim of its
  own
-/

namespace XmSigma

namespace MpscRtLogger

variable {ι : Type*} {z : Pow2Size} {t : History ι} {s s₁ s₂ : State ι} {e : Event ι}
  {tr tr₁ : List (Event ι)} {i j : ι} {n : ℕ} {c : Call} {pos : UInt64} {m m' : Shared}
  {p p' : Log}

/-! ### The observer of a call -/

/-- What an observer of a call has noted since the call read `enqueue_pos_` for the first time. -/
structure Rounds (ι : Type*) where
  /-- How many positions are claimed. -/
  claims : ℕ
  /-- The position the call has read last. -/
  pos : ℕ
  /-- The producer that has taken it, once there is one. -/
  taker : Option ι := none
  /-- The producers that took the positions read before. -/
  takers : List ι := []

section
variable [DecidableEq ι]

/-- Note one more event. -/
def Rounds.note (i : ι) (r : Rounds ι) : Event ι → Rounds ι
  | .claim j _ =>
    { r with claims := r.claims + 1, taker := if r.pos = r.claims then some j else r.taker }
  | .retry j =>
    if j = i then
      { r with pos := r.claims, taker := none, takers := r.takers ++ r.taker.toList }
    else r
  | _ => r

/-- The rounds of a call of producer `i` that read `n` first. -/
def rounds (i : ι) (n : ℕ) (tr : List (Event ι)) : Rounds ι :=
  tr.foldl (Rounds.note i) { claims := n, pos := n }

@[simp] theorem rounds_snoc (i : ι) (n : ℕ) (tr : List (Event ι)) (e : Event ι) :
    rounds i n (tr ++ [e]) = (rounds i n tr).note i e := by
  simp [rounds]

/-- Only a round lost changes what the observer holds against it. -/
theorem Rounds.note_takers (r : Rounds ι) (he : e ≠ .retry i) :
    (r.note i e).takers = r.takers ∧ (r.note i e).pos = r.pos := by
  cases e with
  | retry j =>
    have hj : j ≠ i := fun h => he (h ▸ rfl)
    simp [Rounds.note, hj]
  | _ => exact ⟨rfl, rfl⟩

theorem rounds_claims (i : ι) (n : ℕ) (tr : List (Event ι)) :
    (rounds i n tr).claims = n + (history tr).claims.length := by
  induction tr using List.reverseRecOn with
  | nil => rfl
  | append_singleton tr e ih =>
    rw [rounds_snoc, history_snoc]
    cases e with
    | claim j d => simp [Rounds.note, History.note, ih, Nat.add_assoc]
    | retry j =>
      simp only [Rounds.note]
      split <;> exact ih
    | _ => exact ih

/-- The position read last has been taken exactly when there are claims beyond it. -/
theorem rounds_taker (i : ι) (n : ℕ) (tr : List (Event ι)) :
    (rounds i n tr).pos ≤ (rounds i n tr).claims ∧
      ((rounds i n tr).taker.isSome ↔ (rounds i n tr).pos < (rounds i n tr).claims) := by
  induction tr using List.reverseRecOn with
  | nil => simp [rounds]
  | append_singleton tr e ih =>
    rw [rounds_snoc]
    obtain ⟨hle, hsome⟩ := ih
    cases e with
    | claim j d =>
      simp only [Rounds.note]
      refine ⟨Nat.le_succ_of_le hle, ?_⟩
      split
      · next heq => simp [heq]
      · next hne =>
        rw [hsome]
        omega
    | retry j =>
      simp only [Rounds.note]
      split
      · simp
      · exact ⟨hle, hsome⟩
    | _ => exact ⟨hle, hsome⟩

/-- Whoever took a position has claimed it, each in its turn. -/
theorem rounds_takers_sublist (i : ι) (n : ℕ) (tr : List (Event ι)) :
    ((rounds i n tr).takers ++ (rounds i n tr).taker.toList).Sublist
      ((history tr).claims.map Prod.fst) := by
  induction tr using List.reverseRecOn with
  | nil => simp [rounds]
  | append_singleton tr e ih =>
    rw [rounds_snoc, history_snoc]
    cases e with
    | claim j d =>
      simp only [Rounds.note, History.note, List.map_append]
      split
      · exact ((List.sublist_append_left _ _).trans ih).append (List.Sublist.refl [j])
      · exact ih.trans (List.sublist_append_left _ _)
    | retry j =>
      simp only [Rounds.note, History.note]
      split
      · simpa using ih
      · exact ih
    | _ => exact ih

/-- The position read last was taken by a claim made since it was read. -/
theorem claim_since_read (h : (rounds i n tr).taker = some j) :
    ∃ d u v, tr = u ++ .claim j d :: v ∧ .retry i ∉ v := by
  induction tr using List.reverseRecOn with
  | nil => cases h
  | append_singleton tr e ih =>
    rw [rounds_snoc] at h
    have hkeep : e ≠ .retry i → (rounds i n tr).taker = some j →
        ∃ d u v, tr ++ [e] = u ++ .claim j d :: v ∧ .retry i ∉ v := by
      intro he h
      obtain ⟨d, u, v, rfl, hv⟩ := ih h
      exact ⟨d, u, v ++ [e], by simp, by simp [hv, he.symm]⟩
    cases e with
    | claim k d =>
      simp only [Rounds.note] at h
      split at h
      · cases h
        exact ⟨d, tr, [], rfl, by simp⟩
      · exact hkeep (by simp) h
    | retry k =>
      simp only [Rounds.note] at h
      split at h
      · cases h
      · next hk => exact hkeep (by simpa using hk) h
    | _ => exact hkeep (by simp) h

/-- The producers other than `i` whose claims were noted, one for each claim. -/
def competing (i : ι) (t : History ι) : List ι :=
  (t.claims.map Prod.fst).filter (· ≠ i)

/-! ### A call and its observer -/

/-- The call has left its claim loop, or there is none. -/
def Log.through : Log → Prop
  | .idle | .bumpDropped _ | .assign .. => True
  | _ => False

omit [DecidableEq ι] in
theorem Log.through_of_step {spurious : Bool} (hs : p.step z i m spurious = some (m', p', e))
    (hp : p.through) : p'.through ∧ e ≠ .retry i := by
  cases LogMove.of_step hs with
  | bumpDropped | assign | publish => exact ⟨trivial, by simp⟩
  | _ => cases hp

omit [DecidableEq ι] in
theorem Log.claiming_of_through (hp : p.through) : p.claiming = none := by
  cases p with
  | loadSeq | exchange | reload => cases hp
  | _ => rfl

/-- What a call of producer `i` and its observer agree on, the call having read `n` first. -/
structure Contends (i : ι) (n : ℕ) (tr : List (Event ι)) (s : State ι) : Prop where
  /-- Every round lost has its taker. -/
  count_eq : (rounds i n tr).takers.length = tr.count (.retry i)
  takers_ne : i ∉ (rounds i n tr).takers
  looping : ∀ pos, (s.producers i).claiming = some pos →
    pos.toNat = (rounds i n tr).pos ∧ i ∉ (history tr).claims.map Prod.fst
  through : (s.producers i).claiming = none → (s.producers i).through

/-- The takers are among the others whose claims were noted, each counted as often. -/
theorem Contends.takers_sublist (h : Contends i n tr s) :
    (rounds i n tr).takers.Sublist (competing i (history tr)) := by
  have hsub := (List.sublist_append_left _ _).trans (rounds_takers_sublist i n tr)
  have hfilter := hsub.filter (· ≠ i)
  rwa [List.filter_eq_self.mpr fun j hj => by
    simpa using fun hji : j = i => h.takers_ne (hji ▸ hj)] at hfilter

theorem Contends.init (hi : s.producers i = .loadSeq c pos) :
    Contends i pos.toNat [] s where
  count_eq := rfl
  takers_ne := List.not_mem_nil
  looping pos' hpos := by
    rw [hi] at hpos
    cases hpos
    exact ⟨rfl, List.not_mem_nil⟩
  through hnone := by rw [hi] at hnone; cases hnone

/-- What a step other than a lost round leaves as it was. -/
theorem Contends.of_ne (h : Contends i n tr s) (he : e ≠ .retry i)
    (hloop : ∀ pos, (s₁.producers i).claiming = some pos →
      (s.producers i).claiming = some pos ∧ ∀ d, e ≠ .claim i d)
    (hthrough : (s₁.producers i).claiming = none → (s₁.producers i).through) :
    Contends i n (tr ++ [e]) s₁ := by
  obtain ⟨htakers, hread⟩ := (rounds i n tr).note_takers he
  refine ⟨?_, ?_, fun pos hpos => ?_, hthrough⟩
  · rw [rounds_snoc, htakers, List.count_append, h.count_eq, List.count_singleton]
    simp [he]
  · rw [rounds_snoc, htakers]
    exact h.takers_ne
  · obtain ⟨hpos, hown⟩ := hloop pos hpos
    obtain ⟨heq, hmem⟩ := h.looping pos hpos
    rw [rounds_snoc, hread, history_snoc]
    refine ⟨heq, ?_⟩
    cases e with
    | claim j d =>
      have hj : i ≠ j := fun hij => hown d (by rw [hij])
      simpa [History.note, hj] using hmem
    | _ => exact hmem

/-- A lost round: the call goes on from the position that is current. -/
theorem Contends.retry (h : Contends i n tr s) (hpos : (s.producers i).claiming = some pos)
    (hlost : pos.toNat < n + (history tr).claims.length)
    (hnext : s₁.producers i = .loadSeq c s.shared.enqueue_pos_)
    (henqueue : s.shared.enqueue_pos_.toNat = n + (history tr).claims.length) :
    ∃ j, j ≠ i ∧ (rounds i n tr).taker = some j ∧ Contends i n (tr ++ [.retry i]) s₁ := by
  obtain ⟨hread, hown⟩ := h.looping pos hpos
  obtain ⟨j, htaker⟩ := Option.isSome_iff_exists.mp
    ((rounds_taker i n tr).2.mpr (by rw [rounds_claims, ← hread]; exact hlost))
  have hj : j ≠ i := by
    rintro rfl
    exact hown ((rounds_takers_sublist j n tr).subset (by simp [htaker]))
  refine ⟨j, hj, htaker, ?_, ?_, fun pos' hpos' => ?_, fun hnone => ?_⟩
  · simp [Rounds.note, htaker, h.count_eq]
  · simpa [Rounds.note, htaker, h.takers_ne] using hj.symm
  · rw [hnext] at hpos'
    cases hpos'
    rw [rounds_snoc, history_snoc]
    simpa [Rounds.note, rounds_claims, henqueue, History.note] using hown
  · rw [hnext] at hnone
    cases hnone

/-- A call loses a round only to a claim of the position it has read. -/
theorem lost_round (h : (machine z).Run tr s) (hb : CountersBelow z (history tr))
    (hs : (machine z).Step s (.retry i) s₁) :
    ∃ c pos, (s.producers i).claiming = some pos ∧ pos.toNat < (history tr).claims.length ∧
      s₁.producers i = .loadSeq c s.shared.enqueue_pos_ := by
  have hrace := Race.of_run h hb
  rcases step_cases i hs with ⟨d, hd, -, -⟩ | ⟨spurious, m, p, hp, hp'⟩ | ⟨hne, -⟩
  · cases hd
  · generalize hi : s.producers i = p₀ at hp
    cases LogMove.of_step hp with
    | @lost c pos hne =>
      have hle := hrace.claiming_le i pos (by rw [hi]; rfl)
      refine ⟨c, pos, rfl, ?_, hp'⟩
      rw [← hrace.enqueue_eq] at hle ⊢
      exact hle.lt_of_ne fun heq => hne (UInt64.toNat_inj.mp heq).symm
    | @reload c pos => exact ⟨c, pos, rfl, reload_stale h hb hi, hp'⟩
  · exact absurd rfl hne

/-- A step that is neither the beginning of a call nor a lost round. -/
theorem Contends.keep (h : Contends i n tr₁ s) (hcall : ∀ d, e ≠ .call i d) (he : e ≠ .retry i)
    (hs : (machine z).Step s e s₁) : Contends i n (tr₁ ++ [e]) s₁ := by
  rcases step_cases i hs with ⟨d, hd, -, -⟩ | ⟨spurious, m, p, hp, rfl⟩ | ⟨hne, hsame⟩
  · exact absurd hd (hcall d)
  · cases hpos : (s.producers i).claiming with
    | none =>
      have hthrough := (Log.through_of_step hp (h.through hpos)).1
      refine h.of_ne he (fun pos hpos' => ?_) (fun _ => hthrough)
      rw [Log.claiming_of_through hthrough] at hpos'
      cases hpos'
    | some pos =>
      obtain ⟨c, hround⟩ := Log.round_of_step hp hpos
      refine h.of_ne he (fun pos' hpos' => ?_) (fun hnone => ?_)
      · rw [hpos]
        generalize s.producers i = q at hround
        generalize s₁.producers i = q' at hround hpos'
        cases hround with
        | lost | reload => exact absurd rfl he
        | full | claim => cases hpos'
        | _ => exact ⟨hpos', by simp⟩
      · generalize s.producers i = q at hround
        generalize s₁.producers i = q' at hround hnone
        cases hround with
        | full | claim => trivial
        | _ => cases hnone
  · refine h.of_ne he (fun pos hpos => ⟨hsame ▸ hpos, ?_⟩) (fun hnone => ?_)
    · rintro d rfl
      exact hne rfl
    · rw [hsame] at hnone ⊢
      exact h.through hnone

/-- **A call and its observer agree on every path** from a first read of `enqueue_pos_` on. -/
theorem Contends.of_path (h : (machine z).Run tr s) (hi : s.producers i = .loadSeq c pos)
    (hread : s.shared.enqueue_pos_ = pos) (hp : (machine z).Path s tr₁ s₁)
    (hcall : ∀ d, .call i d ∉ tr₁) (hb : CountersBelow z (history (tr ++ tr₁))) :
    Contends i (history tr).claims.length tr₁ s₁ := by
  have hpos : pos.toNat = (history tr).claims.length := by
    rw [← hread]
    exact (Race.of_run h hb.of_append).enqueue_eq
  refine h.rule_from (Q := fun e => ∀ d, e ≠ .call i d)
    (I := fun tr₁ s₁ => CountersBelow z (history (tr ++ tr₁)) →
      Contends i (history tr).claims.length tr₁ s₁)
    hp (fun e he d hd => hcall d (hd ▸ he)) (fun _ => hpos ▸ .init hi)
    (fun {tr₁ s e s₁} hrun hcall hc hs hb => ?_) hb
  rw [← List.append_assoc] at hb
  have hc := hc hb.of_append
  by_cases he : e = .retry i
  · subst he
    obtain ⟨c, pos, hpos, hlost, hnext⟩ := lost_round hrun hb.of_append hs
    have henqueue := (Race.of_run hrun hb.of_append).enqueue_eq
    rw [claims_append, List.length_append] at hlost henqueue
    obtain ⟨j, -, -, hc'⟩ := hc.retry hpos hlost hnext henqueue
    exact hc'
  · exact hc.keep hcall he hs

/-! ### A call that nobody disturbs -/

/-- The events of producer `i`. -/
def own (i : ι) (tr : List (Event ι)) : List (Event ι) := tr.filter (·.producer = some i)

/-- A call that has read `pos` and is in its first round, or through after it: what it did so far,
and where it is. -/
inductive FirstRound (i : ι) (c : Call) (pos : UInt64) : List (Event ι) → Log → Prop
  | reading : FirstRound i c pos [] (.loadSeq c pos)
  | exchange (e : Event ι) : FirstRound i c pos [e] (.exchange c pos)
  | full (e : Event ι) : FirstRound i c pos [e] (.bumpDropped c)
  | through (e e' : Event ι) (es : List (Event ι)) {p : Log}
    (he : e' = .claim i c ∨ e' = .drop i c) (hp : p.through) : FirstRound i c pos (e :: e' :: es) p

omit [DecidableEq ι] in
theorem FirstRound.second {es : List (Event ι)} (h : FirstRound i c pos es p) {e' : Event ι}
    (he : es[1]? = some e') : e' = .claim i c ∨ e' = .drop i c := by
  cases h with
  | through e e'' es he' hp =>
    cases he
    exact he'
  | _ => cases he

omit [DecidableEq ι] in
/-- A step of the call, its position being current as long as it is in the loop. -/
theorem FirstRound.step {es : List (Event ι)} {spurious : Bool} (h : FirstRound i c pos es p)
    (hs : p.step z i m spurious = some (m', p', e)) (hne : e ≠ .spurious i)
    (hcurrent : p.claiming = some pos → m.enqueue_pos_ = pos ∧
      ((m.cells_ (z.slot pos)).sequence ≠ pos →
        signedDiff (m.cells_ (z.slot pos)).sequence pos < 0)) :
    FirstRound i c pos (es ++ [e]) p' := by
  cases h with
  | reading =>
    obtain ⟨d, hround⟩ := Log.round_of_step hs rfl
    cases hround with
    | free => exact .exchange _
    | full => exact .full _
    | ahead hseq h => exact absurd ((hcurrent rfl).2 hseq) h
  | exchange e₁ =>
    obtain ⟨d, hround⟩ := Log.round_of_step hs rfl
    cases hround with
    | claim => exact .through _ _ [] (.inl rfl) trivial
    | lost hlost => exact absurd (hcurrent rfl).1 hlost
    | spurious => exact absurd rfl hne
  | full e₁ =>
    cases hs
    exact .through _ _ [] (.inr rfl) trivial
  | through e₁ e₂ es he hp => exact .through _ _ _ he (Log.through_of_step hs hp).1

/-- Claims of nobody: neither of the call itself nor of the others. -/
theorem claims_eq_nil (h : i ∉ t.claims.map Prod.fst) (hc : competing i t = []) :
    t.claims = [] := by
  rw [competing, List.filter_eq_nil_iff] at hc
  refine List.eq_nil_iff_forall_not_mem.mpr fun x hx => h ?_
  have hx : x.1 ∈ t.claims.map Prod.fst := List.mem_map_of_mem hx
  have hxi : x.1 = i := by simpa using hc _ hx
  exact hxi ▸ hx

/-- **Without competing claims a call is through after one round.** -/
theorem FirstRound.of_path (h : (machine z).Run tr s) (hi : s.producers i = .loadSeq c pos)
    (hread : s.shared.enqueue_pos_ = pos) (hp : (machine z).Path s tr₁ s₁)
    (hcall : ∀ d, .call i d ∉ tr₁) (hspurious : .spurious i ∉ tr₁)
    (hb : CountersBelow z (history (tr ++ tr₁))) (halone : competing i (history tr₁) = []) :
    FirstRound i c pos (own i tr₁) (s₁.producers i) := by
  refine (h.rule_from (Q := fun e => (∀ d, e ≠ .call i d) ∧ e ≠ .spurious i)
    (I := fun tr₁ s₁ => CountersBelow z (history (tr ++ tr₁)) → competing i (history tr₁) = [] →
      (machine z).Path s tr₁ s₁ ∧ (∀ d, .call i d ∉ tr₁) ∧
        FirstRound i c pos (own i tr₁) (s₁.producers i))
    hp (fun e he => ⟨fun d hd => hcall d (hd ▸ he), fun hd => hspurious (hd ▸ he)⟩)
    (fun _ _ => ⟨.refl, by simp, hi ▸ .reading⟩)
    (fun {tr₁ s' e s''} hrun hQ hf hs hb halone => ?_) hb halone).2.2
  have halone' : competing i (history tr₁) = [] := by
    rw [competing, claims_append, List.map_append, List.filter_append] at halone
    exact (List.append_eq_nil_iff.mp halone).1
  rw [← List.append_assoc] at hb
  obtain ⟨hp, hcall, hround⟩ := hf hb.of_append halone'
  refine ⟨hp.snoc hs, by simpa [hcall] using fun d => (hQ.1 d).symm, ?_⟩
  rw [own, List.filter_append]
  rcases step_cases i hs with ⟨d, hd, -, -⟩ | ⟨spurious, m, p, hlog, rfl⟩ | ⟨hne, hsame⟩
  · exact absurd hd (hQ.1 d)
  · rw [List.filter_singleton, decide_eq_true (Log.producer_of_step hlog)]
    refine hround.step hlog hQ.2 fun hpos => ?_
    have hc := Contends.of_path h hi hread hp hcall hb.of_append
    have hnil := claims_eq_nil (hc.looping pos hpos).2 halone'
    have hcurrent : pos.toNat = (history (tr ++ tr₁)).claims.length := by
      rw [claims_append, hnil, List.append_nil, ← hread]
      exact (Race.of_run h hb.of_append.of_append).enqueue_eq
    have hrace := Race.of_run hrun hb.of_append
    exact ⟨UInt64.toNat_inj.mp (hrace.enqueue_eq.trans hcurrent.symm),
      hrace.not_reload hb.of_append hcurrent⟩
  · rw [List.filter_singleton, decide_eq_false hne, hsame]
    simpa [own] using hround

/-! ### Lock-freedom -/

/-- **The claim loop is lock-free.** Let a call of producer `i` have read `enqueue_pos_` for the
first time, and let `tr₁` be what happened since, without another call of `i`.

A round that the call loses now, to a failed exchange or to a sequence ahead of its position,
raises its position; and since its last read of `enqueue_pos_` another producer has made a claim.
The number of rounds lost is at most the number of claims that others made. If they made none,
the call has lost no round, and its second step is a claim or a drop. -/
theorem claim_loop_lock_free (h : (machine z).Run tr s) (hi : s.producers i = .loadSeq c pos)
    (hread : s.shared.enqueue_pos_ = pos) (hp : (machine z).Path s tr₁ s₁)
    (hcall : ∀ d, .call i d ∉ tr₁) (hb : CountersBelow z (history (tr ++ tr₁))) :
    (∀ s₂, (machine z).Step s₁ (.retry i) s₂ →
      (∃ pos pos', (s₁.producers i).claiming = some pos ∧
        (s₂.producers i).claiming = some pos' ∧ pos < pos') ∧
      ∃ j d u v, j ≠ i ∧ tr₁ = u ++ .claim j d :: v ∧ .retry i ∉ v) ∧
    tr₁.count (.retry i) ≤ (competing i (history tr₁)).length ∧
    (competing i (history tr₁) = [] → .spurious i ∉ tr₁ →
      .retry i ∉ tr₁ ∧ ∀ e, (own i tr₁)[1]? = some e → e = .claim i c ∨ e = .drop i c) := by
  have hc := Contends.of_path h hi hread hp hcall hb
  have hrun := h.append hp
  have hcount : tr₁.count (.retry i) ≤ (competing i (history tr₁)).length := by
    rw [← hc.count_eq]
    exact (hc.takers_sublist).length_le
  refine ⟨fun s₂ hs => ?_, hcount, fun halone hspurious => ⟨fun hmem => ?_, fun e he => ?_⟩⟩
  · obtain ⟨d, pos', hpos, hlost, hnext⟩ := lost_round hrun hb hs
    have henqueue := (Race.of_run hrun hb).enqueue_eq
    refine ⟨⟨pos', s₁.shared.enqueue_pos_, hpos, by rw [hnext]; rfl, ?_⟩, ?_⟩
    · rw [UInt64.lt_iff_toNat_lt, henqueue]
      exact hlost
    · rw [claims_append, List.length_append] at hlost henqueue
      obtain ⟨j, hj, htaker, -⟩ := hc.retry hpos hlost hnext henqueue
      obtain ⟨d, u, v, htr, hv⟩ := claim_since_read htaker
      exact ⟨j, d, u, v, hj, htr, hv⟩
  · have := List.count_pos_iff.mpr hmem
    rw [halone, List.length_nil] at hcount
    omega
  · exact (FirstRound.of_path h hi hread hp hcall hspurious hb halone).second he

end

/-- A call has just read `enqueue_pos_`. -/
def entered : Option (List (Event Bool) × State Bool) :=
  (machine twoCells).exec small [.call false hello, .log false false, .log false false]

theorem entered_isSome : entered.isSome := by decide +kernel

/-- Between two of its steps the other producer logs a record, and then one more. -/
def overtaken : Option (List (Event Bool) × State Bool) :=
  (machine twoCells).exec (entered.get entered_isSome).2
    (.log false false :: logAction true broken ++ [.log false false, .log false false] ++
      logAction true broken ++ [.log false false])

theorem overtaken_isSome : overtaken.isSome := by decide +kernel

/-- Nothing in it is the beginning of a call of the first producer. -/
theorem overtaken_call (c : Call) : .call false c ∉ (overtaken.get overtaken_isSome).1 := by
  have hall : (overtaken.get overtaken_isSome).1.all (fun
      | .call i _ => i
      | _ => true) = true := by decide +kernel
  intro hmem
  simpa using List.all_eq_true.mp hall _ hmem

theorem claim_loop_lock_free_small :
    (overtaken.get overtaken_isSome).1.count (.retry false) ≤
      (competing false (history (overtaken.get overtaken_isSome).1)).length :=
  (claim_loop_lock_free (run_small entered_isSome) rfl rfl (.of_exec_get overtaken_isSome)
    overtaken_call (by unfold CountersBelow; decide +kernel)).2.1

end MpscRtLogger

end XmSigma
