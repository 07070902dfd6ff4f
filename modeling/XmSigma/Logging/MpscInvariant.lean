import XmSigma.Logging.MpscRtLogger

/-!
# The invariant of `MpscRtLogger`

Three numbers describe the ring: how many positions were claimed, how far `dequeue_pos_` has
advanced, and how many cells were freed. The last two differ by one while the drain thread has
stored `dequeue_pos_` and not yet freed the cell. The positions from `freed` on, one lap of them,
are the *window*: each cell of the ring belongs to exactly one position of it, and its sequence
says what is known of that position.

* unclaimed: the sequence is the position;
* claimed by a producer that has not published yet: still the position, and only that producer
  touches the cell;
* published: the position plus one, and the cell holds the record of the call that claimed it.

Everything else follows the owner: who claimed a position is in the history, so two producers
never own the same cell.

The invariant needs a ring of at least two cells. With one cell, the sequence of a published
record is the one that marks the cell free for the next position.

## Main results

* `Inv.owner_unique`: a position has one owner
* `Inv.sequence_eq`: what a producer learns from any sequence it loads
-/

namespace XmSigma

namespace MpscRtLogger

variable {ι : Type*} {z : Pow2Size} {t t' : History ι} {m m' : Shared} {s s' : State ι}
  {e : Event ι} {i : ι}

/-- The cell of position `q`. -/
def Shared.cell (z : Pow2Size) (m : Shared) (q : ℕ) : Cell := m.cells_ (q % z.card)

/-- The producer is between its successful exchange and its publishing store. -/
def Log.owns : Log → Prop
  | .assign _ _ _ => True
  | _ => False

/-- Some producer owns position `q`. -/
def Writing (producers : ι → Log) (q : ℕ) : Prop :=
  ∃ i c pos todo, producers i = .assign c pos todo ∧ pos.toNat = q

/-- What the local variables of producer `i` are worth. -/
def Log.Ok (z : Pow2Size) (t : History ι) (m : Shared) (i : ι) : Log → Prop
  | .loadSeq _ pos | .reload _ pos => pos.toNat ≤ t.claims.length
  | .exchange _ pos =>
    pos.toNat ≤ t.claims.length ∧
      (pos.toNat = t.claims.length → t.claims.length < t.freed + z.card)
  | .assign c pos todo =>
    t.advanced ≤ pos.toNat ∧ t.claims[pos.toNat]? = some (i, c) ∧
      (m.cell z pos.toNat).sequence = pos ∧ ∀ f ∉ todo, (m.cell z pos.toNat).Holds c f
  | _ => True

/-- What the local variables of the drain thread are worth. -/
def Drain.Ok (t : History ι) (writing : ℕ → Prop) : Drain → Prop
  | .loadSeq pos | .loadRunning pos => pos.toNat = t.advanced
  | .read pos v =>
    pos.toNat = t.advanced ∧ ¬ writing t.advanced ∧
      ∃ i c, t.claims[t.advanced]? = some (i, c) ∧ v.Sees c
  | .advance pos =>
    pos.toNat = t.advanced ∧ ¬ writing t.advanced ∧ t.advanced < t.claims.length
  | .free pos => pos.toNat = t.freed
  | _ => True

/-- A record has been forwarded and `dequeue_pos_` not yet stored. -/
def Drain.pending : Drain → ℕ
  | .advance _ => 1
  | _ => 0

/-- `dequeue_pos_` has been stored and the cell not yet freed. -/
def Drain.unfreed : Drain → ℕ
  | .free _ => 1
  | _ => 0

/-- The cell of a published position. -/
def PublishedCell (z : Pow2Size) (t : History ι) (m : Shared) (q : ℕ) (c : Call) : Prop :=
  (m.cell z q).sequence.toNat = q + 1 ∧ (t.advanced ≤ q → ∀ f, (m.cell z q).Holds c f)

/-- What holds in every state of every run, `t` being the history of the run. -/
structure Inv (z : Pow2Size) (t : History ι) (s : State ι) : Prop where
  enqueue_eq : s.shared.enqueue_pos_.toNat = t.claims.length
  dequeue_eq : s.shared.dequeue_pos_.toNat = t.advanced
  freed_eq : t.freed + s.drain.unfreed = t.advanced
  advanced_le : t.advanced ≤ t.claims.length
  claims_le : t.claims.length ≤ t.freed + z.card
  unclaimed : ∀ q, t.claims.length ≤ q → q < t.freed + z.card →
    (s.shared.cell z q).sequence.toNat = q
  log_ok : ∀ i, (s.producers i).Ok z t s.shared i
  published : ∀ q i c, t.freed ≤ q → t.claims[q]? = some (i, c) → ¬ Writing s.producers q →
    PublishedCell z t s.shared q c
  drain_ok : s.drain.Ok t (Writing s.producers)
  forwarded_eq : t.forwarded =
    (t.claims.take (t.advanced + s.drain.pending)).map fun x => x.2.sinkRecord

/-! ### The window -/

theorem Inv.freed_le (h : Inv z t s) : t.freed ≤ t.advanced := by
  have := h.freed_eq
  omega

/-- What a producer that owns a position knows of it. -/
theorem Inv.owner (h : Inv z t s) {c : Call} {pos : UInt64} {todo : List Field}
    (hp : s.producers i = .assign c pos todo) :
    t.advanced ≤ pos.toNat ∧ t.claims[pos.toNat]? = some (i, c) ∧
      (s.shared.cell z pos.toNat).sequence = pos ∧
      ∀ f ∉ todo, (s.shared.cell z pos.toNat).Holds c f := by
  have := h.log_ok i
  rwa [hp] at this

/-- An owned position lies in the window. -/
theorem Inv.owner_window (h : Inv z t s) {c : Call} {pos : UInt64} {todo : List Field}
    (hp : s.producers i = .assign c pos todo) :
    t.freed ≤ pos.toNat ∧ pos.toNat < t.claims.length ∧ pos.toNat < t.freed + z.card := by
  obtain ⟨hadv, hget, -⟩ := h.owner hp
  obtain ⟨hlt, -⟩ := List.getElem?_eq_some_iff.mp hget
  have hle := h.freed_le
  have hub := h.claims_le
  omega

/-- A position has one owner. -/
theorem Inv.owner_unique (h : Inv z t s) {j : ι} {c c' : Call} {pos pos' : UInt64}
    {todo todo' : List Field} (hi : s.producers i = .assign c pos todo)
    (hj : s.producers j = .assign c' pos' todo') (heq : pos.toNat = pos'.toNat) : i = j := by
  obtain ⟨-, hget, -⟩ := h.owner hi
  obtain ⟨-, hget', -⟩ := h.owner hj
  rw [heq, hget'] at hget
  exact (congrArg Prod.fst (Option.some.inj hget)).symm

/-- Two positions of the window have different cells. -/
theorem slot_ne {lo q q' : ℕ} (hq : lo ≤ q) (hlt : q < lo + z.card) (hq' : lo ≤ q')
    (hlt' : q' < lo + z.card) (hne : q' ≠ q) : q' % z.card ≠ q % z.card :=
  fun heq => hne (z.slot_inj hq' hlt' hq hlt heq)

/-- The sequence of a position of the window is the position, or one more once it is published. -/
theorem Inv.window_sequence (h : Inv z t s) {q : ℕ} (hlo : t.freed ≤ q)
    (hhi : q < t.freed + z.card) :
    (s.shared.cell z q).sequence.toNat = q ∧ (q < t.claims.length → Writing s.producers q) ∨
      (s.shared.cell z q).sequence.toNat = q + 1 ∧ q < t.claims.length ∧
        ¬ Writing s.producers q := by
  by_cases hclaimed : q < t.claims.length
  · by_cases hw : Writing s.producers q
    · obtain ⟨i, c, pos, todo, hp, rfl⟩ := hw
      obtain ⟨-, -, hseq, -⟩ := h.owner hp
      exact .inl ⟨by rw [hseq], fun _ => ⟨i, c, pos, todo, hp, rfl⟩⟩
    · exact .inr ⟨(h.published q _ _ hlo (List.getElem?_eq_getElem hclaimed) hw).1, hclaimed, hw⟩
  · exact .inl ⟨h.unclaimed q (Nat.not_lt.mp hclaimed) hhi, fun hlt => absurd hlt hclaimed⟩

/-- Every cell is that of a position of the window. -/
theorem exists_window (z : Pow2Size) (lo q : ℕ) :
    ∃ w, lo ≤ w ∧ w < lo + z.card ∧ w % z.card = q % z.card := by
  have hpos := z.card_pos
  refine ⟨lo + (q + (z.card - 1) * lo) % z.card, by omega,
    Nat.add_lt_add_left (Nat.mod_lt _ hpos) _, ?_⟩
  obtain ⟨j, hj⟩ : ∃ j, z.card = j + 1 := ⟨z.card - 1, by omega⟩
  rw [Nat.add_mod_mod, hj, Nat.add_sub_cancel, show lo + (q + j * lo) = q + lo * (j + 1) by ring,
    Nat.add_mul_mod_self_right]

/-- What any producer learns from the sequence of any position it looks at: it is that of a window
position in the same cell, or one more if that position is published. -/
theorem Inv.sequence_eq (h : Inv z t s) (q : ℕ) :
    ∃ w, t.freed ≤ w ∧ w < t.freed + z.card ∧ w % z.card = q % z.card ∧
      ((s.shared.cell z q).sequence.toNat = w ∧ (w < t.claims.length → Writing s.producers w) ∨
        (s.shared.cell z q).sequence.toNat = w + 1 ∧ w < t.claims.length ∧
          ¬ Writing s.producers w) := by
  obtain ⟨w, hlo, hhi, hmod⟩ := exists_window z t.freed q
  have hcell : s.shared.cell z q = s.shared.cell z w := by rw [Shared.cell, Shared.cell, hmod]
  exact ⟨w, hlo, hhi, hmod, hcell ▸ h.window_sequence hlo hhi⟩

/-! ### Frames -/

/-- What a producer knows survives more claims, more freed cells, and any change to the cells it
does not own. -/
theorem Log.Ok.mono {p : Log} (h : p.Ok z t m i) (hclaims : t.claims <+: t'.claims)
    (hfreed : t.freed ≤ t'.freed)
    (hown : ∀ c pos todo, p = .assign c pos todo →
      t'.advanced ≤ pos.toNat ∧ m'.cell z pos.toNat = m.cell z pos.toNat) :
    p.Ok z t' m' i := by
  have hlen := hclaims.length_le
  cases p with
  | loadSeq c pos | reload c pos => exact h.trans hlen
  | exchange c pos =>
    obtain ⟨hq, hfree⟩ := h
    refine ⟨hq.trans hlen, fun heq => ?_⟩
    have := hfree (by omega)
    omega
  | assign c pos todo =>
    obtain ⟨-, hget, hseq, hdone⟩ := h
    obtain ⟨hadv, hcell⟩ := hown c pos todo rfl
    obtain ⟨l, hl⟩ := hclaims
    obtain ⟨hlt, -⟩ := List.getElem?_eq_some_iff.mp hget
    refine ⟨hadv, ?_, by rw [hcell, hseq], by rwa [hcell]⟩
    rw [← hl, List.getElem?_append_left hlt, hget]
  | _ => trivial

/-- Of the shared members only the cells matter to it. -/
theorem Log.Ok.congr {p : Log} (h : p.Ok z t m i) (hcells : m'.cells_ = m.cells_) :
    p.Ok z t m' i := by
  cases p with
  | assign c pos todo =>
    simp only [Log.Ok, Shared.cell, hcells]
    exact h
  | _ => exact h

theorem Drain.Ok.congr {d : Drain} {w w' : ℕ → Prop} (h : d.Ok t w) (hw : ∀ q, w' q → w q) :
    d.Ok t w' := by
  cases d with
  | read pos v => exact ⟨h.1, fun hk => h.2.1 (hw _ hk), h.2.2⟩
  | advance pos => exact ⟨h.1, fun hk => h.2.1 (hw _ hk), h.2.2⟩
  | _ => exact h

section
variable [DecidableEq ι]

/-- Moving a producer between program points where it owns nothing changes no owner. -/
theorem writing_update {producers : ι → Log} {p : Log} (hold : ¬ (producers i).owns)
    (hnew : ¬ p.owns) (q : ℕ) : Writing (Function.update producers i p) q ↔ Writing producers q := by
  refine exists_congr fun j => ?_
  by_cases hj : j = i
  · subst hj
    simp only [Function.update_self]
    constructor
    · rintro ⟨c, pos, todo, rfl, -⟩
      exact absurd trivial hnew
    · rintro ⟨c, pos, todo, hp, -⟩
      exact absurd (by rw [hp]; trivial) hold
  · rw [Function.update_of_ne hj]

/-- A step that only moves producer `i`, and owns nothing before or after. -/
theorem Inv.move (h : Inv z t s) (p : Log) (hold : ¬ (s.producers i).owns) (hnew : ¬ p.owns)
    (hp : p.Ok z t s.shared i) :
    Inv z t { s with producers := Function.update s.producers i p } := by
  have hw := writing_update hold hnew
  refine { h with
    log_ok := fun j => ?_
    published := fun q j c hq hc hnw => h.published q j c hq hc fun hq' => hnw ((hw q).mpr hq')
    drain_ok := h.drain_ok.congr fun q hq => (hw q).mp hq }
  by_cases hj : j = i
  · subst hj
    simpa only [Function.update_self] using hp
  · simpa only [Function.update_of_ne hj] using h.log_ok j

end

end MpscRtLogger

end XmSigma
