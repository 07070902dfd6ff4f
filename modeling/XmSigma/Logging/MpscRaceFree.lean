import XmSigma.Lib.HappensBefore
import XmSigma.Logging.MpscCapacity

/-!
# No data race in the ring of `MpscRtLogger`

As for `RtLogger`, each step also says which access it is, and with which memory order. Here it is
the sequence of a cell that passes its record on: it is acquired by the producer that goes on to
claim the cell, and by the drain thread that finds a record in it, and both store it when they are
done. The exchange on `enqueue_pos_` is relaxed; it only decides which of the producers that have
acquired the cell it belongs to.

## Main definitions

* `access`: the access a step makes
* `Guard`: who answers for which cell

## Main results

* `race_free_iff_two_cells`: there is no data race exactly because of the four orders in the source,
  and of the second cell
-/

namespace XmSigma

namespace MpscRtLogger

/-! ### The accesses -/

/-- The threads. A call of `SetLevel`, by whatever thread, is an access of `setter`. -/
inductive Thread (ι : Type*)
  | producer (i : ι)
  | drain
  | flush
  | setter
  | destructor
  deriving DecidableEq

/-- The atomic members, and the sequence of each cell. -/
inductive Member
  | min_level_
  | enqueue_pos_
  | dequeue_pos_
  | dropped_
  | running_
  | sequence (i : ℕ)
  deriving DecidableEq

/-- A field of the record in a cell. -/
abbrev Place : Type := ℕ × Field

/-- The orders with which `Log` and `DrainLoop` access a sequence: whether the loads acquire and the
stores release. -/
structure Orders where
  claimLoad : Bool
  publishStore : Bool
  drainLoad : Bool
  freeStore : Bool
  deriving DecidableEq

/-- The orders in the source. -/
def Orders.source : Orders := ⟨true, true, true, true⟩

section
variable {ι : Type*}

/-- The access of producer `i`. An exchange that fails is a load. -/
def Log.access (o : Orders) (z : Pow2Size) (i : ι) (m : Shared) (spurious : Bool) :
    Log → MemAccess (Thread ι) Member Place
  | .idle => .silent (.producer i)
  | .loadLevel _ => .load (.producer i) .min_level_ false
  | .loadPos _ | .reload _ _ => .load (.producer i) .enqueue_pos_ false
  | .loadSeq _ pos => .load (.producer i) (.sequence (z.slot pos)) o.claimLoad
  | .exchange _ pos =>
    if m.enqueue_pos_ ≠ pos ∨ spurious then .load (.producer i) .enqueue_pos_ false
    else .update (.producer i) .enqueue_pos_
  | .bumpDropped _ => .update (.producer i) .dropped_
  | .assign _ pos (f :: _) => .plain (.producer i) (z.slot pos, f)
  | .assign _ pos [] => .store (.producer i) (.sequence (z.slot pos)) o.publishStore

/-- The access of the drain thread, if `f` is the argument it evaluates next. -/
def Drain.access (o : Orders) (z : Pow2Size) (f : Field) : Drain → MemAccess (Thread ι) Member Place
  | .loadPos => .load .drain .dequeue_pos_ false
  | .loadSeq pos => .load .drain (.sequence (z.slot pos)) o.drainLoad
  | .loadRunning _ => .load .drain .running_ true
  | .read pos _ => .plain .drain (z.slot pos, f)
  | .advance _ => .store .drain .dequeue_pos_ false
  | .free pos => .store .drain (.sequence (z.slot pos)) o.freeStore
  | .flushSink | .exited => .silent .drain

/-- The access of a thread in `Flush`. -/
def Flush.access (dequeueFirst : Bool) : Flush → MemAccess (Thread ι) Member Place
  | .idle | .flushSink => .silent .flush
  | .compare => .load .flush (if dequeueFirst then .dequeue_pos_ else .enqueue_pos_) true
  | .loadedDequeue _ => .load .flush .enqueue_pos_ true
  | .loadedEnqueue _ => .load .flush .dequeue_pos_ true

/-- The access a step makes. -/
def access (o : Orders) (z : Pow2Size) (s : State ι) :
    Action ι → MemAccess (Thread ι) Member Place
  | .call i _ => .silent (.producer i)
  | .log i spurious => (s.producers i).access o z i s.shared spurious
  | .setLevel _ => .store .setter .min_level_ false
  | .drain f => s.drain.access o z f
  | .flush dequeueFirst => s.flush.access dequeueFirst
  | .stop => .store .destructor .running_ true
  | .join => .silent .destructor

end

variable {ι : Type*} [DecidableEq ι]

/-- The logger, with the accesses its steps make. -/
def accesses (o : Orders) (z : Pow2Size) :
    Machine (State ι) (Action ι) (Event ι × MemAccess (Thread ι) Member Place) :=
  (machine z).annotate (access o z)

/-! ### Who answers for a cell -/

variable {z : Pow2Size} {o : Orders} {t : History ι} {s s' : State ι} {e : Event ι} {i : ι}
  {b : MemAccess (Thread ι) Member Place} {es : List (MemAccess (Thread ι) Member Place)}
  {x : Place} {k : Keeper (Thread ι) Member} {c : Call} {pos : UInt64} {todo : List Field}
  {p : Log} {producers : ι → Log} {held : Option UInt64} {n n' r : ℕ}

/-- Who answers for which cell, after `n` claims and `r` freed cells: a producer that has claimed
it, or will if it wins the exchange, the drain thread while it holds it, and else its sequence. -/
inductive Guard (z : Pow2Size) (n r : ℕ) (producers : ι → Log) (held : Option UInt64) :
    Place → Keeper (Thread ι) Member → Prop
  | claimed {i : ι} {c : Call} {pos : UInt64} {todo : List Field}
    (hi : producers i = .assign c pos todo) (f : Field) :
    Guard z n r producers held (z.slot pos, f) (.thread (.producer i))
  | claiming {i : ι} {c : Call} {pos : UInt64} (hi : producers i = .exchange c pos)
    (hpos : pos.toNat = n) (f : Field) :
    Guard z n r producers held (z.slot pos, f) (.thread (.producer i))
  | reading {pos : UInt64} (hd : held = some pos) (f : Field) :
    Guard z n r producers held (z.slot pos, f) (.thread .drain)
  | resting {q : ℕ} (hlo : r ≤ q) (hhi : q < r + z.card) (hw : ¬ Writing producers q)
    (hd : ∀ pos, held = some pos → pos.toNat ≠ q) (f : Field) :
    Guard z n r producers held (q % z.card, f) (.var (.sequence (q % z.card)))

/-- Who answers for what, in a state after a history. -/
abbrev Guarded (z : Pow2Size) (t : History ι) (s : State ι)
    (es : List (MemAccess (Thread ι) Member Place)) : Prop :=
  Custody es (Guard z t.claims.length t.freed s.producers s.drain.holds)

section
omit [DecidableEq ι]

/-- An access that touches no record and stores no sequence. -/
def Neutral : MemAccess (Thread ι) Member Place → Prop
  | .plain _ _ => False
  | .store _ (.sequence _) _ => False
  | _ => True

/-- Such an access leaves the keepers that remain. -/
theorem Neutral.custody (hb : Neutral b) {g : Place → Keeper (Thread ι) Member → Prop}
    (h : Custody es g) (hg : ∀ x k, Guard z n r producers held x k → g x k) :
    Custody (es ++ [b]) (Guard z n r producers held) := by
  refine h.snoc_of_le (fun k x hk => ?_) hg fun x l hx hl => ?_
  · subst hk
    exact hb
  · cases hx with
    | resting =>
      cases b with
      | store k l' release =>
        obtain rfl : l' = _ := hl
        exact hb
      | _ => exact hl

/-- What the drain thread holds is claimed. -/
theorem Inv.holds_lt (hi : Inv z t s) (hd : s.drain.holds = some pos) :
    t.freed < t.claims.length := by
  have hok := hi.drain_ok
  have hfreed := hi.freed_eq
  have hadv := hi.advanced_le
  cases hdr : s.drain with
  | read pos' v =>
    simp only [hdr, Drain.Ok, Drain.unfreed] at hok hfreed
    obtain ⟨-, -, j, c, hc, -⟩ := hok
    have := (List.getElem?_eq_some_iff.mp hc).1
    omega
  | advance pos' =>
    simp only [hdr, Drain.Ok, Drain.unfreed] at hok hfreed
    omega
  | free pos' =>
    simp only [hdr, Drain.unfreed] at hfreed
    omega
  | _ => simp [hdr, Drain.holds] at hd

/-- A producer that may win the exchange found a free cell. -/
theorem Inv.claiming_lt (hi : Inv z t s) (hp : s.producers i = .exchange c pos)
    (hpos : pos.toNat = t.claims.length) : t.claims.length < t.freed + z.card := by
  have hok := hi.log_ok i
  rw [hp] at hok
  exact hok.2 hpos

theorem Inv.writing_lt (hi : Inv z t s) {q : ℕ} (hw : Writing s.producers q) :
    q < t.claims.length := by
  obtain ⟨i, c, pos, todo, hp, rfl⟩ := hw
  exact (hi.owner_window hp).2.1

/-- The cell of an access. -/
theorem slot_of_plain {k k' : Thread ι} {x y : ℕ} {f g : Field}
    (h : (.plain k (x, f) : MemAccess (Thread ι) Member Place) = .plain k' (y, g)) : x = y :=
  (Prod.mk.inj (MemAccess.plain.inj h).2).1

end

/-- The producers after a step of one of them. -/
theorem of_update {p' : Log} {j : ι} (h : Function.update producers i p j = p') :
    j = i ∧ p = p' ∨ j ≠ i ∧ producers j = p' := by
  by_cases hji : j = i
  · subst hji
    rw [Function.update_self] at h
    exact .inl ⟨rfl, h⟩
  · rw [Function.update_of_ne hji] at h
    exact .inr ⟨hji, h⟩

/-! ### Steps of a producer -/

/-- A producer that moves, and neither owns nor has acquired a cell. -/
theorem Guard.of_move (hold : ¬ (producers i).owns) (hnew : ¬ p.owns)
    (hex : ∀ c pos, p ≠ .exchange c pos)
    (h : Guard z n r (Function.update producers i p) held x k) :
    Guard z n r producers held x k := by
  cases h with
  | claimed hj f =>
    rcases of_update hj with ⟨-, rfl⟩ | ⟨-, hj⟩
    · exact absurd trivial hnew
    · exact .claimed hj f
  | claiming hj hpos f =>
    rcases of_update hj with ⟨-, rfl⟩ | ⟨-, hj⟩
    · exact absurd rfl (hex _ _)
    · exact .claiming hj hpos f
  | reading hd f => exact .reading hd f
  | resting hlo hhi hw hd f =>
    exact .resting hlo hhi (fun h => hw ((writing_update hold hnew _).mpr h)) hd f

/-- A producer has found the cell of its position vacant. -/
theorem Guarded.vacant (h2 : 2 ≤ z.card) (hi : Inv z t s) (h : Guarded z t s es)
    (hp : s.producers i = .loadSeq c pos)
    (hseq : (s.shared.cells_ (z.slot pos)).sequence = pos) :
    Guarded z t { s with producers := Function.update s.producers i (.exchange c pos) }
      (es ++ [.load (.producer i) (.sequence (z.slot pos)) true]) := by
  have hold : ¬ (s.producers i).owns := by rw [hp]; exact id
  refine h.snoc (by simp) fun x k hk => ?_
  cases hk with
  | claimed hj f =>
    rcases of_update hj with ⟨-, hx⟩ | ⟨-, hx⟩
    · cases hx
    · exact .know (.claimed hx f) (by simp)
  | claiming hj hpos f =>
    rcases of_update hj with ⟨rfl, hx⟩ | ⟨-, hx⟩
    · cases hx
      have hroom : t.claims.length < t.freed + z.card := by
        refine hi.room h2 ?_
        rw [Shared.cell, ← hpos, ← z.slot_eq, hseq]
      have hle := hi.freed_le.trans hi.advanced_le
      rw [z.slot_eq, hpos]
      refine .acquire (.resting hle hroom (fun hw => (hi.writing_lt hw).ne rfl) (fun pos' hd => ?_)
        f) rfl
      rw [(hi.drain_holds hd).1]
      exact (hi.holds_lt hd).ne
    · exact .know (.claiming hx hpos f) (by simp)
  | reading hd f => exact .know (.reading hd f) (by simp)
  | resting hlo hhi hw hd f =>
    exact .carry
      (.resting hlo hhi (fun h => hw ((writing_update hold (by exact id) _).mpr h)) hd f)
      (by simp) id

/-- The producer whose exchange succeeds had acquired the cell. -/
theorem Guard.of_claim (hi : Inv z t s) (hp : s.producers i = .exchange c pos)
    (hpos : s.shared.enqueue_pos_ = pos)
    (h : Guard z (t.claims.length + 1) t.freed
      (Function.update s.producers i (.assign c pos assignments)) held x k) :
    Guard z t.claims.length t.freed s.producers held x k := by
  have hold : ¬ (s.producers i).owns := by rw [hp]; exact id
  cases h with
  | claimed hj f =>
    rcases of_update hj with ⟨rfl, hx⟩ | ⟨-, hx⟩
    · cases hx
      exact .claiming hp (by rw [← hpos, hi.enqueue_eq]) f
    · exact .claimed hx f
  | @claiming j _ _ hj hpos f =>
    rcases of_update hj with ⟨-, hx⟩ | ⟨-, hx⟩
    · cases hx
    · have hok := hi.log_ok j
      rw [hx] at hok
      have := hok.1
      omega
  | reading hd f => exact .reading hd f
  | resting hlo hhi hw hd f =>
    exact .resting hlo hhi (fun h => hw ((writing_claim hold _).mpr (.inr h))) hd f

/-- The owner of a cell makes an assignment. -/
theorem Guarded.assign {f : Field} (hi : Inv z t s) (h : Guarded z t s es)
    (hp : s.producers i = .assign c pos (f :: todo)) :
    Guarded z t { s with producers := Function.update s.producers i (.assign c pos todo) }
      (es ++ [.plain (.producer i) (z.slot pos, f)]) := by
  obtain ⟨hlo, hclaimed, hhi⟩ := hi.owner_window hp
  have hholds : (s.producers i).holds = some pos := by rw [hp]; rfl
  refine h.snoc (fun k x hx => ?_) fun x k hk => ?_
  · cases hx
    exact .claimed hp f
  cases hk with
  | @claimed j _ pos' _ hj g =>
    rcases of_update hj with ⟨rfl, hx⟩ | ⟨hne, hx⟩
    · cases hx
      exact .know (.claimed hp g) fun k hk => (MemAccess.plain.inj hk).1.symm
    · refine .keep (.claimed hx g) (fun k hk => hne ?_) fun _ _ => id
      have hj' : (s.producers j).holds = some pos' := by rw [hx]; rfl
      exact (hi.one_producer hholds hj' (slot_of_plain hk)).symm
  | claiming hj hpos g =>
    rcases of_update hj with ⟨-, hx⟩ | ⟨-, hx⟩
    · cases hx
    · refine .keep (.claiming hx hpos g) (fun k hk => ?_) fun _ _ => id
      have hroom := hi.claiming_lt hx hpos
      have heq := slot_of_plain hk
      rw [z.slot_eq, z.slot_eq, hpos] at heq
      exact hclaimed.ne (z.slot_inj hlo hhi (hlo.trans hclaimed.le) hroom heq)
  | reading hd g =>
    exact .keep (.reading hd g) (fun k hk => hi.not_both hholds hd (slot_of_plain hk))
      fun _ _ => id
  | @resting q hlo' hhi' hw hd g =>
    have hne : q ≠ pos.toNat := by
      rintro rfl
      exact hw ⟨i, c, pos, todo, Function.update_self .., rfl⟩
    refine .keep (.resting hlo' hhi' (fun h => hw (h.write_of_ne hp hne)) hd g)
      (fun k hk => hne ?_) fun _ _ => id
    have heq := slot_of_plain hk
    rw [z.slot_eq] at heq
    exact (z.slot_inj hlo hhi hlo' hhi' heq).symm

/-- The owner of a cell publishes it. -/
theorem Guarded.publish (hi : Inv z t s) (h : Guarded z t s es)
    (hp : s.producers i = .assign c pos []) :
    Guarded z t { s with producers := Function.update s.producers i .idle }
      (es ++ [.store (.producer i) (.sequence (z.slot pos)) true]) := by
  obtain ⟨hlo, -, hhi⟩ := hi.owner_window hp
  refine h.snoc nofun fun x k hk => ?_
  cases hk with
  | claimed hj f =>
    rcases of_update hj with ⟨-, hx⟩ | ⟨-, hx⟩
    · cases hx
    · exact .know (.claimed hx f) nofun
  | claiming hj hpos f =>
    rcases of_update hj with ⟨-, hx⟩ | ⟨-, hx⟩
    · cases hx
    · exact .know (.claiming hx hpos f) nofun
  | reading hd f => exact .know (.reading hd f) nofun
  | @resting q hlo' hhi' hw hd f =>
    by_cases hq : q = pos.toNat
    · subst hq
      rw [← z.slot_eq]
      exact .release (.claimed hp f) rfl
    · refine .carry (.resting hlo' hhi' (fun h => hw (h.write_of_ne hp hq)) hd f) nofun
        fun hs => hq ?_
      obtain heq : z.slot pos = q % z.card := Member.sequence.inj hs
      rw [z.slot_eq] at heq
      exact (z.slot_inj hlo hhi hlo' hhi' heq).symm

theorem Guarded.log_step {m : Shared} {spurious : Bool} (h2 : 2 ≤ z.card) (hi : Inv z t s)
    (h : Guarded z t s es) (hs : (s.producers i).step z i s.shared spurious = some (m, p, e)) :
    Guarded z (t.note e) { s with shared := m, producers := Function.update s.producers i p }
      (es ++ [(s.producers i).access .source z i s.shared spurious]) := by
  generalize hp : s.producers i = p₀ at hs
  have hmove {p : Log} (hold : ¬ p₀.owns) (hnew : ¬ p.owns) (hex : ∀ c pos, p ≠ .exchange c pos)
      (x k) (hg : Guard z t.claims.length t.freed (Function.update s.producers i p)
        s.drain.holds x k) : Guard z t.claims.length t.freed s.producers s.drain.holds x k :=
    .of_move (hp ▸ hold) hnew hex hg
  cases LogMove.of_step hs with
  | vacant hseq => exact Guarded.vacant h2 hi h hp hseq
  | lost hne =>
    rw [Log.access, if_pos (.inl hne)]
    exact Neutral.custody trivial h (hmove id id (by simp))
  | spurious heq =>
    refine Neutral.custody ?_ h (hmove id id (by simp))
    rw [Log.access]
    split <;> trivial
  | claim heq =>
    simp only [Guarded, History.note, List.length_append, List.length_singleton]
    refine Neutral.custody ?_ h fun x k => Guard.of_claim hi hp heq
    rw [Log.access]
    split <;> trivial
  | assign => exact Guarded.assign hi h hp
  | publish =>
    have hpublish := Guarded.publish hi h hp
    exact hpublish
  | _ => exact Neutral.custody trivial h (hmove id id (by simp))

/-! ### Steps of the drain thread -/

section
omit [DecidableEq ι]

/-- The drain thread has found a record. -/
theorem Guarded.found (hi' : Inv z t { s with drain := .read pos {} }) (h : Guarded z t s es)
    (hd : s.drain = .loadSeq pos) :
    Guarded z t { s with drain := .read pos {} }
      (es ++ [.load .drain (.sequence (z.slot pos)) true]) := by
  obtain ⟨hpos, hnw⟩ := hi'.drain_holds rfl
  have hnone : ∀ pos' : UInt64, s.drain.holds = some pos' → ∀ q, pos'.toNat ≠ q := by
    rw [hd]
    nofun
  have hcard := z.card_pos
  refine h.snoc nofun fun x k hk => ?_
  cases hk with
  | claimed hj f => exact .know (.claimed hj f) nofun
  | claiming hj hpos f => exact .know (.claiming hj hpos f) nofun
  | reading hd' f =>
    cases hd'
    rw [z.slot_eq, hpos]
    exact .acquire (.resting le_rfl (by omega) hnw (fun pos' h => hnone pos' h _) f) rfl
  | resting hlo hhi hw _ f =>
    exact .carry (.resting hlo hhi hw (fun pos' h => hnone pos' h _) f) nofun id

/-- The drain thread reads a field of the record. -/
theorem Guarded.read (hi : Inv z t s) (h : Guarded z t s es) (hd : s.drain.holds = some pos)
    (f : Field) : Guarded z t s (es ++ [.plain .drain (z.slot pos, f)]) := by
  obtain ⟨hpos, -⟩ := hi.drain_holds hd
  have hlt := hi.holds_lt hd
  have hcard := z.card_pos
  refine h.snoc (fun k x hx => ?_) fun x k hk => ?_
  · cases hx
    exact .reading hd f
  cases hk with
  | @claimed j _ pos' _ hj g =>
    have hj' : (s.producers j).holds = some pos' := by rw [hj]; rfl
    exact .keep (.claimed hj g) (fun k hk => hi.not_both hj' hd (slot_of_plain hk).symm)
      fun _ _ => id
  | claiming hj hn g =>
    refine .keep (.claiming hj hn g) (fun k hk => hlt.ne ?_) fun _ _ => id
    have hroom := hi.claiming_lt hj hn
    have heq := slot_of_plain hk
    rw [z.slot_eq, z.slot_eq, hpos, hn] at heq
    exact z.slot_inj le_rfl (by omega) hlt.le hroom heq
  | reading hd' g => exact .know (.reading hd' g) fun k hk => (MemAccess.plain.inj hk).1.symm
  | resting hlo hhi hw hne g =>
    refine .keep (.resting hlo hhi hw hne g) (fun k hk => hne pos hd ?_) fun _ _ => id
    have heq := slot_of_plain hk
    rw [z.slot_eq, hpos] at heq
    rw [hpos]
    exact z.slot_inj le_rfl (by omega) hlo hhi heq

/-- The drain thread frees the cell. -/
theorem Guarded.free (hi : Inv z t s) (h : Guarded z t s es) (hd : s.drain = .free pos) :
    Guarded z (t.note .free) { s with drain := .loadPos }
      (es ++ [.store .drain (.sequence (z.slot pos)) true]) := by
  have hholds : s.drain.holds = some pos := by rw [hd]; rfl
  obtain ⟨hpos, -⟩ := hi.drain_holds hholds
  have hcard := z.card_pos
  refine h.snoc (by simp) fun x k hk => ?_
  cases hk with
  | claimed hj f => exact .know (.claimed hj f) (by simp)
  | claiming hj hn f => exact .know (.claiming hj hn f) (by simp)
  | reading hd' f => cases hd'
  | @resting q hlo hhi hw _ f =>
    simp only [History.note] at hlo hhi
    rcases Nat.lt_or_ge q (t.freed + z.card) with hlt | hge
    · refine .carry (.resting (by omega) hlt hw (fun pos' hd' => ?_) f) (by simp) fun hs => ?_
      · rw [(hi.drain_holds hd').1]
        omega
      · obtain heq : z.slot pos = q % z.card := Member.sequence.inj hs
        rw [z.slot_eq, hpos] at heq
        have := z.slot_inj le_rfl (by omega) (by omega) hlt heq
        omega
    · obtain rfl : q = t.freed + z.card := by omega
      rw [Nat.add_mod_right, ← hpos, ← z.slot_eq]
      exact .release (.reading hholds f) rfl

theorem Guarded.drain_step {m : Shared} {d : Drain} {f : Field} (hi : Inv z t s)
    (hi' : Inv z (t.note e) { s with shared := m, drain := d }) (h : Guarded z t s es)
    (hs : s.drain.step z s.shared f = some (m, d, e)) :
    Guarded z (t.note e) { s with shared := m, drain := d }
      (es ++ [s.drain.access .source z f]) := by
  generalize hd : s.drain = d₀ at hs
  have hsame {d : Drain} (heq : d.holds = d₀.holds) (x : Place)
      (k : Keeper (Thread ι) Member) :
      Guard z t.claims.length t.freed s.producers d.holds x k →
        Guard z t.claims.length t.freed s.producers s.drain.holds x k := by
    rw [heq, hd]
    exact id
  cases DrainMove.of_step hs with
  | found hseq => exact Guarded.found hi' h hd
  | read g hv =>
    have hread := Guarded.read hi h (show s.drain.holds = some _ by rw [hd]; rfl) f
    simp only [Guarded, hd] at hread
    exact hread
  | forward hx =>
    have hread := Guarded.read hi h (show s.drain.holds = some _ by rw [hd]; rfl) f
    simp only [Guarded, hd] at hread
    exact hread
  | free => exact Guarded.free hi h hd
  | _ => exact Neutral.custody trivial h (hsame rfl)

end

/-! ### Runs -/

theorem Guarded.step (h2 : 2 ≤ z.card) (hi : Inv z t s) (hb : CountersBelow z (t.note e))
    (h : Guarded z t s es) (hs : (accesses .source z).Step s (e, b) s') :
    Guarded z (t.note e) s' (es ++ [b]) := by
  obtain ⟨a, ha, rfl⟩ := Machine.annotate_step_iff.mp hs
  have hi' := hi.step h2 hb ⟨a, ha⟩
  cases a with
  | call i c =>
    simp only [machine, MpscRtLogger.step] at ha
    split at ha <;> cases ha
    next hp =>
    exact Neutral.custody trivial h fun x k =>
      Guard.of_move (by rw [hp]; exact id) (by exact id) (by simp)
  | log i spurious =>
    obtain ⟨⟨m, p, e'⟩, hp, hx⟩ := Option.map_eq_some_iff.mp ha
    cases hx
    exact Guarded.log_step h2 hi h hp
  | setLevel level =>
    cases ha
    exact Neutral.custody trivial h fun _ _ => id
  | drain f =>
    obtain ⟨⟨m, p, e'⟩, hp, hx⟩ := Option.map_eq_some_iff.mp ha
    cases hx
    exact Guarded.drain_step hi hi' h hp
  | flush dequeueFirst =>
    cases ha
    refine Neutral.custody ?_ h fun _ _ => id
    simp only [access]
    cases s.flush <;> trivial
  | stop =>
    simp only [machine, MpscRtLogger.step] at ha
    split at ha <;> cases ha
    exact Neutral.custody trivial h fun _ _ => id
  | join =>
    simp only [machine, MpscRtLogger.step] at ha
    split at ha <;> cases ha
    exact Neutral.custody trivial h fun _ _ => id

/-- In every run of a ring of at least two cells there is no race, and it is known who answers for
which cell. -/
theorem Guarded.of_run {tr : List (Event ι × MemAccess (Thread ι) Member Place)} (h2 : 2 ≤ z.card)
    (h : (accesses .source z).Run tr s) (hb : CountersBelow z (history (tr.map Prod.fst))) :
    Guarded z (history (tr.map Prod.fst)) s (tr.map Prod.snd) := by
  refine h.rule_of
    (I := fun tr s => CountersBelow z (history (tr.map Prod.fst)) →
      Guarded z (history (tr.map Prod.fst)) s (tr.map Prod.snd))
    (J := fun tr s => CountersBelow z (history (tr.map Prod.fst)) →
      Inv z (history (tr.map Prod.fst)) s)
    (fun h => Inv.of_run h.of_annotate h2) (fun _ _ _ => .nil _)
    (fun {tr s x s'} hi hk hs hb => ?_) hb
  obtain ⟨e, b⟩ := x
  simp only [List.map_append, List.map_cons, List.map_nil, history_snoc] at hb ⊢
  exact Guarded.step h2 (hi hb.of_note) hb (hk hb.of_note) hs

/-! ### Weaker orders -/

variable {tr : List (Event ι × MemAccess (Thread ι) Member Place)} {l : Member} {thread : Thread ι}

/-- Where a release store is made. -/
theorem release_of_run (h : (accesses o z).Run tr s) (hb : (e, .store thread l true) ∈ tr) :
    (∃ i q, thread = .producer i ∧ l = .sequence q ∧ o.publishStore = true) ∨
      (thread = .drain ∧ e = .free ∧ o.freeStore = true ∧ ∃ q, l = .sequence q) ∨
      thread = .destructor := by
  obtain ⟨s, a, s', hs, ha⟩ := h.exists_note hb
  cases a with
  | log i spurious =>
    simp only [access] at ha
    generalize s.producers i = p at ha
    cases p with
    | assign c pos todo =>
      cases todo with
      | nil =>
        obtain ⟨rfl, rfl, ho⟩ := MemAccess.store.inj ha
        exact .inl ⟨i, _, rfl, rfl, ho⟩
      | cons f todo => cases ha
    | exchange c pos =>
      simp only [Log.access] at ha
      split at ha <;> cases ha
    | _ => cases ha
  | drain f =>
    simp only [access, machine, MpscRtLogger.step] at ha hs
    generalize s.drain = d at ha hs
    cases d with
    | free pos =>
      obtain ⟨rfl, rfl, ho⟩ := MemAccess.store.inj ha
      cases hs
      exact .inr (.inl ⟨rfl, rfl, ho, _, rfl⟩)
    | _ => cases ha
  | flush dequeueFirst =>
    simp only [access] at ha
    generalize s.flush = p at ha
    cases p <;> cases ha
  | stop =>
    cases ha
    exact .inr (.inr rfl)
  | _ => cases ha

/-- Where a sequence is acquired. -/
theorem acquire_of_run {q : ℕ} (h : (accesses o z).Run tr s)
    (hb : (e, .load thread (.sequence q) true) ∈ tr) :
    (∃ i, thread = .producer i ∧ o.claimLoad = true) ∨
      thread = .drain ∧ o.drainLoad = true := by
  obtain ⟨s, a, s', -, ha⟩ := h.exists_note hb
  cases a with
  | log i spurious =>
    simp only [access] at ha
    generalize s.producers i = p at ha
    cases p with
    | loadSeq c pos =>
      obtain ⟨rfl, -, ho⟩ := MemAccess.load.inj ha
      exact .inl ⟨i, rfl, ho⟩
    | assign c pos todo => cases todo <;> cases ha
    | exchange c pos =>
      simp only [Log.access] at ha
      split at ha <;> cases ha
    | _ => cases ha
  | drain f =>
    simp only [access] at ha
    generalize s.drain = d at ha
    cases d with
    | loadSeq pos =>
      obtain ⟨rfl, -, ho⟩ := MemAccess.load.inj ha
      exact .inr ⟨rfl, ho⟩
    | _ => cases ha
  | flush dequeueFirst =>
    simp only [access] at ha
    generalize s.flush = p at ha
    cases p with
    | compare => cases dequeueFirst <;> cases ha
    | _ => cases ha
  | _ => cases ha

/-- With weaker orders where a record is published, nothing the producers do is known to the drain
thread. -/
theorem confined_producers (h : (accesses o z).Run tr s)
    (ho : ¬ (o.publishStore = true ∧ o.drainLoad = true)) :
    Confined (tr.map Prod.snd) (Set.range Thread.producer) := by
  rintro _ ⟨i, rfl⟩ l hs k' hl
  obtain ⟨⟨e, b⟩, hs, rfl⟩ := List.mem_map.mp hs
  obtain ⟨⟨e', b'⟩, hl, rfl⟩ := List.mem_map.mp hl
  rcases release_of_run h hs with ⟨j, q, -, rfl, hstore⟩ | ⟨hk, -⟩ | hk
  · rcases acquire_of_run h hl with ⟨j', rfl, -⟩ | ⟨-, hload⟩
    · exact ⟨j', rfl⟩
    · exact absurd ⟨hstore, hload⟩ ho
  · cases hk
  · cases hk

/-- With weaker orders where a cell is freed, or before one is freed, nothing the drain thread does
is known to the producers. -/
theorem confined_drain (h : (accesses o z).Run tr s)
    (ho : ¬ (o.freeStore = true ∧ o.claimLoad = true) ∨ Event.free ∉ tr.map Prod.fst) :
    Confined (tr.map Prod.snd) {.drain} := by
  rintro _ rfl l hs k' hl
  obtain ⟨⟨e, b⟩, hs, rfl⟩ := List.mem_map.mp hs
  obtain ⟨⟨e', b'⟩, hl, rfl⟩ := List.mem_map.mp hl
  rcases release_of_run h hs with ⟨j, q, hk, -⟩ | ⟨-, rfl, hstore, q, rfl⟩ | hk
  · cases hk
  · rcases acquire_of_run h hl with ⟨j', -, hload⟩ | ⟨rfl, -⟩
    · rcases ho with ho | ho
      · exact absurd ⟨hstore, hload⟩ ho
      · exact absurd (List.mem_map.mpr ⟨_, hs, rfl⟩) ho
    · rfl
  · cases hk

/-! ### A ring that goes round -/

/-- A step of a producer, with the choice of the scheduler. -/
theorem step_log_eq {q : Log} {m : Shared} (h : p.step z i s.shared false = some (m, q, e)) :
    (machine z).step { s with producers := Function.update s.producers i p } (.log i false) =
      some ({ s with shared := m, producers := Function.update s.producers i q }, e) := by
  simp [machine, MpscRtLogger.step, h]

/-- What a call reports up to its first assignment. -/
def claimEvents (i : ι) : List (Event ι) :=
  [.call i hello, .log i, .log i, .log i, .claim i hello]

/-- A call that finds its cell free makes its first assignment, and goes on to publish. -/
theorem first_assignment (hi : s.producers i = .idle) (hlevel : ¬ hello.level < s.shared.min_level_)
    (hfree : (s.shared.cells_ (z.slot s.shared.enqueue_pos_)).sequence = s.shared.enqueue_pos_)
    (o : Orders) :
    ∃ s₁ s₂, (machine z).Path s (claimEvents i) s₁ ∧
      (machine z).step s₁ (.log i false) = some (s₂, .log i) ∧
      access o z s₁ (.log i false) =
        .plain (.producer i) (z.slot s.shared.enqueue_pos_, .time) ∧
      (machine z).Path s₂ [.log i, .log i, .log i, .publish i hello]
        { s with shared := s.shared.accept z hello } := by
  set pos := s.shared.enqueue_pos_ with hpos
  let m₁ : Shared := { s.shared with enqueue_pos_ := pos + 1 }
  let cell := m₁.cells_ (z.slot pos)
  let m₂ : Shared := { m₁ with
    cells_ := Function.update m₁.cells_ (z.slot pos)
      { cell with toRecord := cell.toRecord.assign hello .time } }
  have hassign := step_log_eq (z := z) (s := { s with shared := m₁ }) (i := i) (m := m₂)
    (p := .assign hello pos assignments) (q := .assign hello pos [.level, .msg, .len]) rfl
  have hfill := fill_path (z := z) { s with shared := m₂ } i hello pos [.level, .msg, .len]
  refine ⟨_, _, (exchange_path hi hlevel hfree).append (claim_step s i hello).path, hassign, ?_, ?_⟩
  · simp only [access, Function.update_self, assignments, Log.access]
    rfl
  · have hidle : Function.update s.producers i .idle = s.producers := by
      rw [← hi, Function.update_eq_self]
    have hshared : s.shared.accept z hello = { m₂ with
        cells_ := Function.update m₂.cells_ (z.slot pos)
          ((m₂.cells_ (z.slot pos)).publish hello pos [.level, .msg, .len]) } := by
      simp [Shared.accept, Cell.publish, m₂, m₁, cell, assignments, ← hpos]
    rw [hidle] at hfill
    rw [hshared]
    exact hfill

/-- The drain thread has come to the oldest record, and has read its time. -/
def Drain.reading (z : Pow2Size) (m : Shared) : Drain :=
  .read m.dequeue_pos_ { time := some (m.cells_ (z.slot m.dequeue_pos_)).time }

/-- The drain thread finds a record, reads its time, and goes on to free the cell. -/
theorem first_read (hd : s.drain = .loadPos)
    (hseq : (s.shared.cells_ (z.slot s.shared.dequeue_pos_)).sequence =
      s.shared.dequeue_pos_ + 1) (o : Orders) :
    ∃ s₁, (machine z).Path s [.drain, .drain] s₁ ∧
      (machine z).step s₁ (.drain .time) =
        some ({ s with drain := Drain.reading z s.shared }, .drain) ∧
      access o z s₁ (.drain .time) = .plain .drain (z.slot s.shared.dequeue_pos_, .time) ∧
      ∃ x, (machine z).Path { s with drain := Drain.reading z s.shared }
        [.drain, .drain, .forward x, .advance, .free]
        { s with shared := s.shared.release z, drain := .loadPos } := by
  set pos := s.shared.dequeue_pos_ with hpos
  have hload : (machine z).Step s .drain { s with drain := .loadSeq pos } :=
    step_drain .time hd rfl
  have hfound : (machine z).Step { s with drain := .loadSeq pos } .drain
      { s with drain := .read pos {} } :=
    step_drain .time rfl (if_pos (signedDiff_eq_zero_iff.mpr hseq))
  have hrest : (machine z).Path { s with drain := Drain.reading z s.shared }
      [.drain, .drain, .forward (s.shared.cells_ (z.slot pos)).sinkRecord, .advance, .free]
      { s with shared := s.shared.release z, drain := .loadPos } :=
    .cons (step_drain .level rfl rfl) <| .cons (step_drain .len rfl rfl) <|
    .cons (step_drain .msg rfl rfl) <| .cons (step_drain .time rfl rfl)
    (step_drain .time rfl rfl).path
  exact ⟨_, .cons hload hfound.path, rfl, rfl, _, hrest⟩

/-- `n` records were published and `r` of them freed, and nobody is at work. -/
structure Waiting (n r : ℕ) (t : History ι) (s : State ι) : Prop where
  idle : ∀ i, s.producers i = .idle
  drain_head : s.drain = .loadPos
  admits : ¬ hello.level < s.shared.min_level_
  claims_eq : t.claims.length = n
  freed_eq : t.freed = r

section
omit [DecidableEq ι]
variable {tr : List (Event ι)}

theorem freed_append (tr tr₁ : List (Event ι)) :
    (history (tr ++ tr₁)).freed = (history tr).freed + (history tr₁).freed := by
  induction tr₁ using List.reverseRecOn with
  | nil => simp [history]
  | append_singleton tr₁ e ih =>
    rw [← List.append_assoc, history_snoc, history_snoc]
    cases e <;> simp [History.note, ih, Nat.add_assoc]

theorem length_claims_append (tr tr₁ : List (Event ι)) :
    (history (tr ++ tr₁)).claims.length =
      (history tr).claims.length + (history tr₁).claims.length := by
  rw [claims_append, List.length_append]

/-- The cell of the next position is free. -/
theorem Waiting.free (hw : Waiting n r (history tr) s) (hi : Inv z (history tr) s)
    (hroom : n < r + z.card) :
    s.shared.enqueue_pos_.toNat = n ∧
      (s.shared.cells_ (z.slot s.shared.enqueue_pos_)).sequence = s.shared.enqueue_pos_ := by
  have hn : s.shared.enqueue_pos_.toNat = n := by rw [hi.enqueue_eq, hw.claims_eq]
  have hseq := hi.unclaimed n hw.claims_eq.le (by rw [hw.freed_eq]; exact hroom)
  refine ⟨hn, ?_⟩
  rw [← UInt64.toNat_inj, z.slot_eq, hn]
  exact hseq

/-- The oldest record is there. -/
theorem Waiting.found (hw : Waiting n r (history tr) s) (hi : Inv z (history tr) s)
    (h2 : 2 ≤ z.card) (hb : CountersBelow z (history tr)) (hsome : r < n) :
    s.shared.dequeue_pos_.toNat = r ∧
      (s.shared.cells_ (z.slot s.shared.dequeue_pos_)).sequence = s.shared.dequeue_pos_ + 1 := by
  have hfreed := hi.freed_eq
  simp only [hw.drain_head, Drain.unfreed, hw.freed_eq] at hfreed
  have hdequeue := hi.dequeue_eq
  refine ⟨by omega, (hi.head_sequence h2 hb (fun i => ?_) hdequeue).mpr ?_⟩
  · rw [hw.idle i]
    exact id
  · rw [hw.claims_eq]
    omega

/-- What a call reports from its first assignment on. -/
def fillEvents (i : ι) : List (Event ι) := [.log i, .log i, .log i, .log i, .publish i hello]

/-- What a round of the drain thread reports from its first read on. -/
def readEvents (x : SinkRecord) : List (Event ι) :=
  [.drain, .drain, .drain, .forward x, .advance, .free]

theorem Waiting.publish (hw : Waiting n r (history tr) s) (i : ι) :
    Waiting (n + 1) r (history (tr ++ (claimEvents i ++ fillEvents i)))
      { s with shared := s.shared.accept z hello } where
  idle := hw.idle
  drain_head := hw.drain_head
  admits := hw.admits
  claims_eq := by
    rw [length_claims_append, hw.claims_eq]
    rfl
  freed_eq := by
    rw [freed_append, hw.freed_eq]
    rfl

theorem Waiting.release (hw : Waiting n r (history tr) s) (x : SinkRecord) :
    Waiting n (r + 1) (history (tr ++ ([.drain, .drain] ++ readEvents x)))
      { s with shared := s.shared.release z, drain := .loadPos } where
  idle := hw.idle
  drain_head := rfl
  admits := hw.admits
  claims_eq := by
    rw [length_claims_append, hw.claims_eq]
    rfl
  freed_eq := by
    rw [freed_append, hw.freed_eq]
    rfl

/-- A ring goes round once before its counters are too large. -/
theorem below_of_le (hz : z.log < 62) (hn : (history tr).claims.length ≤ z.card + 1) :
    CountersBelow z (history tr) := by
  have hcard : z.card ≤ 2 ^ 61 := by
    rw [z.card_eq]
    exact Nat.pow_le_pow_right (by norm_num) (by omega)
  unfold CountersBelow
  omega

end

/-! ### The result -/

/-- There is a run with a race. -/
def Races (o : Orders) (z : Pow2Size) (ι : Type*) [DecidableEq ι] : Prop :=
  ∃ tr, ∃ s : State ι, (accesses o z).Run tr s ∧ CountersBelow z (history (tr.map Prod.fst)) ∧
    ¬ Ordered (tr.map Prod.snd)

section
variable (h2 : 2 ≤ z.card) (hz : z.log < 62)
include h2 hz

theorem exists_waiting (i : ι) (hn : n ≤ z.card) :
    ∃ (tr : List (Event ι)) (s : State ι), (machine z).Run tr s ∧ Waiting n 0 (history tr) s := by
  induction n with
  | zero =>
    have hlevel : ¬ hello.level < LogLevel.kInfo := by decide
    exact ⟨[], fresh, ⟨_, ⟨_, _, rfl⟩, .refl⟩, fun _ => rfl, rfl, hlevel, rfl, rfl⟩
  | succ n ih =>
    obtain ⟨tr, s, hrun, hw⟩ := ih (by omega)
    have hi := Inv.of_run hrun h2 (below_of_le hz (by rw [hw.claims_eq]; omega))
    obtain ⟨-, hfree⟩ := hw.free hi (by omega)
    obtain ⟨s₁, s₂, hp, hs, -, hp'⟩ := first_assignment (hw.idle i) hw.admits hfree .source
    exact ⟨_, _, hrun.append (hp.append (.cons ⟨_, hs⟩ hp')), hw.publish i⟩

/-- With weaker orders where a record is published: one is, and read. -/
theorem races_of_publish (i : ι) (ho : ¬ (o.publishStore = true ∧ o.drainLoad = true)) :
    Races o z ι := by
  obtain ⟨tr, s, hrun, hw⟩ := exists_waiting h2 hz i (Nat.zero_le _)
  have hi := Inv.of_run hrun h2 (below_of_le hz (by rw [hw.claims_eq]; omega))
  obtain ⟨hn, hfree⟩ := hw.free hi (by omega)
  obtain ⟨s₁, s₂, hp₁, hs₁, hx₁, hp₂⟩ := first_assignment (hw.idle i) hw.admits hfree o
  have hw' := hw.publish (z := z) i
  have hrun' := hrun.append (hp₁.append (.cons ⟨_, hs₁⟩ hp₂))
  have hb' : CountersBelow z (history (tr ++ (claimEvents i ++ fillEvents i))) :=
    below_of_le hz (by rw [hw'.claims_eq]; omega)
  obtain ⟨hr, hseq⟩ := hw'.found (Inv.of_run hrun' h2 hb') h2 hb' Nat.one_pos
  obtain ⟨s₄, hp₃, hs₄, hx₄, -⟩ := first_read hw'.drain_head hseq o
  rw [z.slot_eq, hn] at hx₁
  rw [z.slot_eq, hr] at hx₄
  obtain ⟨tr', h', htr, hrace⟩ := Machine.exists_race (S := Set.range Thread.producer)
    (hrun.append hp₁) hs₁ hx₁ (hp₂.append hp₃) hs₄ hx₄ ⟨i, rfl⟩ (by simp)
    fun h _ => confined_producers h ho
  refine ⟨tr', _, h', ?_, hrace⟩
  refine below_of_le hz ?_
  simp only [htr, length_claims_append, hw.claims_eq]
  exact Nat.le_add_left 1 _

/-- With weaker orders where a cell is freed: the ring is full, a cell is freed, and claimed
again. -/
theorem races_of_free (i : ι) (ho : ¬ (o.freeStore = true ∧ o.claimLoad = true)) :
    Races o z ι := by
  obtain ⟨tr, s, hrun, hw⟩ := exists_waiting h2 hz i le_rfl
  have hb : CountersBelow z (history tr) := below_of_le hz (by rw [hw.claims_eq]; omega)
  obtain ⟨hr, hseq⟩ := hw.found (Inv.of_run hrun h2 hb) h2 hb z.card_pos
  obtain ⟨s₁, hp₁, hs₁, hx₁, x, hp₂⟩ := first_read hw.drain_head hseq o
  have hw' := hw.release (z := z) x
  have hrun' := hrun.append (hp₁.append (.cons ⟨_, hs₁⟩ hp₂))
  have hb' : CountersBelow z (history (tr ++ ([.drain, .drain] ++ readEvents x))) :=
    below_of_le hz (by rw [hw'.claims_eq]; omega)
  obtain ⟨hn, hfree⟩ := hw'.free (Inv.of_run hrun' h2 hb') (by omega)
  obtain ⟨s₄, s₅, hp₃, hs₄, hx₄, -⟩ := first_assignment (hw'.idle i) hw'.admits hfree o
  rw [z.slot_eq, hr, Nat.zero_mod] at hx₁
  rw [z.slot_eq, hn, Nat.mod_self] at hx₄
  obtain ⟨tr', h', htr, hrace⟩ := Machine.exists_race (S := {.drain})
    (hrun.append hp₁) hs₁ hx₁ (hp₂.append hp₃) hs₄ hx₄ rfl (by simp)
    fun h _ => confined_drain h (.inl ho)
  refine ⟨tr', _, h', ?_, hrace⟩
  refine below_of_le hz ?_
  simp only [htr, length_claims_append, hw.claims_eq]
  exact le_rfl

end

/-- In a ring of one cell, whatever the orders: a record is read while the next is written. -/
theorem races_of_one (hone : z.card = 1) (i : ι) (o : Orders) : Races o z ι := by
  have hwaiting : Waiting 1 0 (history (acceptEvents i hello)) (once z : State ι) :=
    ⟨fun _ => rfl, rfl, show ¬ hello.level < LogLevel.kInfo by decide, rfl, rfl⟩
  have hrun : (machine z).Run (acceptEvents i hello) (once z : State ι) :=
    ⟨_, ⟨_, _, rfl⟩, once_path hone i⟩
  have hslot := slot_of_one hone
  have hseq := sequence_accept hone (fresh : State ι).shared hello
  obtain ⟨s₁, hp₁, hs₁, hx₁, -⟩ := first_read (z := z) (s := once z) (ι := ι) rfl
    (by rw [hslot]; exact hseq) o
  obtain ⟨s₄, s₅, hp₃, hs₄, hx₄, -⟩ := first_assignment (z := z)
    (s := { (once z : State ι) with drain := Drain.reading z (once z : State ι).shared }) (i := i)
    rfl hwaiting.admits (by rw [hslot]; exact hseq) o
  rw [hslot] at hx₁ hx₄
  obtain ⟨tr', h', htr, hrace⟩ := Machine.exists_race (S := {.drain})
    (hrun.append hp₁) hs₁ hx₁ hp₃ hs₄ hx₄ rfl (by simp) fun h htr => confined_drain h (.inr (by
      rw [htr]
      simp [acceptEvents, claimEvents]))
  refine ⟨tr', _, h', ?_, hrace⟩
  have hclaims : (history (tr'.map Prod.fst)).claims.length = 2 := by rw [htr]; rfl
  rw [CountersBelow, hclaims, hone]
  exact show 2 + 1 ≤ 2 ^ 63 by omega

/-- **No data race, because of four memory orders and a second cell.** With the orders in the source
and a ring of at least two cells, in every run any two accesses to a field of a record are ordered
by happens-before. With any of the four relaxed, or in a ring of one cell, there is a run in which
they are not. (The largest rings are left out: their counters are too large before they have gone
round.) -/
theorem race_free_iff_two_cells (hz : z.log < 62) (i : ι) (o : Orders) :
    (∀ tr, ∀ s : State ι, (accesses o z).Run tr s → CountersBelow z (history (tr.map Prod.fst)) →
      Ordered (tr.map Prod.snd)) ↔ o = .source ∧ 2 ≤ z.card := by
  constructor
  · intro h
    have hno : ¬ Races o z ι := by
      rintro ⟨tr, s, hrun, hb, hnot⟩
      exact hnot (h tr s hrun hb)
    have hpos := z.card_pos
    have h2 : 2 ≤ z.card := by
      by_contra hlt
      exact hno (races_of_one (by omega) i o)
    refine ⟨?_, h2⟩
    have hpublish := not_not.mp fun ho => hno (races_of_publish h2 hz i ho)
    have hfree := not_not.mp fun ho => hno (races_of_free h2 hz i ho)
    obtain ⟨_, _, _, _⟩ := o
    obtain ⟨rfl, rfl⟩ := hpublish
    obtain ⟨rfl, rfl⟩ := hfree
    rfl
  · rintro ⟨rfl, h2⟩ tr s hrun hb
    exact (Guarded.of_run h2 hrun hb).ordered

theorem race_free_iff_two_cells_small :
    (∀ tr, ∀ s : State Bool, (accesses .source twoCells).Run tr s →
      CountersBelow twoCells (history (tr.map Prod.fst)) → Ordered (tr.map Prod.snd)) ↔
        Orders.source = .source ∧ 2 ≤ twoCells.card :=
  race_free_iff_two_cells (by decide) true .source

end MpscRtLogger

end XmSigma
