import XmSigma.Lib.Machine
import Mathlib.Order.Nat

/-!
# Happens-before

The accesses to memory of an execution, in the order in which they happened. A thread orders its
own; between two threads there is order only where an acquire load reads what a release store
wrote. Plain locations are not atomic, so two accesses to one of them by different threads are a
race unless the first happens before the second.

A discipline that rules races out is to pass each location on: at any moment there is a thread that
knows all accesses to it, and is the only one to make more, or there is an atomic variable that
carries the knowledge of them to whoever acquires it (`Custody`).

A load reads the last store to its variable: the executions are interleavings.

## Main definitions

* `MemAccess`, `HB`: accesses, and which of them happen before which
* `KnownTo`, `CarriedBy`: who knows the accesses to a location, and what carries the knowledge
* `Ordered`: any two accesses to one location are ordered
* `Custody`: there is no race because somebody answers for each location

## Main results

* `CarriedBy.acquire`, `KnownTo.release`: how the knowledge is passed on
* `Custody.snoc`: what an access leaves of a custody
* `Machine.exists_race`: how a race comes about
* `not_ordered`: without a release to it, a thread races with whoever touched a location before it
-/

namespace XmSigma

/-- An access to memory by a thread of `κ`, to an atomic variable of `α` or a plain location of
`χ`. -/
inductive MemAccess (κ α χ : Type*)
  | plain (k : κ) (x : χ)
  | load (k : κ) (l : α) (acquire : Bool)
  | store (k : κ) (l : α) (release : Bool)
  /-- A relaxed read-modify-write. What it writes continues the release sequence of what it read. -/
  | update (k : κ) (l : α)
  /-- A step that touches nothing that is shared. -/
  | silent (k : κ)
  deriving DecidableEq

namespace MemAccess

variable {κ α χ : Type*}

/-- The thread that makes the access. -/
def thread : MemAccess κ α χ → κ
  | plain k _ | load k _ _ | store k _ _ | update k _ | silent k => k

/-- The access is a store to `l`, whatever its order. -/
def Stores (l : α) : MemAccess κ α χ → Prop
  | store _ l' _ => l' = l
  | _ => False

end MemAccess

variable {κ α χ : Type*} {es fs : List (MemAccess κ α χ)} {b : MemAccess κ α χ} {k k' : κ} {l : α}
  {x : χ} {i j m : ℕ}

/-- The `i`-th access happens before the `j`-th. -/
inductive HB (es : List (MemAccess κ α χ)) : ℕ → ℕ → Prop
  | program {i j : ℕ} {a b : MemAccess κ α χ} (hij : i < j) (hi : es[i]? = some a)
    (hj : es[j]? = some b) (hthread : a.thread = b.thread) : HB es i j
  | sync {i j : ℕ} {k k' : κ} {l : α} (hij : i < j) (hi : es[i]? = some (.store k l true))
    (hj : es[j]? = some (.load k' l true))
    (hlast : ∀ n b, i < n → n < j → es[n]? = some b → ¬ b.Stores l) : HB es i j
  | trans {i j m : ℕ} (hij : HB es i j) (hjm : HB es j m) : HB es i m

/-! ### Executions that go on -/

theorem HB.lt_length (h : HB es i j) : i < j ∧ j < es.length := by
  induction h with
  | program hij _ hj _ => exact ⟨hij, (List.getElem?_eq_some_iff.mp hj).1⟩
  | sync hij _ hj _ => exact ⟨hij, (List.getElem?_eq_some_iff.mp hj).1⟩
  | trans _ _ ih ih' => exact ⟨ih.1.trans ih'.1, ih'.2⟩

theorem getElem?_append_of_some {a : MemAccess κ α χ} (h : es[i]? = some a) :
    (es ++ fs)[i]? = some a := by
  rw [List.getElem?_append_left (List.getElem?_eq_some_iff.mp h).1, h]

/-- What happened before goes on to have happened before. -/
theorem HB.append (h : HB es i j) (fs : List (MemAccess κ α χ)) : HB (es ++ fs) i j := by
  induction h with
  | program hij hi hj hthread =>
    exact .program hij (getElem?_append_of_some hi) (getElem?_append_of_some hj) hthread
  | sync hij hi hj hlast =>
    refine .sync hij (getElem?_append_of_some hi) (getElem?_append_of_some hj)
      fun n b hin hnj hn => hlast n b hin hnj ?_
    have hlen := (List.getElem?_eq_some_iff.mp hj).1
    rwa [List.getElem?_append_left (hnj.trans hlen)] at hn
  | trans _ _ ih ih' => exact .trans ih ih'

theorem getElem?_snoc_self (es : List (MemAccess κ α χ)) (b : MemAccess κ α χ) :
    (es ++ [b])[es.length]? = some b := List.getElem?_concat_length

theorem getElem?_snoc {a : MemAccess κ α χ} (h : (es ++ [b])[i]? = some a) :
    es[i]? = some a ∨ i = es.length ∧ a = b := by
  rcases Nat.lt_or_ge i es.length with hlt | hge
  · exact .inl (by rwa [List.getElem?_append_left hlt] at h)
  · have hlen := (List.getElem?_eq_some_iff.mp h).1
    rw [List.length_append, List.length_singleton] at hlen
    obtain rfl : i = es.length := by omega
    rw [getElem?_snoc_self] at h
    exact .inr ⟨rfl, (Option.some.inj h).symm⟩

/-! ### What a thread knows, and what a variable carries -/

/-- The `i`-th access happens before whatever thread `k` does next. -/
def Known (es : List (MemAccess κ α χ)) (k : κ) (i : ℕ) : Prop :=
  ∃ m b, es[m]? = some b ∧ b.thread = k ∧ (i = m ∨ HB es i m)

/-- The `i`-th access happens before whatever acquires the present value of `l`. -/
def Carried (es : List (MemAccess κ α χ)) (l : α) (i : ℕ) : Prop :=
  ∃ m k, es[m]? = some (.store k l true) ∧
    (∀ n b, m < n → es[n]? = some b → ¬ b.Stores l) ∧ (i = m ∨ HB es i m)

theorem Known.snoc (h : Known es k i) (b : MemAccess κ α χ) : Known (es ++ [b]) k i := by
  obtain ⟨m, a, hm, ha, hcase⟩ := h
  exact ⟨m, a, getElem?_append_of_some hm, ha, hcase.imp_right fun h => h.append _⟩

theorem Known.self (es : List (MemAccess κ α χ)) (b : MemAccess κ α χ) :
    Known (es ++ [b]) b.thread es.length :=
  ⟨_, b, getElem?_snoc_self es b, rfl, .inl rfl⟩

/-- What a thread knows happens before its next access. -/
theorem Known.hb (h : Known es b.thread i) : HB (es ++ [b]) i es.length := by
  obtain ⟨m, a, hm, ha, hcase⟩ := h
  have hlast : HB (es ++ [b]) m es.length :=
    .program (List.getElem?_eq_some_iff.mp hm).1 (getElem?_append_of_some hm)
      (getElem?_snoc_self es b) ha
  rcases hcase with rfl | hhb
  · exact hlast
  · exact .trans (hhb.append _) hlast

theorem Carried.snoc (h : Carried es l i) (hb : ¬ b.Stores l) : Carried (es ++ [b]) l i := by
  obtain ⟨m, k, hm, hlast, hcase⟩ := h
  refine ⟨m, k, getElem?_append_of_some hm, fun n a hmn hn => ?_,
    hcase.imp_right fun h => h.append _⟩
  rcases getElem?_snoc hn with hn | ⟨-, rfl⟩
  · exact hlast n a hmn hn
  · exact hb

/-- An acquire load learns what its variable carries. -/
theorem Carried.acquire (h : Carried es l i) (k : κ) :
    Known (es ++ [.load k l true]) k i := by
  obtain ⟨m, k', hm, hlast, hcase⟩ := h
  have hlen := (List.getElem?_eq_some_iff.mp hm).1
  have hsync : HB (es ++ [.load k l true]) m es.length := by
    refine .sync hlen (getElem?_append_of_some hm) (getElem?_snoc_self ..)
      fun n b hmn hn hnb => hlast n b hmn ?_
    rwa [List.getElem?_append_left hn] at hnb
  refine ⟨_, _, getElem?_snoc_self .., rfl, .inr ?_⟩
  rcases hcase with rfl | hhb
  · exact hsync
  · exact .trans (hhb.append _) hsync

/-- After a release store the variable carries what the thread knows. -/
theorem Known.release (h : Known es k i) (l : α) : Carried (es ++ [.store k l true]) l i := by
  refine ⟨es.length, k, getElem?_snoc_self .., fun n b hn hnb => ?_, .inr (Known.hb h)⟩
  have hlen := (List.getElem?_eq_some_iff.mp hnb).1
  rw [List.length_append, List.length_singleton] at hlen
  omega

/-! ### Passing a location on -/

/-- The `i`-th access is to location `x`. -/
def Touches (es : List (MemAccess κ α χ)) (x : χ) (i : ℕ) : Prop := ∃ k, es[i]? = some (.plain k x)

/-- Thread `k` knows all accesses to `x`. -/
def KnownTo (es : List (MemAccess κ α χ)) (k : κ) (x : χ) : Prop :=
  ∀ i, Touches es x i → Known es k i

/-- Variable `l` carries the knowledge of all accesses to `x`. -/
def CarriedBy (es : List (MemAccess κ α χ)) (l : α) (x : χ) : Prop :=
  ∀ i, Touches es x i → Carried es l i

/-- Any two accesses to one location are ordered: there is no race. -/
def Ordered (es : List (MemAccess κ α χ)) : Prop :=
  ∀ x i j, i < j → Touches es x i → Touches es x j → HB es i j

theorem Touches.of_snoc (h : Touches (es ++ [b]) x i) :
    Touches es x i ∨ i = es.length ∧ ∃ k, b = .plain k x := by
  obtain ⟨k, hk⟩ := h
  rcases getElem?_snoc hk with hk | ⟨hi, hb⟩
  · exact .inl ⟨k, hk⟩
  · exact .inr ⟨hi, k, hb.symm⟩

/-- Without accesses, anybody knows all of them. -/
theorem knownTo_nil (k : κ) (x : χ) : KnownTo ([] : List (MemAccess κ α χ)) k x := by
  rintro i ⟨k, hk⟩
  cases hk

theorem carriedBy_nil (l : α) (x : χ) : CarriedBy ([] : List (MemAccess κ α χ)) l x := by
  rintro i ⟨k, hk⟩
  cases hk

theorem ordered_nil : Ordered ([] : List (MemAccess κ α χ)) := by
  rintro x i j - ⟨k, hk⟩
  cases hk

/-- Only another thread's access to the location takes the knowledge away. -/
theorem KnownTo.snoc (h : KnownTo es k x) (hb : ∀ k', b = .plain k' x → k' = k) :
    KnownTo (es ++ [b]) k x := by
  intro i hi
  rcases hi.of_snoc with hi | ⟨rfl, k', rfl⟩
  · exact (h i hi).snoc b
  · obtain rfl := hb k' rfl
    exact Known.self es _

theorem CarriedBy.snoc (h : CarriedBy es l x) (hb : ∀ k, b ≠ .plain k x) (hl : ¬ b.Stores l) :
    CarriedBy (es ++ [b]) l x := by
  intro i hi
  rcases hi.of_snoc with hi | ⟨-, k, rfl⟩
  · exact (h i hi).snoc hl
  · exact absurd rfl (hb k)

theorem CarriedBy.acquire (h : CarriedBy es l x) (k : κ) :
    KnownTo (es ++ [.load k l true]) k x := by
  intro i hi
  rcases hi.of_snoc with hi | ⟨-, k', hk⟩
  · exact (h i hi).acquire k
  · cases hk

theorem KnownTo.release (h : KnownTo es k x) (l : α) :
    CarriedBy (es ++ [.store k l true]) l x := by
  intro i hi
  rcases hi.of_snoc with hi | ⟨-, k', hk⟩
  · exact (h i hi).release l
  · cases hk

/-- A thread that knows the accesses to a location may make one. -/
theorem Ordered.snoc (h : Ordered es) (hb : ∀ k x, b = .plain k x → KnownTo es k x) :
    Ordered (es ++ [b]) := by
  intro x i j hij hi hj
  rcases hj.of_snoc with hj | ⟨rfl, k, rfl⟩
  · rcases hi.of_snoc with hi | ⟨rfl, -⟩
    · exact (h x i j hij hi hj).append _
    · obtain ⟨k, hk⟩ := hj
      have := (List.getElem?_eq_some_iff.mp hk).1
      omega
  · rcases hi.of_snoc with hi | ⟨rfl, -⟩
    · exact Known.hb (hb k x rfl i hi)
    · exact absurd hij (lt_irrefl _)

/-! ### Custody -/

/-- Who answers for the accesses to a location: a thread that knows them, or a variable that carries
the knowledge of them. -/
inductive Keeper (κ α : Type*)
  | thread (k : κ)
  | var (l : α)

variable {g g' : χ → Keeper κ α → Prop}

/-- The keeper answers for the access to `x`. -/
def Keeper.Keeps (es : List (MemAccess κ α χ)) (x : χ) : Keeper κ α → Prop
  | thread k => KnownTo es k x
  | var l => CarriedBy es l x

/-- Who may answer for `x` after the access `b`, if `g` says who did before: a keeper that `b`
leaves alone, or one that `b` hands the location to. -/
inductive HandsOn (g : χ → Keeper κ α → Prop) (b : MemAccess κ α χ) (x : χ) : Keeper κ α → Prop
  | know {k : κ} (h : g x (.thread k)) (hb : ∀ k', b = .plain k' x → k' = k) :
    HandsOn g b x (.thread k)
  | carry {l : α} (h : g x (.var l)) (hb : ∀ k, b ≠ .plain k x) (hl : ¬ b.Stores l) :
    HandsOn g b x (.var l)
  | acquire {k : κ} {l : α} (h : g x (.var l)) (hb : b = .load k l true) :
    HandsOn g b x (.thread k)
  | release {k : κ} {l : α} (h : g x (.thread k)) (hb : b = .store k l true) :
    HandsOn g b x (.var l)

/-- A keeper that the access leaves alone. -/
theorem HandsOn.keep {c : Keeper κ α} (h : g x c) (hb : ∀ k, b ≠ .plain k x)
    (hl : ∀ l, c = .var l → ¬ b.Stores l) : HandsOn g b x c := by
  cases c with
  | thread k => exact .know h fun k' hk => absurd hk (hb k')
  | var l => exact .carry h hb (hl l rfl)

/-- So far there is no race, and `g` says who answers for which location. -/
structure Custody (es : List (MemAccess κ α χ)) (g : χ → Keeper κ α → Prop) : Prop where
  ordered : Ordered es
  keeps : ∀ x c, g x c → c.Keeps es x

/-- Before the first access, anybody may answer for anything. -/
theorem Custody.nil (g : χ → Keeper κ α → Prop) : Custody ([] : List (MemAccess κ α χ)) g where
  ordered := ordered_nil
  keeps x c _ := by
    cases c with
    | thread k => exact knownTo_nil k x
    | var l => exact carriedBy_nil l x

/-- **The rule of custody.** A location is only touched by a thread that answers for it, and every
keeper after the access has it from one before. -/
theorem Custody.snoc (h : Custody es g) (hplain : ∀ k x, b = .plain k x → g x (.thread k))
    (hg : ∀ x c, g' x c → HandsOn g b x c) : Custody (es ++ [b]) g' where
  ordered := h.ordered.snoc fun k x hb => h.keeps x _ (hplain k x hb)
  keeps x c hc := by
    cases hg x c hc with
    | know hx hb => exact (h.keeps x _ hx).snoc hb
    | carry hx hb hl => exact (h.keeps x _ hx).snoc hb hl
    | acquire hx hb =>
      subst hb
      exact (h.keeps x _ hx).acquire _
    | release hx hb =>
      subst hb
      exact (h.keeps x _ hx).release _

/-- An access that neither touches a location nor stores a variable that answers for one. -/
theorem Custody.snoc_of_le (h : Custody es g) (hplain : ∀ k x, b ≠ .plain k x)
    (hg : ∀ x c, g' x c → g x c) (hl : ∀ x l, g' x (.var l) → ¬ b.Stores l) :
    Custody (es ++ [b]) g' := by
  refine h.snoc (fun k x hb => absurd hb (hplain k x)) fun x c hc => ?_
  refine .keep (hg x c hc) (fun k => hplain k x) ?_
  rintro l rfl
  exact hl x l hc

/-! ### Where there is no order -/

/-- The threads of `S` release nothing to the others. -/
def Confined (es : List (MemAccess κ α χ)) (S : Set κ) : Prop :=
  ∀ k ∈ S, ∀ l, .store k l true ∈ es → ∀ k', .load k' l true ∈ es → k' ∈ S

/-- Only threads of `S` come after what one of them does. -/
theorem HB.mem_of_confined (h : HB es i j) {S : Set κ} (hS : Confined es S) {a : MemAccess κ α χ}
    (hi : es[i]? = some a) (ha : a.thread ∈ S) : ∀ b, es[j]? = some b → b.thread ∈ S := by
  induction h generalizing a with
  | program _ hi' hj hthread =>
    rintro b hb
    rw [hi] at hi'
    rw [hj] at hb
    cases hi'
    cases hb
    exact hthread ▸ ha
  | sync _ hi' hj _ =>
    rintro b hb
    rw [hi] at hi'
    rw [hj] at hb
    cases hi'
    cases hb
    exact hS _ ha _ (List.mem_of_getElem? hi) _ (List.mem_of_getElem? hj)
  | trans hij _ ih ih' =>
    have hmid := List.getElem?_eq_getElem hij.lt_length.2
    exact ih' hmid (ih hi ha _ hmid)

/-- A thread that has not been released to may not touch what another has touched. -/
theorem not_ordered {S : Set κ} (hS : Confined es S) (hk : k ∈ S) (hk' : k' ∉ S)
    (hmem : .plain k x ∈ es) : ¬ Ordered (es ++ [.plain k' x]) := by
  intro h
  obtain ⟨i, hi⟩ := List.mem_iff_getElem?.mp hmem
  have hi' : (es ++ [.plain k' x])[i]? = some (.plain k x) := getElem?_append_of_some hi
  have hhb := h x i es.length (List.getElem?_eq_some_iff.mp hi).1 ⟨k, hi'⟩
    ⟨k', getElem?_snoc_self ..⟩
  refine hk' (hhb.mem_of_confined (S := S) (fun k₁ hk₁ l hs k₂ hl => ?_) hi' hk _
    (getElem?_snoc_self ..))
  simp only [List.mem_append, List.mem_singleton, reduceCtorEq, or_false] at hs hl
  exact hS k₁ hk₁ l hs k₂ hl

/-! ### Machines whose steps are accesses -/

/-- A run in which one thread touches a location and later another that it has not released to. -/
theorem Machine.exists_race {σ ι ε : Type*} {M : Machine σ ι ε} {note : σ → ι → MemAccess κ α χ}
    {s₁ s₂ s₃ s₄ : σ} {a a' : ι} {e e' : ε} {tr₁ tr₂ : List ε} {S : Set κ}
    (h₁ : M.Run tr₁ s₁) (ha : M.step s₁ a = some (s₂, e)) (hx : note s₁ a = .plain k x)
    (h₂ : M.Path s₂ tr₂ s₃) (ha' : M.step s₃ a' = some (s₄, e')) (hx' : note s₃ a' = .plain k' x)
    (hk : k ∈ S) (hk' : k' ∉ S)
    (hS : ∀ {tr}, (M.annotate note).Run tr s₃ → tr.map Prod.fst = tr₁ ++ [e] ++ tr₂ →
      Confined (tr.map Prod.snd) S) :
    ∃ tr, (M.annotate note).Run tr s₄ ∧ tr.map Prod.fst = tr₁ ++ [e] ++ tr₂ ++ [e'] ∧
      ¬ Ordered (tr.map Prod.snd) := by
  obtain ⟨tr₁', h₁', rfl⟩ := h₁.annotate note
  obtain ⟨tr₂', h₂', rfl⟩ := h₂.annotate note
  have hrun := (h₁'.snoc (annotate_step_iff.mpr ⟨a, ha, hx⟩)).append h₂'
  have hfst : (tr₁' ++ [(e, MemAccess.plain k x)] ++ tr₂').map Prod.fst =
      tr₁'.map Prod.fst ++ [e] ++ tr₂'.map Prod.fst := by simp
  refine ⟨_, hrun.snoc (annotate_step_iff.mpr ⟨a', ha', hx'⟩), by simp, ?_⟩
  rw [List.map_append]
  exact not_ordered (hS hrun hfst) hk hk' (by simp)

end XmSigma
