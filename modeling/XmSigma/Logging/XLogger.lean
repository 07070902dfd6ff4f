import XmSigma.Logging.LevelTest
import XmSigma.Logging.LogLevelEnv

/-!
# The soft-real-time front-end

The log statements of `xlogger.hpp`, and what `LoggerVendorSpdlog` makes of them. A statement below
`XMSIGMA_ACTIVE_LEVEL` is compiled out. What is left comes in two forms: `XLOG_INFO` hands its
arguments to `Log`, and `spdlog` tests the level before it formats them; `XLOG_INFO_STREAM` tests
the level itself, so that it need not build its message, and then it is tested once more. In
between any thread may change the level.

Behind the front-end is `spdlog`: a level that is loaded and stored atomically, `should_log`, which
compares with it, and a queue to which a formatted record is posted. A message that fails comes to
the queue in neither form, but what the caller sees of it differs: an exception that is thrown into
the stream leaves the statement, an error of formatting is caught by `spdlog` and reported.

The arguments of a statement are values here. The first form evaluates them in any case, the second
after its test, so where evaluating them does something that is to be seen as well.

## Main definitions

* `XLogger.machine`: threads that execute log statements, of the forms that `S` allows
* `XLogger.Shown`: what can be seen of them, the form of a failure included

## Main results

* `shows_iff`: the forms matter for how failures are seen, and for nothing else
* `forms_interchangeable`: so one form can be put for the other
* `judged_by_level`: every statement is dealt with as a level says that was in force meanwhile
-/

namespace XmSigma

/-! ### Levels and the levels of `spdlog` -/

/-- The underlying integer of `spdlog::level::level_enum`. -/
def SpdlogLevel.value : SpdlogLevel → ℕ
  | trace => 0 | debug => 1 | info => 2 | warn => 3 | err => 4 | critical => 5 | off => 6

/-- `ToSpdlogLevel`, on all values of the enumeration: any `int` can be cast to it. -/
def toSpdlogLevel (level : ℤ) : SpdlogLevel :=
  if h : 0 ≤ level ∧ level ≤ 6 then (LogLevel.ofValue ⟨level.toNat, by omega⟩).toSpdlogLevel
  else .off

namespace XLogger

/-! ### Statements -/

/-- The two forms of a log statement, `XLOG_IMPL_` and `XLOG_STREAM_IMPL_`. -/
inductive Form
  | fmt
  | stream
  deriving DecidableEq

/-- A statement of that level is compiled in. There is none for `kOff`. -/
def compiledIn (activeLevel : ℤ) (level : LogLevel) : Bool :=
  decide (activeLevel ≤ level.value) && decide (level ≠ .kOff)

/-- `should_log`. -/
def shouldLog (logger : SpdlogLevel) (level : LogLevel) : Bool :=
  decide (level.toSpdlogLevel.value ≥ logger.value)

theorem shouldLog_iff (logger : SpdlogLevel) (level : LogLevel) :
    shouldLog logger level = true ↔ ¬ level < logger.toLogLevel := by
  cases logger <;> cases level <;> decide

/-- How far a thread is with its statement. -/
inductive Stmt
  | idle
  /-- The stream form is about to test the level. -/
  | should (c : Call)
  /-- The stream form is about to build its message. -/
  | build (c : Call)
  /-- `spdlog` is about to test the level. -/
  | log (c : Call)
  /-- It is about to format the message. -/
  | format (c : Call)
  /-- The message has failed. In the stream form an exception is about to leave the statement; in
  the other one `spdlog` has caught it and is about to report it. -/
  | fail (form : Form) (c : Call)
  /-- The record is about to be queued. -/
  | post (c : Call)

/-- Where a statement begins. -/
def Form.start : Form → Call → Stmt
  | .fmt, c => .log c
  | .stream, c => .should c

/-- The logger and the threads that use it. -/
structure State (ι : Type*) where
  /-- The level of `logger_`. -/
  level_ : SpdlogLevel
  stmt : ι → Stmt

/-- What a step does. -/
inductive Event (ι : Type*)
  | call (i : ι) (c : Call)
  | suppress (i : ι) (c : Call)
  | go (i : ι)
  /-- The statement ends in an exception, or with a report of `spdlog`. -/
  | fail (form : Form) (i : ι) (c : Call)
  | post (i : ι) (c : Call)
  /-- `XLOG_LEVEL`. -/
  | setLevel (level : ℤ)

/-- What can be seen of log statements: what becomes of each, and whether a failure leaves it as an
exception, in the stream form, or is reported, in the other one. -/
inductive Shown (ι : Type*)
  | call (i : ι) (c : Call)
  | suppress (i : ι) (c : Call)
  | fail (form : Form) (i : ι) (c : Call)
  | post (i : ι) (c : Call)
  | setLevel (level : LogLevel)
  deriving DecidableEq

/-- What that is to somebody who asks no more of a failed message than that it is not queued. -/
def Shown.sight {ι : Type*} : Shown ι → Sight ι
  | .call i c => .call i c
  | .suppress i c => .suppress i c
  | .fail _ i c => .drop i c
  | .post i c => .publish i c
  | .setLevel level => .setLevel level

/-- What is seen of a step. A level without a name counts as `kOff`. -/
def Event.shown {ι : Type*} : Event ι → Option (Shown ι)
  | .call i c => some (.call i c)
  | .suppress i c => some (.suppress i c)
  | .go _ => none
  | .fail form i c => some (.fail form i c)
  | .post i c => some (.post i c)
  | .setLevel level => some (.setLevel (toSpdlogLevel level).toLogLevel)

/-- The same, with failures of either form alike. -/
def Event.view {ι : Type*} (e : Event ι) : Option (Sight ι) :=
  e.shown.map Shown.sight

/-- A choice of the scheduler: which thread goes on, or begins a statement or changes the level. -/
inductive Action (ι : Type*)
  | call (i : ι) (form : Form) (c : Call)
  | go (i : ι)
  | setLevel (level : ℤ)

/-- What a message comes to: it goes on to `next`, or fails. -/
def made (form : Form) (c : Call) (next : Stmt) : Stmt :=
  match c.message with
  | .ok _ => next
  | .throws _ => .fail form c

/-- The next step of a statement of thread `i`. -/
def Stmt.next {ι : Type*} (logger : SpdlogLevel) (i : ι) : Stmt → Option (Stmt × Event ι)
  | .idle => none
  | .should c =>
    if shouldLog logger c.level then some (.build c, .go i) else some (.idle, .suppress i c)
  | .build c => some (made .stream c (.log c), .go i)
  | .log c =>
    if shouldLog logger c.level then some (.format c, .go i) else some (.idle, .suppress i c)
  | .format c => some (made .fmt c (.post c), .go i)
  | .fail form c => some (.idle, .fail form i c)
  | .post c => some (.idle, .post i c)

variable {ι : Type*} [DecidableEq ι]

/-- The state in which thread `i` has come to `p`. -/
def State.move (s : State ι) (i : ι) (p : Stmt) : State ι :=
  { s with stmt := Function.update s.stmt i p }

/-- A step of a thread or of the level. -/
def step (S : Form → Bool) (activeLevel : ℤ) (s : State ι) :
    Action ι → Option (State ι × Event ι)
  | .call i form c =>
    match s.stmt i with
    | .idle =>
      if S form ∧ compiledIn activeLevel c.level then some (s.move i (form.start c), .call i c)
      else none
    | _ => none
  | .go i => ((s.stmt i).next s.level_ i).map fun x => (s.move i x.1, x.2)
  | .setLevel level => some ({ s with level_ := toSpdlogLevel level }, .setLevel level)

/-- After `Initialize`, which takes the level from the environment. -/
def initial (long : Long) (getenv : String → Option (List UInt8)) : State ι where
  level_ := LoggerVendorSpdlog.initialLevel long getenv
  stmt _ := .idle

/-- Threads that execute log statements of the forms of `S`, compiled with `activeLevel`. -/
def machine (S : Form → Bool) (activeLevel : ℤ) : Machine (State ι) (Action ι) (Event ι) where
  init s := ∃ long getenv, s = initial long getenv
  step := step S activeLevel

/-- What a step can be. -/
inductive Move (S : Form → Bool) (activeLevel : ℤ) (s : State ι) : Event ι → State ι → Prop
  | call {i : ι} {form : Form} {c : Call} (hi : s.stmt i = .idle) (hform : S form = true)
    (hin : compiledIn activeLevel c.level = true) :
    Move S activeLevel s (.call i c) (s.move i (form.start c))
  | go {i : ι} {p : Stmt} {e : Event ι} (hnext : (s.stmt i).next s.level_ i = some (p, e)) :
    Move S activeLevel s e (s.move i p)
  | setLevel (level : ℤ) :
    Move S activeLevel s (.setLevel level) { s with level_ := toSpdlogLevel level }

variable {S S' : Form → Bool} {activeLevel : ℤ} {s s' : State ι} {e : Event ι} {c : Call} {i : ι}
  {p q : Stmt} {logger : SpdlogLevel} {long : Long} {getenv : String → Option (List UInt8)}

theorem Move.of_step (hs : (machine S activeLevel).Step s e s') : Move S activeLevel s e s' := by
  obtain ⟨a, ha⟩ := hs
  cases a with
  | call i form c =>
    simp only [machine, step] at ha
    split at ha
    · next hi =>
      split at ha <;> cases ha
      next hcall => exact .call hi hcall.1 hcall.2
    · cases ha
  | go i =>
    obtain ⟨⟨p, e⟩, hnext, ha⟩ := Option.map_eq_some_iff.mp ha
    cases ha
    exact .go hnext
  | setLevel level =>
    cases ha
    exact .setLevel level

theorem Move.step (h : Move S activeLevel s e s') : (machine S activeLevel).Step s e s' := by
  cases h with
  | @call i form c hi hform hin =>
    exact ⟨.call i form c, by simp only [machine, XLogger.step, hi, hform, hin, and_self, if_true]⟩
  | @go i p e hnext => exact ⟨.go i, Option.map_eq_some_iff.mpr ⟨_, hnext, rfl⟩⟩
  | setLevel level => exact ⟨.setLevel level, rfl⟩

theorem stmt_move (s : State ι) (i : ι) (p : Stmt) : (s.move i p).stmt i = p :=
  Function.update_self ..

theorem stmt_move_of_ne {j : ι} (s : State ι) (h : j ≠ i) (p : Stmt) :
    (s.move i p).stmt j = s.stmt j :=
  Function.update_of_ne h ..

theorem move_self (h : s.stmt i = p) : s.move i p = s := by
  rw [State.move, ← h, Function.update_eq_self]

theorem move_move (s : State ι) (i : ι) (p q : Stmt) : (s.move i p).move i q = s.move i q := by
  simp only [State.move, Function.update_idem]

/-! ### A statement of the stream form is one of the other form -/

/-- How far the statement is if its test is the one of `spdlog`, or the first one where the second
will not be reached. -/
def Stmt.plain : Stmt → Stmt
  | .should c => .log c
  | .build c =>
    match c.message with
    | .ok _ => .log c
    | .throws _ => .format c
  | .fail _ c => .fail .fmt c
  | p => p

/-- The state in which all statements are of the plain form. -/
def State.plain (s : State ι) : State ι := ⟨s.level_, fun i => (s.stmt i).plain⟩

/-- Only the form that hands its arguments on. -/
def onlyFmt (form : Form) : Bool := decide (form = .fmt)

theorem plain_move (s : State ι) (i : ι) (p : Stmt) :
    (s.move i p).plain = s.plain.move i p.plain := by
  simp only [State.plain, State.move, Function.apply_update fun _ => Stmt.plain]

theorem plain_start (form : Form) (c : Call) : (form.start c).plain = .log c := by
  cases form <;> rfl

/-- A message that is built has been tested for the first time, and a test that the plain form
still has to make comes after that; if it is not built, there will be no second test. -/
theorem plain_build (c : Call) :
    (Stmt.build c).plain = .log c ∧ (made .stream c (.log c)).plain = .log c ∨
      (Stmt.build c).plain = .format c ∧
        (made .stream c (.log c)).plain = made .fmt c (.post c) := by
  simp only [Stmt.plain, made]
  cases c.message with
  | ok text => exact .inl ⟨rfl, rfl⟩
  | throws written => exact .inr ⟨rfl, rfl⟩

theorem plain_made_fmt (c : Call) : (made .fmt c (.post c)).plain = made .fmt c (.post c) := by
  rw [made]
  split <;> rfl

omit [DecidableEq ι] in
/-- A step of a statement is one of the plain statement, or cannot be seen. -/
theorem plain_next (h : p.next logger i = some (q, e)) :
    (q.plain = p.plain ∧ e.view = none) ∨
      ∃ e', p.plain.next logger i = some (q.plain, e') ∧ e'.view = e.view := by
  cases p with
  | idle => cases h
  | should c =>
    rw [Stmt.next] at h
    split at h
    · next hlog =>
      cases h
      have hnext : (Stmt.log c).next logger i = some (.format c, .go i) := by
        rw [Stmt.next, if_pos hlog]
      rcases plain_build c with ⟨hbuild, -⟩ | ⟨hbuild, -⟩
      · exact .inl ⟨hbuild, rfl⟩
      · exact .inr ⟨.go i, hbuild ▸ hnext, rfl⟩
    · next hlow =>
      cases h
      exact .inr ⟨.suppress i c, if_neg hlow, rfl⟩
  | build c =>
    cases h
    rcases plain_build c with ⟨hbuild, hmade⟩ | ⟨hbuild, hmade⟩
    · exact .inl ⟨hmade.trans hbuild.symm, rfl⟩
    · refine .inr ⟨.go i, ?_, rfl⟩
      rw [hbuild, hmade, Stmt.next]
  | log c =>
    rw [Stmt.next] at h
    split at h
    · next hlog =>
      cases h
      exact .inr ⟨.go i, if_pos hlog, rfl⟩
    · next hlow =>
      cases h
      exact .inr ⟨.suppress i c, if_neg hlow, rfl⟩
  | format c =>
    cases h
    refine .inr ⟨.go i, ?_, rfl⟩
    rw [plain_made_fmt]
    rfl
  | fail form c =>
    cases h
    exact .inr ⟨.fail .fmt i c, rfl, rfl⟩
  | post c =>
    cases h
    exact .inr ⟨.post i c, rfl, rfl⟩

/-- A step of the threads is one of the plain threads, or cannot be seen. -/
theorem Move.plain (h : Move S activeLevel s e s') :
    (s'.plain = s.plain ∧ e.view = none) ∨
      ∃ e', Move onlyFmt activeLevel s.plain e' s'.plain ∧ e'.view = e.view := by
  cases h with
  | @call i form c hi hform hin =>
    have hidle : s.plain.stmt i = .idle := congrArg Stmt.plain hi
    refine .inr ⟨.call i c, ?_, rfl⟩
    rw [plain_move, plain_start]
    exact .call hidle (rfl : onlyFmt .fmt = true) hin
  | @go i p e hnext =>
    rw [plain_move]
    rcases plain_next hnext with ⟨hsame, hview⟩ | ⟨e', hnext', hview⟩
    · rw [hsame]
      exact .inl ⟨move_self rfl, hview⟩
    · exact .inr ⟨e', .go hnext', hview⟩
  | setLevel level => exact .inr ⟨.setLevel level, .setLevel level, rfl⟩

/-- A path of the threads is matched by one of the plain threads. -/
theorem shows_plain {s₀ : State ι} {tr : List (Event ι)} (h₀ : s₀.plain = s₀)
    (h : (machine S activeLevel).Path s₀ tr s) :
    (machine onlyFmt activeLevel).Shows Event.view s₀ (tr.filterMap Event.view) := by
  obtain ⟨tr', a, ha, hview, -⟩ := h.simulated (A := machine onlyFmt activeLevel)
    (v := Event.view) (w := Event.view) (P := fun _ => True) (R := fun _ s _ a => a = s.plain)
    (a := s₀) trivial (fun _ => trivial) h₀.symm
    fun {tr s e s' tr' a} _ _ _ ha hs => by
      subst ha
      rcases (Move.of_step hs).plain with ⟨heq, hview⟩ | ⟨e', hm, hview⟩
      · exact ⟨[], _, .refl, by rw [hview]; rfl, heq.symm⟩
      · exact ⟨[e'], _, hm.step.path, by rw [Machine.filterMap_singleton, hview], rfl⟩
  exact ⟨tr', a, ha, hview⟩

/-! ### How a message fails -/

/-- The form in which the message of a statement fails, if it does. -/
def Stmt.failing : Stmt → Option Form
  | .idle | .post _ => none
  | .should _ | .build _ => some .stream
  | .log c | .format c =>
    match c.message with
    | .ok _ => none
    | .throws _ => some .fmt
  | .fail form _ => some form

/-- No failure is seen that is of none of the forms of `S`. -/
def Fits (S : Form → Bool) (os : List (Shown ι)) : Prop :=
  ∀ form i c, .fail form i c ∈ os → S form = true

omit [DecidableEq ι] in
theorem Fits.of_append {os os' : List (Shown ι)} (h : Fits S (os ++ os')) : Fits S os :=
  fun form i c hmem => h form i c (List.mem_append_left _ hmem)

theorem failing_start {form form' : Form} (h : (form.start c).failing = some form') :
    form' = form := by
  cases form with
  | stream => cases h; rfl
  | fmt =>
    simp only [Form.start, Stmt.failing] at h
    split at h <;> cases h
    rfl

omit [DecidableEq ι] in
/-- The form of the failure is that of the statement. -/
theorem failing_next {form : Form} (h : p.next logger i = some (q, e)) :
    (q.failing = some form → p.failing = some form) ∧
      ∀ j c, e = .fail form j c → p.failing = some form := by
  cases p with
  | idle => cases h
  | should c =>
    rw [Stmt.next] at h
    split at h <;> cases h
    · exact ⟨id, by simp⟩
    · exact ⟨by simp [Stmt.failing], by simp⟩
  | build c =>
    cases h
    refine ⟨?_, by simp⟩
    simp only [made, Stmt.failing]
    cases hm : c.message <;> simp [hm]
  | log c =>
    rw [Stmt.next] at h
    split at h <;> cases h
    · exact ⟨id, by simp⟩
    · exact ⟨by simp [Stmt.failing], by simp⟩
  | format c =>
    cases h
    refine ⟨?_, by simp⟩
    simp only [made, Stmt.failing]
    cases hm : c.message <;> simp
  | fail form' c =>
    cases h
    refine ⟨by simp [Stmt.failing], fun j c' he => ?_⟩
    cases he
    rfl
  | post c =>
    cases h
    exact ⟨by simp [Stmt.failing], by simp⟩

/-- If the statements under way can fail only in the forms of `S`, then so can those after a step,
and so does the step. -/
theorem Move.fits (h : Move S activeLevel s e s')
    (hs : ∀ i form, (s.stmt i).failing = some form → S form = true) :
    (∀ i form, (s'.stmt i).failing = some form → S form = true) ∧
      ∀ form i c, e = .fail form i c → S form = true := by
  have hmove (i : ι) (p : Stmt) (hp : ∀ form, p.failing = some form → S form = true) :
      ∀ j form, ((s.move i p).stmt j).failing = some form → S form = true := by
    intro j form hj
    by_cases hji : j = i
    · subst hji
      rw [stmt_move] at hj
      exact hp form hj
    · rw [stmt_move_of_ne s hji] at hj
      exact hs j form hj
  cases h with
  | @call i form c hi hform hin =>
    exact ⟨hmove i _ fun form' hp => failing_start hp ▸ hform, by simp⟩
  | @go i p e hnext =>
    exact ⟨hmove i p fun form hp => hs i form ((failing_next hnext).1 hp),
      fun form j c he => hs i form ((failing_next hnext).2 j c he)⟩
  | setLevel level => exact ⟨hs, by simp⟩

/-- Only failures of the forms of `S` are seen. -/
theorem shown_fits {s₀ : State ι} {tr : List (Event ι)} (h₀ : ∀ i, s₀.stmt i = .idle)
    (h : (machine S activeLevel).Path s₀ tr s) : Fits S (tr.filterMap Event.shown) := by
  refine (h.rule (Q := fun _ => True) (I := fun tr s =>
    (∀ i form, (s.stmt i).failing = some form → S form = true) ∧ Fits S (tr.filterMap Event.shown))
    (fun _ _ => trivial) ⟨fun i form hi => ?_, by simp [Fits]⟩ fun {_ _ e _} _ ih hs => ?_).2
  · rw [h₀] at hi
    cases hi
  · obtain ⟨hfailing, hevent⟩ := (Move.of_step hs).fits ih.1
    refine ⟨hfailing, fun form i c hmem => ?_⟩
    rw [List.filterMap_append, Machine.filterMap_singleton, List.mem_append] at hmem
    rcases hmem with hmem | hmem
    · exact ih.2 form i c hmem
    · refine hevent form i c ?_
      cases e with
      | fail form' j c' =>
        cases List.mem_singleton.mp hmem
        rfl
      | _ => simp [Event.shown] at hmem

/-! ### A plain statement is one of either form -/

/-- A plain statement as one of the given form that has made no test of its own yet. -/
def Stmt.as (form : Form) : Stmt → Stmt
  | .log c => form.start c
  | .format c =>
    match form, c.message with
    | .stream, .throws _ => .build c
    | _, _ => .format c
  | .fail _ c => .fail form c
  | p => p

/-- The state in which the statement of each thread is of the form that `f` gives it. -/
def State.as (f : ι → Form) (s : State ι) : State ι := ⟨s.level_, fun i => (s.stmt i).as (f i)⟩

/-- The event, if the statement of each thread is of the form that `f` gives it. -/
def Event.as (f : ι → Form) : Event ι → Event ι
  | .fail _ i c => .fail (f i) i c
  | e => e

theorem as_move (f : ι → Form) (s : State ι) (i : ι) (p : Stmt) :
    (s.move i p).as f = (s.as f).move i (p.as (f i)) := by
  simp only [State.as, State.move, Function.apply_update fun i p => Stmt.as (f i) p]

theorem as_format (form : Form) (c : Call) :
    (Stmt.format c).as form = .format c ∧ (made .fmt c (.post c)).as form = made .fmt c (.post c) ∨
      (Stmt.format c).as form = .build c ∧
        (made .fmt c (.post c)).as form = made .stream c (.log c) := by
  simp only [Stmt.as, made]
  cases form with
  | fmt => cases c.message <;> exact .inl ⟨rfl, rfl⟩
  | stream =>
    cases c.message with
    | ok text => exact .inl ⟨rfl, rfl⟩
    | throws written => exact .inr ⟨rfl, rfl⟩

omit [DecidableEq ι] in
/-- A step of a plain statement is one of the same statement in the given form, unless that is the
stream form and the level is tested. -/
theorem as_next {f : ι → Form} (hp : p.plain = p) (h : p.next logger i = some (q, e)) :
    q.plain = q ∧ ((p.as (f i)).next logger i = some (q.as (f i), e.as f) ∨
      ∃ c, p = .log c ∧ q = .format c ∧ e = .go i ∧ f i = .stream ∧
        shouldLog logger c.level = true) := by
  cases p with
  | idle => cases h
  | should c => cases hp
  | build c =>
    rw [Stmt.plain] at hp
    split at hp <;> cases hp
  | log c =>
    rw [Stmt.next] at h
    split at h
    · next hlog =>
      cases h
      refine ⟨rfl, ?_⟩
      cases hf : f i with
      | fmt => exact .inl (if_pos hlog)
      | stream => exact .inr ⟨c, rfl, rfl, rfl, rfl, hlog⟩
    · next hlow =>
      cases h
      refine ⟨rfl, .inl ?_⟩
      cases f i <;> exact if_neg hlow
  | format c =>
    cases h
    refine ⟨plain_made_fmt c, .inl ?_⟩
    rcases as_format (f i) c with ⟨hform, hmade⟩ | ⟨hform, hmade⟩
    · rw [hform, hmade]
      rfl
    · rw [hform, hmade]
      rfl
  | fail form c =>
    cases h
    exact ⟨rfl, .inl rfl⟩
  | post c =>
    cases h
    exact ⟨rfl, .inl rfl⟩

/-- The stream form makes its own test, builds its message and is tested again, at once. -/
theorem log_path (hi : s.stmt i = .should c) (hlog : shouldLog s.level_ c.level)
    (S : Form → Bool) (activeLevel : ℤ) :
    ∃ tr, (machine S activeLevel).Path s tr (s.move i ((Stmt.format c).as .stream)) ∧
      tr.filterMap Event.shown = [] := by
  have hshould : Move S activeLevel s (.go i) (s.move i (.build c)) :=
    .go (hi ▸ if_pos hlog)
  cases hm : c.message with
  | throws written =>
    have has : (Stmt.format c).as .stream = .build c := by simp only [Stmt.as, hm]
    rw [has]
    exact ⟨_, hshould.step.path, rfl⟩
  | ok text =>
    have has : (Stmt.format c).as .stream = .format c := by simp only [Stmt.as, hm]
    have hmade : made .stream c (.log c) = .log c := by simp only [made, hm]
    have hbuild : Move S activeLevel (s.move i (.build c)) (.go i)
        ((s.move i (.build c)).move i (.log c)) :=
      .go (by rw [stmt_move, Stmt.next, hmade])
    rw [move_move] at hbuild
    have hformat : Move S activeLevel (s.move i (.log c)) (.go i)
        ((s.move i (.log c)).move i (.format c)) :=
      .go (by rw [stmt_move]; exact if_pos hlog)
    rw [move_move] at hformat
    rw [has]
    exact ⟨_, .cons hshould.step (.cons hbuild.step hformat.step.path), rfl⟩

/-- The plain threads can be followed by threads of any forms. -/
theorem Move.as {f : ι → Form} (hf : ∀ i, S (f i) = true) (hplain : s.plain = s)
    (h : Move onlyFmt activeLevel s e s') :
    s'.plain = s' ∧ ∃ tr, (machine S activeLevel).Path (s.as f) tr (s'.as f) ∧
      tr.filterMap Event.shown = (e.as f).shown.toList := by
  have hstmt (i : ι) : (s.stmt i).plain = s.stmt i := congrFun (congrArg State.stmt hplain) i
  cases h with
  | @call i form c hi hform hin =>
    obtain rfl : form = .fmt := of_decide_eq_true hform
    refine ⟨by rw [plain_move, hplain]; rfl, [.call i c], ?_, rfl⟩
    have hidle : (s.as f).stmt i = .idle := congrArg (Stmt.as (f i)) hi
    rw [as_move]
    exact (Move.call hidle (hf i) hin).step.path
  | @go i p e hnext =>
    obtain ⟨hp, hform | ⟨c, hi, rfl, rfl, hstream, hlog⟩⟩ := as_next (f := f) (hstmt i) hnext
    · refine ⟨by rw [plain_move, hplain, hp], [e.as f], ?_, Machine.filterMap_singleton ..⟩
      rw [as_move]
      exact (Move.go hform).step.path
    · refine ⟨by rw [plain_move, hplain, hp], ?_⟩
      have hshould : (s.as f).stmt i = .should c :=
        congrArg₂ Stmt.as hstream hi
      rw [as_move, hstream]
      exact log_path hshould hlog S activeLevel
  | setLevel level =>
    exact ⟨congrArg (State.mk _) (congrArg State.stmt hplain), _,
      (Move.step (.setLevel level)).path, rfl⟩

/-- With its failure the statement is over. -/
theorem Move.idle_of_fail {form : Form} (h : Move S activeLevel s (.fail form i c) s') :
    s'.stmt i = .idle := by
  generalize he : Event.fail form i c = e at h
  cases h with
  | call => cases he
  | @go j p e hnext =>
    subst he
    generalize s.stmt j = q at hnext
    cases q with
    | fail form' c' =>
      cases hnext
      exact stmt_move s i .idle
    | idle => cases hnext
    | should c' | log c' =>
      rw [Stmt.next] at hnext
      split at hnext <;> cases hnext
    | build c' | format c' | post c' => cases hnext
  | setLevel => cases he

/-- The form of a statement that fails may be chosen afterwards: from then on it does not matter. -/
theorem Move.exists_forms {f : ι → Form} {o : Shown ι} (h : Move onlyFmt activeLevel s e s')
    (hf : ∀ i, S (f i) = true) (hview : e.view = some o.sight)
    (ho : ∀ form i c, o = .fail form i c → S form = true) :
    ∃ g : ι → Form, (∀ i, S (g i) = true) ∧ (e.as g).shown = some o ∧ s'.as g = s'.as f := by
  cases e with
  | fail form i c =>
    have hidle := h.idle_of_fail
    cases o with
    | fail form' j c' =>
      cases hview
      refine ⟨Function.update f i form', fun j => ?_, ?_, ?_⟩
      · by_cases hji : j = i
        · rw [hji, Function.update_self]
          exact ho form' i c rfl
        · rw [Function.update_of_ne hji]
          exact hf j
      · simp only [Event.as, Function.update_self, Event.shown]
      · refine congrArg (State.mk _) (funext fun j => ?_)
        by_cases hji : j = i
        · rw [hji, hidle]
          rfl
        · rw [Function.update_of_ne hji]
    | _ => cases hview
  | go i => cases hview
  | _ =>
    refine ⟨f, hf, ?_, rfl⟩
    cases o <;> cases hview
    rfl

/-- What the plain threads show, threads of the forms of `S` show, whichever of these forms the
failures are to be of. -/
theorem shows_as {s₀ : State ι} {tr : List (Event ι)} (h₀ : s₀.plain = s₀)
    (has : ∀ f, s₀.as f = s₀) (h : (machine onlyFmt activeLevel).Path s₀ tr s) :
    s.plain = s ∧ ∀ os : List (Shown ι), os.map Shown.sight = tr.filterMap Event.view →
      Fits S os → ∀ f : ι → Form, (∀ i, S (f i) = true) →
        ∃ tr', (machine S activeLevel).Path s₀ tr' (s.as f) ∧ tr'.filterMap Event.shown = os := by
  -- the forms are chosen from the end of the run, so the invariant speaks of every choice of them
  induction h with
  | refl =>
    refine ⟨h₀, fun os hos _ f _ => ⟨[], ?_, ?_⟩⟩
    · rw [has]
      exact .refl
    · exact (List.map_eq_nil_iff.mp hos).symm
  | @snoc tr e s s' _ hs ih =>
    obtain ⟨hplain, ih⟩ := ih
    have hm := Move.of_step hs
    obtain ⟨form, hform⟩ : ∃ form, onlyFmt form = true := ⟨.fmt, rfl⟩
    refine ⟨(hm.as (S := onlyFmt) (fun _ => hform) hplain).1, fun os hos hfits f hf => ?_⟩
    rw [List.filterMap_append, Machine.filterMap_singleton] at hos
    obtain ⟨os₁, os₂, rfl, hos₁, hos₂⟩ := List.map_eq_append_iff.mp hos
    obtain ⟨g, hg, hshown, hsame⟩ : ∃ g : ι → Form, (∀ i, S (g i) = true) ∧
        (e.as g).shown.toList = os₂ ∧ s'.as g = s'.as f := by
      cases hview : e.view with
      | none =>
        rw [hview, Option.toList, List.map_eq_nil_iff] at hos₂
        refine ⟨f, hf, ?_, rfl⟩
        cases e with
        | go i => exact hos₂.symm
        | _ => cases hview
      | some o₁ =>
        rw [hview, Option.toList, List.map_eq_singleton_iff] at hos₂
        obtain ⟨o, rfl, ho⟩ := hos₂
        obtain ⟨g, hg, hshown, hsame⟩ := hm.exists_forms hf (hview.trans (congrArg some ho.symm))
          fun form i c ho => hfits form i c (by simp [ho])
        exact ⟨g, hg, by rw [hshown]; rfl, hsame⟩
    obtain ⟨tr', hp', hshown'⟩ := ih os₁ hos₁ hfits.of_append g hg
    obtain ⟨-, tr₁, hp₁, hshown₁⟩ := hm.as hg hplain
    refine ⟨tr' ++ tr₁, hsame ▸ hp'.append hp₁, ?_⟩
    rw [List.filterMap_append, hshown', hshown₁, hshown]

/-- **What the forms of `S` show** is what the plain form alone shows, but that the failures are of
these forms. -/
theorem shows_iff (hS : ∃ form, S form = true) {os : List (Shown ι)} :
    (machine S activeLevel).Shows Event.shown (initial long getenv) os ↔
      (machine onlyFmt activeLevel).Shows Event.view (initial long getenv)
        (os.map Shown.sight) ∧ Fits S os := by
  constructor
  · rintro ⟨tr, s, hp, rfl⟩
    refine ⟨?_, shown_fits (fun _ => rfl) hp⟩
    rw [List.map_filterMap]
    exact shows_plain rfl hp
  · rintro ⟨⟨tr, s, hp, hview⟩, hfits⟩
    obtain ⟨form, hform⟩ := hS
    obtain ⟨tr', hp', hshown⟩ := (shows_as (S := S) rfl (fun _ => rfl) hp).2 os hview.symm hfits
      (fun _ => form) fun _ => hform
    exact ⟨tr', _, hp', hshown⟩

/-- **The forms are interchangeable**: however the threads' statements and the changes of level
overlap, programs show the same whichever forms they are written in, but for the way in which
messages fail. That is one of the forms of the program, and any of them is possible. -/
theorem forms_interchangeable (hS : ∃ form, S form = true) (hS' : ∃ form, S' form = true) :
    (∀ os : List (Shown ι),
      (machine S activeLevel).Shows Event.shown (initial long getenv) os → Fits S os) ∧
    ∀ os os' : List (Shown ι), os.map Shown.sight = os'.map Shown.sight → Fits S os →
      Fits S' os' →
      ((machine S activeLevel).Shows Event.shown (initial long getenv) os ↔
        (machine S' activeLevel).Shows Event.shown (initial long getenv) os') := by
  refine ⟨fun os h => ((shows_iff hS).mp h).2, fun os os' hsame hfits hfits' => ?_⟩
  rw [shows_iff hS, shows_iff hS', hsame, and_iff_left hfits, and_iff_left hfits']

/-! ### The level test -/

/-- How far the statement is with its test. -/
def Stmt.phase : Stmt → Phase
  | .idle => .idle
  | .should c | .log c => .entered c
  | .build c =>
    match c.message with
    | .ok _ => .entered c
    | .throws _ => .admitted c
  | .format c => .admitted c
  | .fail _ c => .refused c
  | .post c => .writing c

/-- A message that is still to be made is tested once more, or will fail. -/
theorem test_made (c : Call) : (Stmt.build c).phase.test = (made .stream c (.log c)).phase.test ∧
    (Stmt.format c).phase.test = (made .fmt c (.post c)).phase.test := by
  simp only [made, Stmt.phase]
  cases c.message <;> exact ⟨rfl, rfl⟩

theorem levelMove_of_next {phase : ι → Phase} (hi : phase i = p.phase)
    (h : p.next logger i = some (q, e)) :
    LevelMove logger.toLogLevel phase e.view logger.toLogLevel
      (Function.update phase i q.phase) := by
  have hlow {c : Call} (h : ¬ shouldLog logger c.level = true) : c.level < logger.toLogLevel :=
    not_not.mp (mt (shouldLog_iff _ _).mpr h)
  cases p with
  | idle => cases h
  | should c =>
    rw [Stmt.next] at h
    split at h
    · next hlog =>
      cases h
      have hadmit : LevelMove logger.toLogLevel phase none _ (Function.update phase i _) :=
        .pass hi ((shouldLog_iff _ _).mp hlog)
      have hproceed : LevelMove logger.toLogLevel phase none _ (Function.update phase i _) :=
        .proceed (p := .entered c) (congrArg Phase.test hi)
      rw [Stmt.phase]
      split
      · exact hproceed
      · exact hadmit
    · next hnot =>
      cases h
      exact .suppress hi (hlow hnot)
  | build c =>
    cases h
    exact .proceed ((congrArg Phase.test hi).trans (test_made c).1)
  | log c =>
    rw [Stmt.next] at h
    split at h
    · next hlog =>
      cases h
      exact .pass hi ((shouldLog_iff _ _).mp hlog)
    · next hnot =>
      cases h
      exact .suppress hi (hlow hnot)
  | format c =>
    cases h
    exact .proceed ((congrArg Phase.test hi).trans (test_made c).2)
  | fail form c =>
    cases h
    exact .drop hi
  | post c =>
    cases h
    exact .publish hi

theorem levelMove_of_step (hs : (machine S activeLevel).Step s e s') :
    LevelMove s.level_.toLogLevel (fun i => (s.stmt i).phase) e.view s'.level_.toLogLevel
      (fun i => (s'.stmt i).phase) := by
  have hmove (i : ι) (p : Stmt) : (fun j => ((s.move i p).stmt j).phase) =
      Function.update (fun j => (s.stmt j).phase) i p.phase := by
    funext j
    exact Function.apply_update (fun _ => Stmt.phase) s.stmt i p j
  cases Move.of_step hs with
  | @call i form c hi =>
    rw [hmove]
    cases form <;> exact .call (congrArg Stmt.phase hi)
  | @go i p e hnext =>
    rw [hmove]
    exact levelMove_of_next rfl hnext
  | setLevel level => exact .setLevel _

/-- **Every statement goes by a level in force**: it is suppressed, or is not, as a level says that
was set before it began or while it was executed, the first one being that of the environment. -/
theorem judged_by_level {os : List (Sight ι)}
    (h : (machine S activeLevel).Shows Event.view (initial long getenv : State ι) os) :
    Past.Always (Sight.Judged (resolveLogLevelFromEnv long getenv defaultLogLevel)) os := by
  have hinit : (initial long getenv : State ι).level_.toLogLevel =
      resolveLogLevelFromEnv long getenv defaultLogLevel :=
    LoggerVendorSpdlog.getLoggerLevel_initial long getenv
  rw [← hinit]
  exact always_judged (fun s : State ι => s.level_.toLogLevel) (fun s i => (s.stmt i).phase)
    levelMove_of_step (fun _ => rfl) h

/-- `XLOG_INFO_STREAM`, and an `XLOG_LEVEL(4)` of another thread between its two tests. -/
def overtaken : Option (List (Event Unit) × State Unit) :=
  (machine (fun _ => true) 0).exec (initial ⟨64, by decide⟩ fun _ => none)
    [.call () .stream ⟨.kInfo, .ok [104, 105], 7⟩, .go (), .setLevel 4, .go (), .go ()]

theorem overtaken_isSome : overtaken.isSome := by decide +kernel

theorem overtaken_events : (overtaken.get overtaken_isSome).1.filterMap Event.view =
    [.call () ⟨.kInfo, .ok [104, 105], 7⟩, .setLevel .kError,
      .suppress () ⟨.kInfo, .ok [104, 105], 7⟩] := by decide +kernel

theorem judged_by_level_overtaken : Past.Always (Sight.Judged .kInfo)
    [.call () ⟨.kInfo, .ok [104, 105], 7⟩, .setLevel .kError,
      .suppress () ⟨.kInfo, .ok [104, 105], 7⟩] :=
  judged_by_level ⟨_, _, .of_exec_get overtaken_isSome, overtaken_events⟩

/-- The same, and then a message of the stream form that fails. -/
def thrown : Option (List (Event Unit) × State Unit) :=
  (machine (fun _ => true) 0).exec (overtaken.get overtaken_isSome).2
    [.call () .stream ⟨.kFatal, .throws [], 8⟩, .go (), .go (), .go ()]

theorem thrown_isSome : thrown.isSome := by decide +kernel

/-- What is seen of it, the failure being of the given form. -/
def thrownShown (form : Form) : List (Shown Unit) :=
  [.call () ⟨.kInfo, .ok [104, 105], 7⟩, .setLevel .kError,
    .suppress () ⟨.kInfo, .ok [104, 105], 7⟩, .call () ⟨.kFatal, .throws [], 8⟩,
    .fail form () ⟨.kFatal, .throws [], 8⟩]

theorem thrown_events :
    ((overtaken.get overtaken_isSome).1 ++ (thrown.get thrown_isSome).1).filterMap Event.shown =
      thrownShown .stream := by decide +kernel

theorem forms_interchangeable_overtaken :
    (machine onlyFmt 0).Shows Event.shown (initial ⟨64, by decide⟩ fun _ => none)
      (thrownShown .fmt) := by
  have hshown : (machine (fun _ => true) 0).Shows Event.shown
      (initial ⟨64, by decide⟩ fun _ => none) (thrownShown .stream) :=
    ⟨_, _, (Machine.Path.of_exec_get overtaken_isSome).append (.of_exec_get thrown_isSome),
      thrown_events⟩
  exact ((forms_interchangeable ⟨.stream, rfl⟩ ⟨.fmt, rfl⟩).2 (thrownShown .stream)
    (thrownShown .fmt) rfl (by simp [Fits]) (by simp [Fits, thrownShown, onlyFmt])).mp hshown

end XLogger

end XmSigma
