import XmSigma.Lib.Progress

/-!
# A worker and its owner

A worker goes round a loop. When a round finds nothing to do the worker loads a flag, and if the
flag was cleared it leaves the loop and ends. The owner clears the flag, once, and then joins the
worker. What the worker does in its rounds, and who gives it work, is not said here: a machine has
such a worker if it can be seen in its states.

Finding nothing to do and loading the flag are two steps. So what the worker leaves undone is
decided by the one moment at which the flag is cleared: it is what has come in between, if the
worker has found nothing to do by then and has not loaded the flag.

## Main definitions

* `Worker.Life`: how far the worker and its owner have come
* `Worker.Follows`: every step of a machine is one that the two allow

## Main results

* `Follows.ok`: the invariant of the two
* `Follows.complete_iff`: what is done when the worker has left its loop
-/

namespace XmSigma

namespace Worker

/-- Where a worker is. -/
inductive Place
  /-- In a round of its loop. -/
  | busy
  /-- It has found nothing to do and is about to load the flag. -/
  | asking
  /-- Out of the loop. -/
  | left
  | ended
  deriving DecidableEq

/-- Where its owner is. -/
inductive Owner
  | active
  | joining
  | joined
  deriving DecidableEq

/-- A worker and its owner, as they can be seen in the state of a machine. -/
structure Life where
  /-- The worker is to go on. -/
  flag : Bool
  place : Place
  owner : Owner

/-- A step of the worker. -/
inductive Place.Move (flag : Bool) : Place → Place → Prop
  | work : Move flag .busy .busy
  | ask : Move flag .busy .asking
  | again (h : flag = true) : Move flag .asking .busy
  | leave (h : flag = false) : Move flag .asking .left
  | finish : Move flag .left .ended

/-- A step of a machine, which may clear the flag. -/
inductive Life.Move (l : Life) : Bool → Life → Prop
  | rest : Move l false l
  | work {p : Place} (h : l.place.Move l.flag p) : Move l false { l with place := p }
  | stop (h : l.owner = .active) : Move l true { l with flag := false, owner := .joining }
  | join (h : l.owner = .joining) (hp : l.place = .ended) : Move l false { l with owner := .joined }

variable {l l' : Life} {p p' : Place} {flag stops : Bool}

/-! ### What the two keep -/

/-- The flag says whether the owner has begun to wait, the worker leaves its loop only after that,
and the owner is done only when the worker has ended. -/
structure Life.Ok (l : Life) : Prop where
  flag_iff : l.flag = true ↔ l.owner = .active
  looping : l.flag = true → l.place = .busy ∨ l.place = .asking
  joined : l.owner = .joined → l.place = .ended

theorem Life.Ok.new : (⟨true, .busy, .active⟩ : Life).Ok :=
  ⟨iff_of_true rfl rfl, fun _ => .inl rfl, fun h => by cases h⟩

/-- As long as the flag is set the worker stays in its loop. -/
theorem Place.Move.looping (h : p.Move flag p') (hflag : flag = true)
    (hp : p = .busy ∨ p = .asking) : p' = .busy ∨ p' = .asking := by
  cases h with
  | work | again => exact .inl rfl
  | ask => exact .inr rfl
  | leave hoff =>
    rw [hflag] at hoff
    cases hoff
  | finish => simp at hp

/-- Once the flag is cleared the worker does not go back to work. -/
theorem Place.Move.leaving (h : p.Move flag p') (hflag : flag = false) (hp : p ≠ .busy) :
    p' ≠ .busy := by
  cases h with
  | work | ask => exact absurd rfl hp
  | again hon =>
    rw [hflag] at hon
    cases hon
  | leave | finish => simp

/-- Out of a round it comes by finding nothing to do. -/
theorem Place.Move.asking (h : p.Move flag p') (hp : p = .busy) (hp' : p' ≠ .busy) :
    p' = .asking := by
  subst hp
  cases h with
  | work => exact absurd rfl hp'
  | ask => rfl

theorem Life.Ok.move (h : l.Ok) (hm : l.Move stops l') : l'.Ok := by
  cases hm with
  | rest => exact h
  | work hp =>
    refine ⟨h.flag_iff, fun hflag => hp.looping hflag (h.looping hflag), fun hjoined => ?_⟩
    rw [h.joined hjoined] at hp
    cases hp
  | stop hactive => exact ⟨by simp, by simp, by simp⟩
  | join hjoining hended =>
    have hoff : ¬ l.flag = true := fun hflag => by
      rw [h.flag_iff.mp hflag] at hjoining
      cases hjoining
    exact ⟨iff_of_false hoff (by simp), fun hflag => absurd hflag hoff, fun _ => hended⟩

/-- Only the owner clears the flag, and nobody sets it. -/
theorem Life.Move.flag_eq (hm : l.Move stops l') (hoff : l.flag = false) : l'.flag = false := by
  cases hm <;> first | exact hoff | rfl

theorem Life.Move.active (hm : l.Move false l') (hactive : l.owner = .active) :
    l'.owner = .active := by
  cases hm with
  | rest | work => exact hactive
  | join hjoining =>
    rw [hactive] at hjoining
    cases hjoining

theorem Life.Move.place (hm : l.Move stops l') :
    l'.place = l.place ∨ l.place.Move l.flag l'.place := by
  cases hm with
  | work hmove => exact .inr hmove
  | _ => exact .inl rfl

/-- When the flag is cleared, the owner is done, or can be, or the worker can go on. -/
theorem Life.Ok.waits (h : l.Ok) (hoff : l.flag = false) :
    l.owner = .joined ∨ (l.owner = .joining ∧ l.place = .ended) ∨ l.place ≠ .ended := by
  by_cases hended : l.place = .ended
  · cases howner : l.owner with
    | active =>
      rw [h.flag_iff.mpr howner] at hoff
      cases hoff
    | joining => exact .inr (.inl ⟨rfl, hended⟩)
    | joined => exact .inl rfl
  · exact .inr (.inr hended)

/-! ### A machine with a worker -/

variable {σ α ε : Type*} {M : Machine σ α ε} {life : σ → Life} {stops : ε → Bool} {s s₁ : σ}
  {tr : List ε}

/-- Every step of the machine is one that the worker and its owner allow. -/
def Follows (M : Machine σ α ε) (life : σ → Life) (stops : ε → Bool) : Prop :=
  ∀ {s e s'}, M.Step s e s' → (life s).Move (stops e) (life s')

namespace Follows

theorem ok_of_path (hf : Follows M life stops) (hok : (life s).Ok) (hp : M.Path s tr s₁) :
    (life s₁).Ok :=
  hp.rule (Q := fun _ => True) (I := fun _ s => (life s).Ok) (fun _ _ => trivial) hok
    fun _ hok hs => hok.move (hf hs)

/-- **The invariant of the two** holds in every run. -/
theorem ok (hf : Follows M life stops) (hinit : ∀ s, M.init s → (life s).Ok) (h : M.Run tr s) :
    (life s).Ok := by
  obtain ⟨s₀, h₀, hp⟩ := h
  exact hf.ok_of_path (hinit s₀ h₀) hp

/-- The owner is active until it clears the flag. -/
theorem active (hf : Follows M life stops) (hp : M.Path s tr s₁)
    (hactive : (life s).owner = .active) (hstop : ∀ e ∈ tr, stops e = false) :
    (life s₁).owner = .active := by
  refine hp.rule (Q := fun e => stops e = false) (I := fun _ s => (life s).owner = .active) hstop
    hactive fun he hactive hs => ?_
  have hm := hf hs
  rw [he] at hm
  exact hm.active hactive

/-- Until then the flag is set and the worker in its loop. -/
theorem looping (hf : Follows M life stops) (hok : (life s).Ok) (hp : M.Path s tr s₁)
    (hactive : (life s).owner = .active) (hstop : ∀ e ∈ tr, stops e = false) :
    (life s₁).flag = true ∧ ((life s₁).place = .busy ∨ (life s₁).place = .asking) := by
  have hok₁ := hf.ok_of_path hok hp
  have hflag := hok₁.flag_iff.mpr (hf.active hp hactive hstop)
  exact ⟨hflag, hok₁.looping hflag⟩

/-- Once cleared, the flag stays so. -/
theorem stopped (hf : Follows M life stops) (hp : M.Path s tr s₁) (hoff : (life s).flag = false) :
    (life s₁).flag = false :=
  hp.rule (Q := fun _ => True) (I := fun _ s => (life s).flag = false) (fun _ _ => trivial) hoff
    fun _ hoff hs => (hf hs).flag_eq hoff

/-- **What is done when the worker has left its loop.** Let `D` say that all is done, which can
change in a round of the loop only, and hold whenever the worker finds nothing to do. If the flag
was cleared in a round of the loop, then all is done in the end; otherwise what was undone then
remains so. -/
theorem complete_iff {D : List ε → Prop} (hf : Follows M life stops) (hp : M.Path s tr s₁)
    (hoff : (life s).flag = false)
    (hkeep : ∀ {tr₁ s' e s''} rest, tr = tr₁ ++ e :: rest → M.Path s tr₁ s' → M.Step s' e s'' →
      (life s').place ≠ .busy → (D (tr₁ ++ [e]) ↔ D tr₁))
    (hask : ∀ {tr₁ s' e s''} rest, tr = tr₁ ++ e :: rest → M.Path s tr₁ s' → M.Step s' e s'' →
      (life s').place = .busy → (life s'').place = .asking → D (tr₁ ++ [e]))
    (hend : (life s₁).place ≠ .busy) : D tr ↔ (life s).place = .busy ∨ D [] := by
  have hall : ((life s).place ≠ .busy → (life s₁).place ≠ .busy) ∧
      ((life s₁).place ≠ .busy → (D tr ↔ (life s).place = .busy ∨ D [])) := by
    refine hp.along (I := fun tr₁ s' => ((life s).place ≠ .busy → (life s').place ≠ .busy) ∧
      ((life s').place ≠ .busy → (D tr₁ ↔ (life s).place = .busy ∨ D [])))
      ⟨id, fun hleft => by simp [hleft]⟩ fun {tr₁ s' e s''} rest htr hp' ih hs => ?_
    have hoff' := hf.stopped hp' hoff
    have hplace := (hf hs).place
    by_cases hbusy : (life s').place = .busy
    · have hstart : (life s).place = .busy := by
        by_contra hleft
        exact ih.1 hleft hbusy
      refine ⟨fun hleft => absurd hstart hleft, fun hleft => ?_⟩
      have hasking : (life s'').place = .asking := by
        have hmove := hplace.resolve_left fun hsame => hleft (hsame.trans hbusy)
        exact hmove.asking hbusy hleft
      exact iff_of_true (hask rest htr hp' hs hbusy hasking) (.inl hstart)
    · have hstill : (life s'').place ≠ .busy := by
        rcases hplace with hsame | hmove
        · rwa [hsame]
        · exact hmove.leaving hoff' hbusy
      exact ⟨fun _ => hstill, fun _ => (hkeep rest htr hp' hs hbusy).trans (ih.2 hbusy)⟩
  exact hall.2 hend

end Follows

end Worker

end XmSigma
