import Mathlib.Tactic.SplitIfs

set_option autoImplicit false

namespace BreezeJs.Infra

def sleepTime : Int := 30

-- `γ` is the type of the callbacks; contexts are named by numbers.
structure Timer (γ : Type) where
  callback : γ
  ctx : Nat
  delay : Int
  elapsed : Int
  isRepeat : Bool
  id : Int
deriving DecidableEq, Repr

variable {γ : Type}

def Timer.advanced (timer : Timer γ) : Int :=
  timer.elapsed + sleepTime

def Timer.due (expired : Nat → Bool) (timer : Timer γ) : Bool :=
  !expired timer.ctx && decide (timer.delay ≤ timer.advanced)

-- What the loop body does to one element of `timers`: the element after it, the callback it copies
-- and the callback of a live timer that it destroys.
structure Visit (γ : Type) where
  timer : Option (Timer γ)
  copied : Option γ
  destroyed : Option γ
deriving DecidableEq, Repr

-- A timer whose context is gone frees nothing when it goes.
def visit (expired : Nat → Bool) : Option (Timer γ) → Visit γ
  | none => ⟨none, none, none⟩
  | some timer =>
      if expired timer.ctx then ⟨none, none, none⟩
      else if timer.delay ≤ timer.advanced then
        if timer.isRepeat then ⟨some { timer with elapsed := 0 }, some timer.callback, none⟩
        else ⟨none, some timer.callback, some timer.callback⟩
      else ⟨some { timer with elapsed := timer.advanced }, none, none⟩

-- The first two loops of a pass: the timers left after `erase`, and the callbacks to call.
def tick (expired : Nat → Bool) (timers : List (Option (Timer γ))) :
    List (Option (Timer γ)) × List γ :=
  ((timers.map fun timer => (visit expired timer).timer).filter Option.isSome,
    timers.filterMap fun timer => (visit expired timer).copied)

theorem visit_copied (expired : Nat → Bool) (timer : Timer γ) :
    (visit expired (some timer)).copied =
      if timer.due expired then some timer.callback else none := by
  simp only [visit, Timer.due]
  by_cases gone : expired timer.ctx = true
  · simp [gone]
  · by_cases late : timer.delay ≤ timer.advanced
    · simp only [gone, late, if_true]
      split_ifs <;> simp_all
    · simp [gone, late]

end BreezeJs.Infra
