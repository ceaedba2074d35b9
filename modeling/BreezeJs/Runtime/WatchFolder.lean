import BreezeJs.Library.Transition
import BreezeJs.Std.QueryCodec

set_option autoImplicit false

namespace BreezeJs.WatchFolder

open Infra Transition

inductive Pc where
  | entering
  | reloading
  | asleep
  | polling
  | asking
  | clearing
  -- An exception has left the function.
  | ended
deriving DecidableEq, Repr

structure State where
  pc : Pc
  hasUpdate : Bool
  watching : Bool
deriving DecidableEq, Repr

inductive Action where
  | deliver (path : Bytes)
  | enter
  | finish
  | wake
  | poll
  | answer (yes : Bool)
  | clear
  | fail
deriving DecidableEq, Repr

def endsWithJs (path : Bytes) : Bool :=
  (text ".js").isSuffixOf path

def step (s : State) : Action → Option State
  | .deliver path =>
      if s.watching then some { s with hasUpdate := s.hasUpdate || endsWithJs path } else none
  | .enter => if s.pc = .entering then some { s with pc := .reloading } else none
  -- The first `reload_all` is followed by the construction of the watch.
  | .finish =>
      if s.pc = .reloading then some { s with pc := .asleep, watching := true } else none
  | .wake => if s.pc = .asleep then some { s with pc := .polling } else none
  | .poll =>
      if s.pc = .polling then some { s with pc := if s.hasUpdate then .asking else .asleep }
      else none
  | .answer yes =>
      if s.pc = .asking then some { s with pc := if yes then .clearing else .asleep } else none
  | .clear =>
      if s.pc = .clearing then some { s with pc := .entering, hasUpdate := false } else none
  | .fail =>
      if s.pc = .reloading ∨ s.pc = .asking then
        some { s with pc := .ended, watching := false }
      else none

def initial : State where
  pc := .entering
  hasUpdate := false
  watching := false

def system : System State Action where
  init s := s = initial
  step := step

def Action.isChange : Action → Bool
  | .deliver path => endsWithJs path
  | _ => false

def Reloaded (history : List (State × Action)) : Prop :=
  ∀ entry ∈ history.takeWhile (fun entry => entry.2 != .enter), entry.2.isChange = false

def InWindow (s : State) : Prop :=
  s.pc = .entering ∧ s.watching = true

structure Invariant (history : List (State × Action)) (s : State) : Prop where
  noticed : InWindow s ∨ s.hasUpdate = true ∨ Reloaded history
  watched : s.pc = .asleep ∨ s.pc = .polling ∨ s.pc = .asking ∨ s.pc = .clearing →
    s.watching = true

section Steps

variable {history : List (State × Action)} {s t : State} {a : Action}

theorem reloaded_enter (s : State) (history : List (State × Action)) :
    Reloaded ((s, .enter) :: history) := by
  simp [Reloaded]

theorem reloaded_cons (quiet : a.isChange = false) (reloaded : Reloaded history) :
    Reloaded ((s, a) :: history) := by
  intro entry member
  rw [List.takeWhile_cons] at member
  split_ifs at member
  · rcases List.mem_cons.mp member with rfl | earlier
    · exact quiet
    · exact reloaded entry earlier
  · cases member

theorem noticed_kept (holds : Invariant history s) (outside : s.pc ≠ .entering)
    (quiet : a.isChange = false) (flag : t.hasUpdate = s.hasUpdate) :
    InWindow t ∨ t.hasUpdate = true ∨ Reloaded ((s, a) :: history) := by
  rcases holds.noticed with window | set | reloaded
  · exact absurd window.1 outside
  · exact .inr (.inl (flag.trans set))
  · exact .inr (.inr (reloaded_cons quiet reloaded))

theorem noticed_deliver {path : Bytes} (holds : Invariant history s)
    (window : InWindow s → InWindow t)
    (flag : t.hasUpdate = (s.hasUpdate || endsWithJs path)) :
    InWindow t ∨ t.hasUpdate = true ∨ Reloaded ((s, .deliver path) :: history) := by
  cases change : endsWithJs path with
  | true => exact .inr (.inl (by rw [flag, change, Bool.or_true]))
  | false =>
      rw [change, Bool.or_false] at flag
      rcases holds.noticed with inside | set | reloaded
      · exact .inl (window inside)
      · exact .inr (.inl (flag.trans set))
      · exact .inr (.inr (reloaded_cons change reloaded))

theorem invariant_preserved (holds : Invariant history s) (taken : step s a = some t) :
    Invariant ((s, a) :: history) t := by
  cases a with
  | deliver path =>
      simp only [step, Option.ite_none_right_eq_some, Option.some.injEq] at taken
      obtain ⟨_, rfl⟩ := taken
      exact ⟨noticed_deliver holds id rfl, holds.watched⟩
  | enter =>
      simp only [step, Option.ite_none_right_eq_some, Option.some.injEq] at taken
      obtain ⟨_, rfl⟩ := taken
      exact ⟨.inr (.inr (reloaded_enter s history)), by simp⟩
  | finish =>
      simp only [step, Option.ite_none_right_eq_some, Option.some.injEq] at taken
      obtain ⟨here, rfl⟩ := taken
      exact ⟨noticed_kept holds (by simp [here]) rfl rfl, fun _ => rfl⟩
  | wake =>
      simp only [step, Option.ite_none_right_eq_some, Option.some.injEq] at taken
      obtain ⟨here, rfl⟩ := taken
      exact ⟨noticed_kept holds (by simp [here]) rfl rfl, fun _ => holds.watched (.inl here)⟩
  | poll =>
      simp only [step, Option.ite_none_right_eq_some, Option.some.injEq] at taken
      obtain ⟨here, rfl⟩ := taken
      exact ⟨noticed_kept holds (by simp [here]) rfl rfl,
        fun _ => holds.watched (.inr (.inl here))⟩
  | answer yes =>
      simp only [step, Option.ite_none_right_eq_some, Option.some.injEq] at taken
      obtain ⟨here, rfl⟩ := taken
      exact ⟨noticed_kept holds (by simp [here]) rfl rfl,
        fun _ => holds.watched (.inr (.inr (.inl here)))⟩
  | clear =>
      simp only [step, Option.ite_none_right_eq_some, Option.some.injEq] at taken
      obtain ⟨here, rfl⟩ := taken
      exact ⟨.inl ⟨rfl, holds.watched (.inr (.inr (.inr here)))⟩, by simp⟩
  | fail =>
      simp only [step, Option.ite_none_right_eq_some, Option.some.injEq] at taken
      obtain ⟨here, rfl⟩ := taken
      have outside : s.pc ≠ .entering := by
        rcases here with here | here <;> simp [here]
      exact ⟨noticed_kept holds outside rfl rfl, by simp⟩

theorem invariant_initial : Invariant [] initial :=
  ⟨.inr (.inr (by simp [Reloaded])), by simp [initial]⟩

/-- Outside the window the flag is set or no change has come since the latest `reload_all` began. -/
theorem reload_never_misses (run : Run system history s) (outside : ¬ InWindow s) :
    s.hasUpdate = true ∨ Reloaded history := by
  have holds : Invariant history s := by
    refine run.along Invariant ?_ fun _ _ _ _ earlier taken => invariant_preserved earlier taken
    rintro _ rfl
    exact invariant_initial
  exact holds.noticed.resolve_left outside

theorem reload_follows_change :
    ∃ history t, Run system history t ∧ t.pc = .reloading ∧ t.hasUpdate = false ∧
      Reloaded history := by
  obtain ⟨history, t, run, checked⟩ := system.exists_run (s := initial) rfl
    [.enter, .finish, .deliver (text "a.js"), .wake, .poll, .answer true, .clear, .enter]
    (fun _ t => t.pc == .reloading && !t.hasUpdate) (by decide)
  simp only [Bool.and_eq_true, beq_iff_eq, Bool.not_eq_true'] at checked
  have outside : ¬ InWindow t := by simp [InWindow, checked.1]
  have noticed := reload_never_misses run outside
  exact ⟨history, t, run, checked.1, checked.2, noticed.resolve_left (by simp [checked.2])⟩

end Steps

end BreezeJs.WatchFolder
