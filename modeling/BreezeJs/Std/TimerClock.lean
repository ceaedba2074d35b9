import BreezeJs.Std.TimerThread

set_option autoImplicit false

namespace BreezeJs.TimerThread

open Transition

def intMax : Int := 2147483647

def NeverOverflows (delay : Int) : Prop :=
  ∀ s, Reachable system s → s.phase = .sleeping →
    ∀ timer ∈ live s.timers, timer.delay = delay → s.isExpired timer.ctx = false →
      timer.advanced ≤ intMax

def Counted (timer : Infra.Timer Nat) : Prop :=
  ∃ passes : Nat, timer.elapsed = Infra.sleepTime * passes ∧
    (passes = 0 ∨ timer.elapsed < timer.delay)

theorem counted_visit {expired : Nat → Bool} {timer later : Infra.Timer Nat}
    (counted : Counted timer) (visited : (Infra.visit expired (some timer)).timer = some later) :
    Counted later := by
  obtain ⟨passes, elapsed, _⟩ := counted
  simp only [Infra.visit] at visited
  split_ifs at visited with gone late again
  · cases visited
    exact ⟨0, by simp, .inl rfl⟩
  · cases visited
    refine ⟨passes + 1, ?_, .inr (Int.not_le.mp late)⟩
    simp only [Infra.Timer.advanced, elapsed, Infra.sleepTime]
    push_cast
    omega

theorem counted_preserved {s t : State} {a : Action} (taken : Step s a t)
    (counted : ∀ timer ∈ live s.timers, Counted timer) :
    ∀ timer ∈ live t.timers, Counted timer := by
  intro timer member
  cases taken with
  | register a ctx delay isRepeat _ =>
      simp only [State.register, live_append, List.mem_append, List.mem_singleton] at member
      rcases member with old | rfl
      · exact counted timer old
      · exact ⟨0, by simp, .inl rfl⟩
  | clear a id _ => exact counted timer ((live_clear s.timers id).subset member)
  | collect _ =>
      rw [live_collect, List.mem_filterMap] at member
      obtain ⟨before, known, visited⟩ := member
      exact counted_visit (counted before known) visited
  | erase callbacks _ =>
      rw [live_erase] at member
      exact counted timer member
  | _ => exact counted timer member

theorem counted_reachable {s : State} (reached : Reachable system s) :
    ∀ timer ∈ live s.timers, Counted timer := by
  apply reached.invariant (fun s => ∀ timer ∈ live s.timers, Counted timer)
  · rintro _ rfl
    simp [initial, live]
  · intro s a t counted taken
    exact counted_preserved (step_some taken) counted

theorem idle_passes (delay : Int) (passes : Nat) (early : Infra.sleepTime * passes < delay) :
    ∃ s, Reachable system s ∧ s.phase = .sleeping ∧ s.expired = [] ∧
      s.timers = [some ⟨0, 0, delay, Infra.sleepTime * passes, false, 1⟩] := by
  induction passes with
  | zero =>
      have started : Reachable system initial := ⟨[], .start rfl⟩
      have registered : system.step initial (.setTimeout 0 delay) =
          some (initial.register 0 delay false) := rfl
      have first : initial.newId = 1 := by decide
      refine ⟨_, started.next registered, rfl, rfl, ?_⟩
      simp only [State.register, first]
      simp [initial]
  | succ passes ih =>
      simp only [Infra.sleepTime] at early ih ⊢
      push_cast at early ⊢
      obtain ⟨s, reached, asleep, alive, timers⟩ := ih (by omega)
      let timer : Infra.Timer Nat := ⟨0, 0, delay, 30 * passes, false, 1⟩
      have visited : Infra.visit s.isExpired (some timer) =
          ⟨some { timer with elapsed := 30 * (passes + 1) }, none, none⟩ := by
        have sum : (30 * passes + 30 : Int) = 30 * (passes + 1) := by omega
        simpa [Infra.visit, timer, State.isExpired, alive, Infra.Timer.advanced, Infra.sleepTime,
          sum] using early
      have collected : system.step s .collect = some s.collect := by simp [system, step, asleep]
      have erased : system.step s.collect .erase = some { s.collect with
          timers := s.collect.timers.filter Option.isSome, phase := .invoking [] } := by
        simp [system, step, State.collect, timers, visited, timer]
      have slept : system.step { s.collect with
          timers := s.collect.timers.filter Option.isSome, phase := .invoking [] } .sleep =
          some { s.collect with
            timers := s.collect.timers.filter Option.isSome, phase := .sleeping } := by
        simp [system, step]
      refine ⟨_, ((reached.next collected).next erased).next slept, rfl, alive, ?_⟩
      simp [State.collect, timers, visited, timer]

/-- The sum stays in range if and only if the delay is not above the last multiple of 30 that an
`int` can hold. -/
theorem elapsed_in_range_iff (delay : Int) : NeverOverflows delay ↔ delay ≤ 2147483640 := by
  constructor
  · intro fits
    by_contra long
    obtain ⟨s, reached, asleep, alive, timers⟩ :=
      idle_passes delay 71582788 (by simp only [Infra.sleepTime]; omega)
    have sum := fits s reached asleep ⟨0, 0, delay, Infra.sleepTime * (71582788 : Nat), false, 1⟩
      (by simp [timers, live]) rfl (by simp [State.isExpired, alive])
    simp only [Infra.Timer.advanced, Infra.sleepTime, intMax] at sum
    omega
  · rintro short s reached _ timer member rfl _
    obtain ⟨passes, elapsed, due⟩ := counted_reachable reached timer member
    simp only [Infra.Timer.advanced, elapsed, Infra.sleepTime, intMax] at due ⊢
    omega

theorem elapsed_overflows :
    ∃ s, Reachable system s ∧ s.phase = .sleeping ∧ s.expired = [] ∧
      live s.timers = [⟨0, 0, intMax, 2147483640, false, 1⟩] ∧
        intMax < 2147483640 + Infra.sleepTime := by
  obtain ⟨s, reached, asleep, alive, timers⟩ :=
    idle_passes intMax 71582788 (by simp only [Infra.sleepTime, intMax]; omega)
  refine ⟨s, reached, asleep, alive, ?_, by decide⟩
  simp [timers, live, Infra.sleepTime]

structure Clocked where
  base : State
  now : Nat
  asleepSince : Option Nat
  registeredAt : List Nat
  invokedAt : List (Nat × Nat)
deriving DecidableEq, Repr

inductive ClockedAction where
  | wait (milliseconds : Nat)
  | act (a : Action)
deriving DecidableEq, Repr

namespace Clocked

def rested (s : Clocked) : Action → Bool
  | .collect => s.asleepSince.any fun since => decide (since + 30 ≤ s.now)
  | _ => true

-- `ensure_timer_thread` starts the thread, and the thread starts with a sleep.
def sleepsSince (s : Clocked) (a : Action) : Option Nat :=
  if (registers a).isSome then s.asleepSince.or (some s.now)
  else if a = .sleep then some s.now
  else s.asleepSince

def moved (s : Clocked) (a : Action) (base : State) : Clocked where
  base := base
  now := s.now
  asleepSince := s.sleepsSince a
  registeredAt := s.registeredAt ++ if (registers a).isSome then [s.now] else []
  invokedAt := s.invokedAt ++
    (base.invoked.drop s.base.invoked.length).map fun callback => (callback, s.now)

def step (s : Clocked) : ClockedAction → Option Clocked
  | .wait milliseconds => some { s with now := s.now + milliseconds }
  | .act a => if s.rested a then (TimerThread.step s.base a).map (s.moved a) else none

def initial : Clocked where
  base := TimerThread.initial
  now := 0
  asleepSince := none
  registeredAt := []
  invokedAt := []

end Clocked

def clockedSystem : System Clocked ClockedAction where
  init := fun s => s = Clocked.initial
  step := Clocked.step

def OnTime (s : Clocked) (r time : Nat) : Prop :=
  ∀ (registration : Registration) (start : Nat), s.base.registrations[r]? = some registration →
    s.registeredAt[r]? = some start → start + registration.delay ≤ time + Infra.sleepTime

def Credited (s : Clocked) (start : Nat) (elapsed : Int) : Prop :=
  elapsed ≤ 0 ∨
    if s.base.phase = .sleeping then
      ∃ since, s.asleepSince = some since ∧ start + elapsed ≤ since + Infra.sleepTime
    else start + elapsed ≤ s.now + Infra.sleepTime

structure Timely (s : Clocked) : Prop where
  orderly : Orderly s.base
  dated : s.registeredAt.length = s.base.registrations.length
  past : ∀ start ∈ s.registeredAt, start ≤ s.now
  slept : ∀ since, s.asleepSince = some since → since ≤ s.now
  credited : ∀ timer ∈ live s.base.timers, ∀ start, s.registeredAt[timer.callback]? = some start →
    Credited s start timer.elapsed
  collected : ∀ r ∈ s.base.phase.batch, OnTime s r s.now
  invoked : ∀ entry ∈ s.invokedAt, entry.1 < s.base.registrations.length ∧
    OnTime s entry.1 entry.2

section Clock

variable {s t : Clocked} {a : Action} {base : State} {r time : Nat}

theorem onTime_kept (onTime : OnTime s r time)
    (registrations : t.base.registrations[r]? = s.base.registrations[r]?)
    (dates : t.registeredAt[r]? = s.registeredAt[r]?) : OnTime t r time := by
  intro registration start made dated
  rw [registrations] at made
  rw [dates] at dated
  exact onTime registration start made dated

theorem moved_register {ctx : Nat} {delay : Int} {isRepeat : Bool}
    (registered : registers a = some (ctx, delay, isRepeat)) :
    s.moved a (s.base.register ctx delay isRepeat) =
      { s with
        base := s.base.register ctx delay isRepeat
        asleepSince := s.asleepSince.or (some s.now)
        registeredAt := s.registeredAt ++ [s.now] } := by
  simp [Clocked.moved, Clocked.sleepsSince, registered, State.register]

theorem moved_invoke {callback : Nat} {rest : List Nat} :
    s.moved .invoke { s.base with
      invoked := s.base.invoked ++ [callback], phase := .invoking rest } =
      { s with
        base := { s.base with invoked := s.base.invoked ++ [callback], phase := .invoking rest }
        invokedAt := s.invokedAt ++ [(callback, s.now)] } := by
  simp [Clocked.moved, Clocked.sleepsSince, registers]

theorem moved_sleep :
    s.moved .sleep { s.base with phase := .sleeping } =
      { s with base := { s.base with phase := .sleeping }, asleepSince := some s.now } := by
  simp [Clocked.moved, Clocked.sleepsSince, registers]

theorem issued_of_batch (timely : Timely s) (member : r ∈ s.base.phase.batch) :
    r < s.base.registrations.length := by
  have issued : r ∈ s.base.collections.map Prod.snd := by
    rw [timely.orderly.collected]
    exact List.mem_append_right _ member
  obtain ⟨entry, logged, rfl⟩ := List.mem_map.mp issued
  exact timely.orderly.issued entry logged

theorem timely_register (timely : Timely s) (ctx : Nat) (delay : Int) (isRepeat : Bool)
    (orderly : Orderly (s.base.register ctx delay isRepeat)) :
    Timely { s with
      base := s.base.register ctx delay isRepeat
      asleepSince := s.asleepSince.or (some s.now)
      registeredAt := s.registeredAt ++ [s.now] } := by
  have old {r time : Nat} (known : r < s.base.registrations.length) (onTime : OnTime s r time) :
      OnTime { s with
        base := s.base.register ctx delay isRepeat
        asleepSince := s.asleepSince.or (some s.now)
        registeredAt := s.registeredAt ++ [s.now] } r time := by
    apply onTime_kept onTime
    · simp [State.register, List.getElem?_append_left known]
    · simp [List.getElem?_append_left (timely.dated ▸ known)]
  refine ⟨orderly, ?_, ?_, ?_, ?_, ?_, ?_⟩
  · simp [State.register, timely.dated]
  · intro start member
    rcases List.mem_append.mp member with before | new
    · exact timely.past start before
    · rw [List.mem_singleton.mp new]
  · intro since slept
    cases known : s.asleepSince with
    | none =>
        simp only [known, Option.none_or, Option.some.injEq] at slept
        exact Nat.le_of_eq slept.symm
    | some before =>
        simp only [known, Option.some_or, Option.some.injEq] at slept
        exact slept ▸ timely.slept before known
  · intro timer member start dated
    simp only [State.register, live_append, List.mem_append, List.mem_singleton] at member
    rcases member with before | rfl
    · have known := callback_registered (timely.orderly.recorded timer before)
      rw [List.getElem?_append_left (timely.dated ▸ known)] at dated
      refine (timely.credited timer before start dated).imp_right fun credit => ?_
      have phase : (s.base.register ctx delay isRepeat).phase = s.base.phase := rfl
      rw [phase]
      split_ifs at credit ⊢ with asleep
      · obtain ⟨since, slept, bound⟩ := credit
        exact ⟨since, by simp [slept], bound⟩
      · exact credit
    · exact .inl (Int.le_refl 0)
  · intro r member
    exact old (issued_of_batch timely member) (timely.collected r member)
  · intro entry member
    obtain ⟨known, onTime⟩ := timely.invoked entry member
    refine ⟨?_, old known onTime⟩
    simp only [State.register, List.length_append]
    omega

theorem timely_frame (timely : Timely s) (orderly : Orderly t.base)
    (registrations : t.base.registrations = s.base.registrations)
    (dates : t.registeredAt = s.registeredAt) (now : t.now = s.now)
    (thread : t.asleepSince = s.asleepSince)
    (timers : ∀ timer ∈ live t.base.timers, timer ∈ live s.base.timers)
    (phase : t.base.phase = .sleeping ↔ s.base.phase = .sleeping)
    (batch : ∀ r ∈ t.base.phase.batch, r ∈ s.base.phase.batch)
    (invoked : ∀ entry ∈ t.invokedAt, entry ∈ s.invokedAt ∨
      (entry.1 ∈ s.base.phase.batch ∧ entry.2 = s.now)) : Timely t := by
  have kept {r time : Nat} (onTime : OnTime s r time) : OnTime t r time :=
    onTime_kept onTime (by rw [registrations]) (by rw [dates])
  refine ⟨orderly, by rw [dates, registrations]; exact timely.dated,
    by rw [dates, now]; exact timely.past, by rw [thread, now]; exact timely.slept, ?_, ?_, ?_⟩
  · intro timer member start dated
    rw [dates] at dated
    have credit := timely.credited timer (timers timer member) start dated
    simpa only [Credited, phase, thread, now] using credit
  · intro r member
    rw [now]
    exact kept (timely.collected r (batch r member))
  · intro entry member
    rw [registrations]
    rcases invoked entry member with old | ⟨running, here⟩
    · exact ⟨(timely.invoked entry old).1, kept (timely.invoked entry old).2⟩
    · rw [here]
      exact ⟨issued_of_batch timely running, kept (timely.collected entry.1 running)⟩

theorem timely_wait (timely : Timely s) (milliseconds : Nat) :
    Timely { s with now := s.now + milliseconds } := by
  refine ⟨timely.orderly, timely.dated, ?_, ?_, ?_, ?_, timely.invoked⟩
  · intro start member
    exact (timely.past start member).trans (Nat.le_add_right _ _)
  · intro since slept
    exact (timely.slept since slept).trans (Nat.le_add_right _ _)
  · intro timer member start dated
    refine (timely.credited timer member start dated).imp_right fun credit => ?_
    split_ifs at credit ⊢ with asleep
    · exact credit
    · simp only
      push_cast
      omega
  · intro r member registration start made dated
    have onTime := timely.collected r member registration start made dated
    push_cast
    omega

theorem timely_sleep (timely : Timely s) (phase : s.base.phase = .invoking [])
    (orderly : Orderly { s.base with phase := .sleeping }) :
    Timely { s with base := { s.base with phase := .sleeping }, asleepSince := some s.now } := by
  refine ⟨orderly, timely.dated, timely.past, ?_, ?_, by simp [Phase.batch], timely.invoked⟩
  · intro since slept
    exact Nat.le_of_eq (Option.some.inj slept).symm
  · intro timer member start dated
    refine (timely.credited timer member start dated).imp_right fun credit => ?_
    rw [phase, if_neg (by simp)] at credit
    rw [if_pos rfl]
    exact ⟨s.now, rfl, credit⟩

theorem advanced_credited (timely : Timely s) (asleep : s.base.phase = .sleeping)
    (rested : s.rested .collect = true) {timer : Infra.Timer Nat} {start : Nat}
    (member : timer ∈ live s.base.timers)
    (dated : s.registeredAt[timer.callback]? = some start) :
    start + timer.advanced ≤ s.now + Infra.sleepTime := by
  have past := timely.past start (List.mem_of_getElem? dated)
  simp only [Infra.Timer.advanced, Infra.sleepTime]
  rcases timely.credited timer member start dated with unticked | credit
  · omega
  · rw [if_pos asleep] at credit
    obtain ⟨since, slept, bound⟩ := credit
    simp only [Clocked.rested, slept, Option.any_some, decide_eq_true_eq] at rested
    simp only [Infra.sleepTime] at bound
    omega

theorem timely_collect (timely : Timely s) (asleep : s.base.phase = .sleeping)
    (rested : s.rested .collect = true) (orderly : Orderly s.base.collect) :
    Timely { s with base := s.base.collect } := by
  refine ⟨orderly, timely.dated, timely.past, timely.slept, ?_, ?_, timely.invoked⟩
  · intro timer member start dated
    rw [live_collect, List.mem_filterMap] at member
    obtain ⟨before, known, visited⟩ := member
    have same := visit_keeps visited
    rw [same] at dated
    have credit := advanced_credited timely asleep rested known dated
    simp only [Infra.visit] at visited
    split_ifs at visited with gone late again
    · cases visited
      exact .inl (Int.le_refl 0)
    · cases visited
      exact .inr (by simpa [State.collect] using credit)
  · intro r member registration start made dated
    simp only [State.collect, Phase.batch, collect_batch, List.mem_filterMap] at member
    obtain ⟨timer, known, due⟩ := member
    split_ifs at due with late
    cases due
    have credit := advanced_credited timely asleep rested known dated
    obtain ⟨recorded, here, _, delay, _⟩ := timely.orderly.recorded timer known
    have agrees : recorded = registration := Option.some.inj (here.symm.trans made)
    simp only [Infra.Timer.due, Bool.and_eq_true, decide_eq_true_eq] at late
    rw [← agrees, ← delay]
    exact Int.le_trans (Int.add_le_add_left late.2 _) credit

theorem timely_quiet (registered : registers a = none) (awake : a ≠ .sleep)
    (invoked : base.invoked = s.base.invoked) (timely : Timely { s with base := base }) :
    Timely (s.moved a base) := by
  have quiet : s.moved a base = { s with base := base } := by
    simp [Clocked.moved, Clocked.sleepsSince, registered, awake, invoked]
  rw [quiet]
  exact timely

theorem timely_moved (taken : Step s.base a base) (rested : s.rested a = true)
    (timely : Timely s) : Timely (s.moved a base) := by
  have orderly := orderly_preserved taken timely.orderly
  cases taken with
  | register a ctx delay isRepeat registered =>
      rw [moved_register registered]
      exact timely_register timely ctx delay isRepeat orderly
  | clear a id aimed =>
      refine timely_quiet ?_ (by rintro rfl; cases aimed) rfl ?_
      · cases a <;> first | rfl | cases aimed
      · exact timely_frame timely orderly rfl rfl rfl rfl
          (fun timer member => (live_clear s.base.timers id).subset member) Iff.rfl
          (fun r member => member) fun entry => .inl
  | expire ctx =>
      refine timely_quiet rfl (by simp) rfl ?_
      exact timely_frame timely orderly rfl rfl rfl rfl (fun timer member => member) Iff.rfl
        (fun r member => member) fun entry => .inl
  | collect asleep =>
      exact timely_quiet rfl (by simp) rfl (timely_collect timely asleep rested orderly)
  | erase callbacks phase =>
      refine timely_quiet rfl (by simp) rfl ?_
      refine timely_frame timely orderly rfl rfl rfl rfl ?_ ?_ ?_ fun entry => .inl
      · intro timer member
        rwa [live_erase] at member
      · simp [phase]
      · simp [phase, Phase.batch]
  | invoke callback rest phase =>
      rw [moved_invoke]
      refine timely_frame timely orderly rfl rfl rfl rfl (fun timer member => member) ?_ ?_ ?_
      · simp [phase]
      · intro r member
        rw [phase]
        exact List.mem_cons_of_mem callback member
      · intro entry member
        rcases List.mem_append.mp member with old | new
        · exact .inl old
        · rw [List.mem_singleton.mp new, phase]
          exact .inr ⟨List.mem_cons_self, rfl⟩
  | sleep phase =>
      rw [moved_sleep]
      exact timely_sleep timely phase orderly

theorem timely_initial : Timely Clocked.initial where
  orderly := orderly_initial
  dated := rfl
  past := by simp [Clocked.initial]
  slept := by simp [Clocked.initial]
  credited := by simp [Clocked.initial, TimerThread.initial, live]
  collected := by simp [Clocked.initial, TimerThread.initial, Phase.batch]
  invoked := by simp [Clocked.initial]

theorem timely_reachable (reached : Reachable clockedSystem s) : Timely s := by
  apply reached.invariant Timely
  · rintro _ rfl
    exact timely_initial
  · intro s a t timely taken
    cases a with
    | wait milliseconds =>
        cases taken
        exact timely_wait timely milliseconds
    | act a =>
        simp only [clockedSystem, Clocked.step] at taken
        split_ifs at taken with rested
        obtain ⟨base, moved, rfl⟩ := Option.map_eq_some_iff.mp taken
        exact timely_moved (step_some moved) rested timely

/-- A callback is invoked at most one sleep before its delay has passed since its registration. -/
theorem invoked_near_deadline (reached : Reachable clockedSystem s)
    (invoked : (r, time) ∈ s.invokedAt) :
    ∃ (registration : Registration) (start : Nat), s.base.registrations[r]? = some registration ∧
      s.registeredAt[r]? = some start ∧ start + registration.delay ≤ time + Infra.sleepTime := by
  have timely := timely_reachable reached
  obtain ⟨inside, onTime⟩ := timely.invoked _ invoked
  have made := List.getElem?_eq_getElem inside
  have dated := List.getElem?_eq_getElem (timely.dated ▸ inside : r < s.registeredAt.length)
  exact ⟨_, _, made, dated, onTime _ _ made dated⟩

end Clock

theorem invoked_near_deadline_example :
    ∃ s, Reachable clockedSystem s ∧ s.invokedAt = [(1, 60)] ∧
      ∃ (registration : Registration) (start : Nat),
        s.base.registrations[1]? = some registration ∧ s.registeredAt[1]? = some start ∧
          start + registration.delay ≤ (60 : Nat) + Infra.sleepTime := by
  obtain ⟨history, s, run, checked⟩ := clockedSystem.exists_run rfl
    [.act (.setTimeout 0 900), .wait 29, .act (.setTimeout 1 60), .wait 1, .act .collect,
      .act .erase, .act .sleep, .wait 30, .act .collect, .act .erase, .act .invoke]
    (fun _ s => s.invokedAt == [(1, 60)]) (by decide +kernel)
  have invoked := beq_iff_eq.mp checked
  exact ⟨s, run.reachable, invoked, invoked_near_deadline run.reachable (by simp [invoked])⟩

def NeverEarly (s : Clocked) : Prop :=
  ∀ entry ∈ s.invokedAt, ∀ (registration : Registration) (start : Nat),
    s.base.registrations[entry.1]? = some registration →
      s.registeredAt[entry.1]? = some start → registration.isRepeat = false →
        0 < registration.delay → start + registration.delay ≤ entry.2

theorem timeout_invoked_early :
    ∃ s, Reachable clockedSystem s ∧ s.base.registrations[1]? = some ⟨0, 30, false, 2, 0⟩ ∧
      s.registeredAt[1]? = some 29 ∧ s.invokedAt = [(1, 30)] ∧ ¬ NeverEarly s := by
  obtain ⟨history, s, run, checked⟩ := clockedSystem.exists_run rfl
    [.act (.setTimeout 0 900), .wait 29, .act (.setTimeout 0 30), .wait 1, .act .collect,
      .act .erase, .act .invoke]
    (fun _ s => s.base.registrations[1]? == some ⟨0, 30, false, 2, 0⟩ &&
      s.registeredAt[1]? == some 29 && s.invokedAt == [(1, 30)]) (by decide +kernel)
  simp only [Bool.and_eq_true, beq_iff_eq] at checked
  obtain ⟨⟨made, dated⟩, invoked⟩ := checked
  refine ⟨s, run.reachable, made, dated, invoked, fun never => ?_⟩
  have early := never (1, 30) (by simp [invoked]) _ _ made dated rfl (by decide)
  simp at early

end BreezeJs.TimerThread
