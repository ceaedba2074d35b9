import Mathlib.Data.List.Nodup
import Mathlib.Data.Rat.Floor
import BreezeJs.Std.TimerClearing

set_option autoImplicit false

namespace BreezeJs.TimerThread

open Transition

def period (delay : Int) : Nat :=
  (max 1 (-(-delay / Infra.sleepTime))).toNat

theorem period_pos (delay : Int) : 0 < period delay := by
  simp only [period]
  omega

theorem period_le_iff (delay : Int) {passes : Nat} (pos : 0 < passes) :
    period delay ≤ passes ↔ delay ≤ Infra.sleepTime * passes := by
  simp only [period, Infra.sleepTime]
  omega

theorem period_eq_ceil (delay : Int) : (period delay : Int) = max 1 ⌈(delay / 30 : Rat)⌉ := by
  have ceil := Rat.ceil_intCast_div_natCast delay 30
  simp only [period, Infra.sleepTime]
  push_cast at ceil
  rw [ceil]
  omega

def State.collectedAt (s : State) (r : Nat) : List Nat :=
  s.collections.filterMap fun entry => if entry.2 = r then some entry.1 else none

def removes (s : State) (a : Action) (r : Nat) : Bool :=
  (clears a).any fun id => (s.found id).any fun timer => timer.callback == r

def State.age (s : State) (registration : Registration) : Nat :=
  s.ticks - registration.tick

def firings (registration : Registration) (age : Nat) : Nat :=
  if registration.isRepeat then age / period registration.delay
  else min (age / period registration.delay) 1

structure Scheduled (s : State) (r : Nat) (registration : Registration) : Prop where
  started : registration.tick ≤ s.ticks
  waiting : registration.isRepeat = true ∨ s.age registration < period registration.delay →
    ∃ timer ∈ live s.timers, timer.callback = r ∧
      timer.elapsed = Infra.sleepTime * (s.age registration % period registration.delay : Nat)
  gone : registration.isRepeat = false → period registration.delay ≤ s.age registration →
    ∀ timer ∈ live s.timers, timer.callback ≠ r
  fired : s.collectedAt r = (List.range (firings registration (s.age registration))).map
    fun n => registration.tick + (n + 1) * period registration.delay

theorem succ_div_mod (age : Nat) {k : Nat} (pos : 0 < k) :
    ((age + 1) / k = age / k + 1 ∧ (age + 1) % k = 0 ∧ age % k + 1 = k) ∨
      ((age + 1) / k = age / k ∧ (age + 1) % k = age % k + 1 ∧ age % k + 1 < k) := by
  have below := Nat.mod_lt age pos
  have split := Nat.div_add_mod age k
  by_cases wraps : age % k + 1 = k
  · left
    have unique := (Nat.div_mod_unique (a := age + 1) (c := 0) (d := age / k + 1) pos).mpr
      ⟨by rw [Nat.mul_succ]; omega, pos⟩
    exact ⟨unique.1, unique.2, wraps⟩
  · right
    have unique := (Nat.div_mod_unique (a := age + 1) (c := age % k + 1) (d := age / k) pos).mpr
      ⟨by omega, by omega⟩
    exact ⟨unique.1, unique.2, by omega⟩

theorem live_unique {s : State} (orderly : Orderly s) {timer other : Infra.Timer Nat}
    (first : timer ∈ live s.timers) (second : other ∈ live s.timers)
    (same : timer.callback = other.callback) : timer = other := by
  have distinct : ((live s.timers).map fun timer => timer.callback).Nodup := by
    rw [List.nodup_iff_pairwise_ne, List.pairwise_map]
    exact orderly.ordered.imp Nat.ne_of_lt
  exact List.inj_on_of_nodup_map distinct first second same

theorem mem_batch_collect {s : State} {r : Nat} :
    r ∈ s.collect.phase.batch ↔
      ∃ timer ∈ live s.timers, timer.due s.isExpired = true ∧ timer.callback = r := by
  simp only [State.collect, Phase.batch, collect_batch, List.mem_filterMap]
  grind

theorem stamps (tick r : Nat) {callbacks : List Nat} (distinct : callbacks.Nodup) :
    (callbacks.map fun callback => (tick, callback)).filterMap
        (fun entry => if entry.2 = r then some entry.1 else none) =
      if r ∈ callbacks then [tick] else [] := by
  induction callbacks with
  | nil => rfl
  | cons callback rest ih =>
      rw [List.nodup_cons] at distinct
      by_cases same : callback = r
      · subst same
        simp [ih distinct.2, distinct.1]
      · simp [ih distinct.2, same, Ne.symm same]

theorem collectedAt_collect {s : State} (orderly : Orderly s) (r : Nat) :
    s.collect.collectedAt r =
      s.collectedAt r ++ if r ∈ s.collect.phase.batch then [s.ticks + 1] else [] := by
  have distinct : s.collect.phase.batch.Nodup := by
    simp only [State.collect, Phase.batch, collect_batch]
    rw [List.nodup_iff_pairwise_ne, List.pairwise_filterMap]
    refine orderly.ordered.imp fun {first second} less callback due other late => ?_
    split_ifs at due late
    cases due
    cases late
    exact Nat.ne_of_lt less
  rw [← stamps (s.ticks + 1) r distinct]
  simp only [State.collectedAt, State.collect, Phase.batch, List.filterMap_append]

section Pass

variable {s : State} {r : Nat} {registration : Registration}

theorem unfired_collect (orderly : Orderly s) (uncollected : r ∉ s.collect.phase.batch)
    (scheduled : Scheduled s r registration)
    (same : firings registration (s.age registration + 1) =
      firings registration (s.age registration)) :
    s.collect.collectedAt r =
      (List.range (firings registration (s.age registration + 1))).map
        fun n => registration.tick + (n + 1) * period registration.delay := by
  rw [collectedAt_collect orderly, if_neg uncollected, List.append_nil, same, scheduled.fired]

theorem fired_collect (orderly : Orderly s) (collected : r ∈ s.collect.phase.batch)
    (scheduled : Scheduled s r registration)
    (more : firings registration (s.age registration + 1) =
      firings registration (s.age registration) + 1)
    (now : registration.tick +
      (firings registration (s.age registration) + 1) * period registration.delay = s.ticks + 1) :
    s.collect.collectedAt r =
      (List.range (firings registration (s.age registration + 1))).map
        fun n => registration.tick + (n + 1) * period registration.delay := by
  rw [collectedAt_collect orderly, if_pos collected, more, List.range_succ, List.map_append,
    scheduled.fired, List.map_singleton, now]

theorem age_collect (scheduled : Scheduled s r registration) :
    s.collect.age registration = s.age registration + 1 := by
  have started := scheduled.started
  simp only [State.age, State.collect]
  omega

theorem due_iff (alive : registration.ctx ∉ s.expired) {timer : Infra.Timer Nat}
    (ctx : timer.ctx = registration.ctx) (delay : timer.delay = registration.delay)
    (elapsed : timer.elapsed =
      Infra.sleepTime * (s.age registration % period registration.delay : Nat)) :
    timer.due s.isExpired = true ↔
      s.age registration % period registration.delay + 1 = period registration.delay := by
  have below := Nat.mod_lt (s.age registration) (period_pos registration.delay)
  have reached := period_le_iff registration.delay
    (Nat.succ_pos (s.age registration % period registration.delay))
  simp only [Infra.Timer.due, Infra.Timer.advanced, State.isExpired, ctx, delay, elapsed,
    Bool.and_eq_true, Bool.not_eq_true', decide_eq_true_eq]
  push_cast at reached
  simp only [Infra.sleepTime] at reached ⊢
  constructor
  · rintro ⟨_, late⟩
    omega
  · intro wraps
    exact ⟨by simpa using alive, by omega⟩

theorem visit_due {expired : Nat → Bool} {timer : Infra.Timer Nat}
    (due : timer.due expired = true) :
    (Infra.visit expired (some timer)).timer =
      if timer.isRepeat then some { timer with elapsed := 0 } else none := by
  simp only [Infra.Timer.due, Bool.and_eq_true, Bool.not_eq_true', decide_eq_true_eq] at due
  simp only [Infra.visit, due.1, due.2, if_true, Bool.false_eq_true, if_false]
  split_ifs <;> rfl

theorem gone_collect (gone : ∀ timer ∈ live s.timers, timer.callback ≠ r) :
    ∀ timer ∈ live s.collect.timers, timer.callback ≠ r := by
  intro timer member
  rw [live_collect, List.mem_filterMap] at member
  obtain ⟨before, known, visited⟩ := member
  rw [visit_keeps visited]
  exact gone before known

theorem firings_waiting {age : Nat}
    (waiting : registration.isRepeat = true ∨ age < period registration.delay) :
    firings registration age = age / period registration.delay := by
  cases repeats : registration.isRepeat with
  | true => simp [firings, repeats]
  | false =>
      have early : age < period registration.delay := by simpa [repeats] using waiting
      simp [firings, repeats, Nat.div_eq_of_lt early]

theorem firings_due {age : Nat}
    (waiting : registration.isRepeat = true ∨ age < period registration.delay)
    (quotient : (age + 1) / period registration.delay = age / period registration.delay + 1) :
    firings registration (age + 1) = age / period registration.delay + 1 := by
  cases repeats : registration.isRepeat with
  | true => simp [firings, repeats, quotient]
  | false =>
      have early : age < period registration.delay := by simpa [repeats] using waiting
      have none := Nat.div_eq_of_lt early
      simp [firings, repeats, quotient, none]

theorem gone_of_due (orderly : Orderly s) {timer : Infra.Timer Nat}
    (member : timer ∈ live s.timers) (due : timer.due s.isExpired = true)
    (once : timer.isRepeat = false) :
    ∀ later ∈ live s.collect.timers, later.callback ≠ timer.callback := by
  intro later kept mine
  rw [live_collect, List.mem_filterMap] at kept
  obtain ⟨before, known, visited⟩ := kept
  have callback : before.callback = timer.callback := by
    rw [← mine, visit_keeps visited]
  rw [live_unique orderly known member callback, visit_due due, once] at visited
  simp at visited

theorem scheduled_collect_gone (orderly : Orderly s) (scheduled : Scheduled s r registration)
    (once : registration.isRepeat = false)
    (late : period registration.delay ≤ s.age registration) :
    Scheduled s.collect r registration := by
  have aged := age_collect scheduled
  have gone := scheduled.gone once late
  have reached := Nat.div_pos late (period_pos registration.delay)
  have more : 0 < (s.age registration + 1) / period registration.delay :=
    Nat.div_pos (by omega) (period_pos registration.delay)
  refine ⟨scheduled.started.trans (Nat.le_succ _), fun waiting => ?_, fun _ _ => gone_collect gone,
    ?_⟩
  · rw [once, aged] at waiting
    simp only [Bool.false_eq_true, false_or] at waiting
    omega
  · rw [aged]
    apply unfired_collect orderly _ scheduled
    · simp only [firings, once, Bool.false_eq_true, if_false]
      omega
    · intro collected
      obtain ⟨timer, member, _, mine⟩ := mem_batch_collect.mp collected
      exact gone timer member mine

theorem scheduled_collect_due (orderly : Orderly s) (scheduled : Scheduled s r registration)
    (made : s.registrations[r]? = some registration) (alive : registration.ctx ∉ s.expired)
    (waiting : registration.isRepeat = true ∨ s.age registration < period registration.delay)
    (quotient : (s.age registration + 1) / period registration.delay =
      s.age registration / period registration.delay + 1)
    (rest : (s.age registration + 1) % period registration.delay = 0)
    (wraps : s.age registration % period registration.delay + 1 = period registration.delay) :
    Scheduled s.collect r registration := by
  have aged := age_collect scheduled
  have started := scheduled.started
  obtain ⟨timer, member, rfl, elapsed⟩ := scheduled.waiting waiting
  obtain ⟨recorded, here, ctx, delay, repeats, _⟩ := orderly.recorded timer member
  rw [made] at here
  cases here
  have due := (due_iff alive ctx delay elapsed).mpr wraps
  refine ⟨started.trans (Nat.le_succ _), ?_, ?_, ?_⟩
  · intro still
    have again : registration.isRepeat = true := by
      by_contra once
      simp only [Bool.not_eq_true] at once
      have early : s.age registration < period registration.delay := by simpa [once] using waiting
      have small := Nat.mod_eq_of_lt early
      simp only [aged, once, Bool.false_eq_true, false_or] at still
      omega
    refine ⟨{ timer with elapsed := 0 }, ?_, rfl, by simp [aged, rest]⟩
    rw [live_collect, List.mem_filterMap]
    exact ⟨timer, member, by rw [visit_due due, repeats, again, if_pos rfl]⟩
  · intro once _
    exact gone_of_due orderly member due (repeats.trans once)
  · have counted := firings_waiting waiting
    have split := Nat.div_add_mod (s.age registration) (period registration.delay)
    rw [aged]
    apply fired_collect orderly _ scheduled
    · rw [counted]
      exact firings_due waiting quotient
    · have now : (s.age registration / period registration.delay + 1) *
          period registration.delay = s.age registration + 1 := by
        rw [Nat.mul_comm, Nat.mul_succ]
        omega
      rw [counted, now]
      simp only [State.age]
      omega
    · exact mem_batch_collect.mpr ⟨timer, member, due, rfl⟩

theorem scheduled_collect_early (orderly : Orderly s) (scheduled : Scheduled s r registration)
    (made : s.registrations[r]? = some registration) (alive : registration.ctx ∉ s.expired)
    (waiting : registration.isRepeat = true ∨ s.age registration < period registration.delay)
    (quotient : (s.age registration + 1) / period registration.delay =
      s.age registration / period registration.delay)
    (rest : (s.age registration + 1) % period registration.delay =
      s.age registration % period registration.delay + 1)
    (stays : s.age registration % period registration.delay + 1 < period registration.delay) :
    Scheduled s.collect r registration := by
  have aged := age_collect scheduled
  obtain ⟨timer, member, rfl, elapsed⟩ := scheduled.waiting waiting
  obtain ⟨recorded, here, ctx, delay, repeats, _⟩ := orderly.recorded timer member
  rw [made] at here
  cases here
  have patient : ¬ timer.due s.isExpired = true := by
    rw [due_iff alive ctx delay elapsed]
    omega
  have still : registration.isRepeat = true ∨
      s.age registration + 1 < period registration.delay := by
    refine waiting.imp_right fun early => ?_
    have small := Nat.mod_eq_of_lt early
    omega
  refine ⟨scheduled.started.trans (Nat.le_succ _), fun _ => ?_, fun once late => ?_, ?_⟩
  · have fresh : s.isExpired timer.ctx = false := by simpa [State.isExpired, ctx] using alive
    refine ⟨{ timer with elapsed := timer.advanced }, ?_, rfl, ?_⟩
    · rw [live_collect, List.mem_filterMap]
      exact ⟨timer, member, visit_early fresh patient⟩
    · simp only [Infra.Timer.advanced, elapsed, aged, rest, Infra.sleepTime]
      push_cast
      omega
  · simp only [aged, once, Bool.false_eq_true, false_or] at late still
    omega
  · rw [aged]
    apply unfired_collect orderly _ scheduled
    · rw [firings_waiting still, firings_waiting waiting, quotient]
    · intro collected
      obtain ⟨other, known, late, mine⟩ := mem_batch_collect.mp collected
      rw [live_unique orderly known member mine] at late
      exact patient late

theorem scheduled_collect_waiting (orderly : Orderly s) (scheduled : Scheduled s r registration)
    (made : s.registrations[r]? = some registration) (alive : registration.ctx ∉ s.expired)
    (waiting : registration.isRepeat = true ∨ s.age registration < period registration.delay) :
    Scheduled s.collect r registration := by
  rcases succ_div_mod (s.age registration) (period_pos registration.delay) with
    ⟨quotient, rest, wraps⟩ | ⟨quotient, rest, stays⟩
  · exact scheduled_collect_due orderly scheduled made alive waiting quotient rest wraps
  · exact scheduled_collect_early orderly scheduled made alive waiting quotient rest stays

theorem scheduled_frame {t : State} (scheduled : Scheduled s r registration)
    (timers : live t.timers = live s.timers) (ticks : t.ticks = s.ticks)
    (collections : t.collections = s.collections) : Scheduled t r registration := by
  have age : t.age registration = s.age registration := by simp only [State.age, ticks]
  have log : t.collectedAt r = s.collectedAt r := by simp only [State.collectedAt, collections]
  exact ⟨ticks ▸ scheduled.started, by rw [age, timers]; exact scheduled.waiting,
    by rw [age, timers]; exact scheduled.gone, by rw [age, log]; exact scheduled.fired⟩

theorem scheduled_new (orderly : Orderly s) (ctx : Nat) (delay : Int) (isRepeat : Bool) :
    Scheduled (s.register ctx delay isRepeat) s.registrations.length
      ⟨ctx, delay, isRepeat, s.newId, s.ticks⟩ := by
  have young : (s.register ctx delay isRepeat).age ⟨ctx, delay, isRepeat, s.newId, s.ticks⟩ = 0 :=
    Nat.sub_self _
  refine ⟨Nat.le_refl _, fun _ => ?_, fun _ late => ?_, ?_⟩
  · refine ⟨⟨s.registrations.length, ctx, delay, 0, isRepeat, s.newId⟩, ?_, rfl, ?_⟩
    · simp [State.register]
    · simp [young]
  · have pos := period_pos delay
    rw [young] at late
    simp only at late
    omega
  · have unheard : s.collectedAt s.registrations.length = [] := by
      rw [State.collectedAt, List.filterMap_eq_nil_iff]
      intro entry member
      rw [if_neg (Nat.ne_of_lt (orderly.issued entry member))]
    have quiet : (s.register ctx delay isRepeat).collectedAt s.registrations.length = [] := unheard
    rw [young, quiet]
    simp [firings]

theorem scheduled_register (scheduled : Scheduled s r registration)
    (old : r < s.registrations.length) (ctx : Nat) (delay : Int) (isRepeat : Bool) :
    Scheduled (s.register ctx delay isRepeat) r registration := by
  refine ⟨scheduled.started, fun waiting => ?_, fun once late => ?_, scheduled.fired⟩
  · obtain ⟨timer, member, rest⟩ := scheduled.waiting waiting
    exact ⟨timer, by simp [State.register, member], rest⟩
  · simp only [State.register, live_append, List.mem_append, List.mem_singleton]
    rintro timer (member | rfl)
    · exact scheduled.gone once late timer member
    · simp only
      omega

theorem scheduled_clear (orderly : Orderly s) (scheduled : Scheduled s r registration) {a : Action}
    {id : Int} (aimed : clears a = some id) (kept : removes s a r = false) :
    Scheduled { s with timers := clearTimeout s.timers id } r registration := by
  refine ⟨scheduled.started, fun waiting => ?_, fun once late => ?_, scheduled.fired⟩
  · obtain ⟨timer, member, mine, elapsed⟩ := scheduled.waiting waiting
    refine ⟨timer, (mem_clear orderly timer id).mpr ⟨member, fun found => ?_⟩, mine, elapsed⟩
    simp [removes, aimed, found, mine] at kept
  · intro timer member
    exact scheduled.gone once late timer ((live_clear s.timers id).subset member)

end Pass

def OnSchedule (s : State) (r : Nat) : Prop :=
  ∀ registration, s.registrations[r]? = some registration → registration.ctx ∉ s.expired →
    Scheduled s r registration

theorem onSchedule_preserved {s t : State} {a : Action} {r : Nat} (taken : Step s a t)
    (orderly : Orderly s) (kept : removes s a r = false) (scheduled : OnSchedule s r) :
    OnSchedule t r := by
  intro registration made alive
  cases taken with
  | register a ctx delay isRepeat _ =>
      rcases registered_cases made with ⟨old, known⟩ | ⟨rfl, rfl⟩
      · exact scheduled_register (scheduled registration known alive) old ctx delay isRepeat
      · exact scheduled_new orderly ctx delay isRepeat
  | clear a id aimed => exact scheduled_clear orderly (scheduled registration made alive) aimed kept
  | expire ctx =>
      have before : registration.ctx ∉ s.expired :=
        fun gone => alive (List.mem_cons_of_mem ctx gone)
      exact scheduled_frame (scheduled registration made before) rfl rfl rfl
  | collect _ =>
      have before := scheduled registration made alive
      by_cases waiting : registration.isRepeat = true ∨
          s.age registration < period registration.delay
      · exact scheduled_collect_waiting orderly before made alive waiting
      · simp only [not_or, Bool.not_eq_true, Nat.not_lt] at waiting
        exact scheduled_collect_gone orderly before waiting.1 waiting.2
  | erase callbacks _ =>
      exact scheduled_frame (scheduled registration made alive) (live_erase s.timers) rfl rfl
  | invoke callback rest _ => exact scheduled_frame (scheduled registration made alive) rfl rfl rfl
  | sleep _ => exact scheduled_frame (scheduled registration made alive) rfl rfl rfl

theorem onSchedule_of_kept {history : List (State × Action)} {s : State} {r : Nat}
    (run : Run system history s)
    (kept : ∀ entry ∈ history, removes entry.1 entry.2 r = false) : OnSchedule s r := by
  have holds := run.invariant (fun s a => removes s a r = false)
    (fun s => Orderly s ∧ OnSchedule s r)
    (by
      rintro _ rfl
      exact ⟨orderly_initial, by simp [OnSchedule, initial]⟩)
    (fun s a t held spared taken =>
      ⟨orderly_preserved (step_some taken) held.1,
        onSchedule_preserved (step_some taken) held.1 spared held.2⟩) kept
  exact holds.2

theorem collectedAt_once {s : State} {r : Nat} {registration : Registration}
    (scheduled : Scheduled s r registration) (once : registration.isRepeat = false) :
    s.collectedAt r = if period registration.delay ≤ s.age registration then
      [registration.tick + period registration.delay] else [] := by
  have fired := scheduled.fired
  simp only [firings, once, Bool.false_eq_true, if_false] at fired
  split_ifs with late
  · have first : min (s.age registration / period registration.delay) 1 = 1 := by
      have reached := Nat.div_pos late (period_pos registration.delay)
      omega
    simpa [first] using fired
  · simpa [Nat.div_eq_of_lt (Nat.not_le.mp late)] using fired

/-- A timer that no clear takes off the list, in a living context: an interval is collected at
every `period`-th pass after its registration, a timeout at the first of them only, when it leaves
the list. -/
theorem fired_on_schedule {history : List (State × Action)} {s : State} {r : Nat}
    {registration : Registration} (run : Run system history s)
    (made : s.registrations[r]? = some registration) (alive : registration.ctx ∉ s.expired)
    (kept : ∀ entry ∈ history, removes entry.1 entry.2 r = false) :
    (registration.isRepeat = true →
      s.collectedAt r = (List.range (s.age registration / period registration.delay)).map
        fun n => registration.tick + (n + 1) * period registration.delay) ∧
    (registration.isRepeat = false →
      s.collectedAt r = if period registration.delay ≤ s.age registration then
        [registration.tick + period registration.delay] else []) ∧
    ((∃ timer ∈ live s.timers, timer.callback = r) ↔
      registration.isRepeat = true ∨ s.age registration < period registration.delay) := by
  have scheduled := onSchedule_of_kept run kept registration made alive
  have fired := scheduled.fired
  refine ⟨fun repeats => ?_, fun once => collectedAt_once scheduled once, ?_⟩
  · simpa [firings, repeats] using fired
  · constructor
    · rintro ⟨timer, member, mine⟩
      by_contra ended
      simp only [not_or, Bool.not_eq_true, Nat.not_lt] at ended
      exact scheduled.gone ended.1 ended.2 timer member mine
    · intro waiting
      obtain ⟨timer, member, mine, _⟩ := scheduled.waiting waiting
      exact ⟨timer, member, mine⟩

theorem interval_fired_twice :
    ∃ s, Reachable system s ∧ s.ticks = 5 ∧ s.collectedAt 1 = [2, 4] := by
  let pass : List Action := [.collect, .erase, .invoke, .sleep]
  let quiet : List Action := [.collect, .erase, .sleep]
  obtain ⟨history, s, run, checked⟩ := system.exists_run rfl
    ([.setTimeout 0 0, .setInterval 0 45] ++ pass ++ [.clearTimeout 1] ++ pass ++ quiet ++ pass ++
      quiet)
    (fun history s => s.registrations[1]? == some ⟨0, 45, true, 2, 0⟩ && s.expired == [] &&
      s.ticks == 5 && history.all fun entry => !removes entry.1 entry.2 1) (by decide +kernel)
  simp only [Bool.and_eq_true, beq_iff_eq, List.all_eq_true, Bool.not_eq_true'] at checked
  obtain ⟨⟨⟨made, alive⟩, ticks⟩, kept⟩ := checked
  have fired := (fired_on_schedule run made (by simp [alive]) kept).1 rfl
  refine ⟨s, run.reachable, ticks, ?_⟩
  rw [fired]
  simp only [State.age, ticks]
  decide

theorem mem_collections {s : State} {r tick : Nat} :
    tick ∈ s.collectedAt r ↔ (tick, r) ∈ s.collections := by
  simp only [State.collectedAt, List.mem_filterMap, Option.ite_none_right_eq_some,
    Option.some.injEq, Prod.exists]
  constructor
  · rintro ⟨_, _, member, rfl, rfl⟩
    exact member
  · intro member
    exact ⟨tick, r, member, rfl, rfl⟩

theorem collected_of_invoked {s : State} (orderly : Orderly s) {r : Nat}
    (invoked : r ∈ s.invoked) : ∃ tick, tick ∈ s.collectedAt r := by
  have logged : r ∈ s.collections.map Prod.snd := by
    rw [orderly.collected]
    exact List.mem_append_left _ invoked
  obtain ⟨⟨tick, _⟩, member, rfl⟩ := List.mem_map.mp logged
  exact ⟨tick, mem_collections.mpr member⟩

theorem invoked_of_collected {s : State} (orderly : Orderly s) (asleep : s.phase = .sleeping)
    {r tick : Nat} (collected : tick ∈ s.collectedAt r) : r ∈ s.invoked := by
  have logged : r ∈ s.collections.map Prod.snd :=
    List.mem_map.mpr ⟨(tick, r), mem_collections.mp collected, rfl⟩
  simpa [orderly.collected, asleep, Phase.batch] using logged

theorem unheard_before {s : State} {b tick : Nat} {before after : List (Nat × Nat)}
    (split : s.collections = before ++ (tick, b) :: after) (once : s.collectedAt b = [tick]) :
    b ∉ before.map Prod.snd := by
  intro heard
  obtain ⟨entry, known, same⟩ := List.mem_map.mp heard
  have twice := congrArg List.length once
  simp only [State.collectedAt, split, List.filterMap_append, List.filterMap_cons, if_true,
    List.length_append, List.length_cons, List.length_nil] at twice
  have none : before.filterMap (fun entry => if entry.2 = b then some entry.1 else none) = [] :=
    List.length_eq_zero_iff.mp (by omega)
  rw [List.filterMap_eq_nil_iff] at none
  simpa [same] using none entry known

theorem idxOf_lt_of_split {invoked batch before after : List Nat} {a b : Nat}
    (split : invoked ++ batch = before ++ b :: after) (heard : a ∈ before) (unheard : b ∉ before)
    (member : b ∈ invoked) : invoked.idxOf a < invoked.idxOf b := by
  have place : invoked.idxOf b = before.length := by
    have whole := congrArg (List.idxOf b) split
    rw [List.idxOf_append_of_notMem unheard, List.idxOf_cons_self,
      List.idxOf_append_of_mem member] at whole
    exact whole
  have position := congrArg (List.idxOf a) split
  rw [List.idxOf_append_of_mem heard, List.idxOf_append] at position
  have inside := List.idxOf_lt_length_of_mem heard
  have bound := List.idxOf_lt_length_of_mem member
  split_ifs at position <;> omega

theorem invoked_before {s : State} (orderly : Orderly s) {a b first second : Nat}
    (early : first ∈ s.collectedAt a) (late : s.collectedAt b = [second])
    (ahead : first < second ∨ (first = second ∧ a < b)) (invoked : b ∈ s.invoked) :
    s.invoked.idxOf a < s.invoked.idxOf b := by
  obtain ⟨before, after, split⟩ := List.append_of_mem
    (mem_collections.mp (late ▸ List.mem_singleton_self second : second ∈ s.collectedAt b))
  have logged := orderly.logged
  have member := mem_collections.mp early
  rw [split] at logged member
  have heard : a ∈ before.map Prod.snd := by
    refine List.mem_map.mpr ⟨(first, a), ?_, rfl⟩
    simp only [List.mem_append, List.mem_cons, Prod.mk.injEq] at member
    rw [List.pairwise_append, List.pairwise_cons] at logged
    rcases member with old | ⟨rfl, rfl⟩ | new
    · exact old
    · omega
    · have order := logged.2.1.1 (first, a) new
      simp only at order
      omega
  have collected := orderly.collected
  rw [split, List.map_append, List.map_cons] at collected
  exact idxOf_lt_of_split collected.symm heard (unheard_before split late) invoked

/-- Of two timeouts that no clear takes off the list, in living contexts, the one that is
registered first and has no longer delay is invoked first, and both are invoked in time. -/
theorem timeouts_in_order {history : List (State × Action)} {s : State} {a b : Nat}
    {first second : Registration} (run : Run system history s) (before : a < b)
    (firstMade : s.registrations[a]? = some first) (secondMade : s.registrations[b]? = some second)
    (firstOnce : first.isRepeat = false) (secondOnce : second.isRepeat = false)
    (delays : first.delay ≤ second.delay)
    (firstAlive : first.ctx ∉ s.expired) (secondAlive : second.ctx ∉ s.expired)
    (kept : ∀ entry ∈ history, removes entry.1 entry.2 a = false ∧
      removes entry.1 entry.2 b = false) :
    (b ∈ s.invoked → s.invoked.idxOf a < s.invoked.idxOf b) ∧
    (s.phase = .sleeping → period second.delay ≤ s.age second → a ∈ s.invoked ∧ b ∈ s.invoked) := by
  have orderly := orderly_reachable run.reachable
  have firstScheduled := onSchedule_of_kept run (fun entry member => (kept entry member).1)
    first firstMade firstAlive
  have secondScheduled := onSchedule_of_kept run (fun entry member => (kept entry member).2)
    second secondMade secondAlive
  have turn : first.tick ≤ second.tick := by
    obtain ⟨inside, rfl⟩ := List.getElem?_eq_some_iff.mp firstMade
    obtain ⟨within, rfl⟩ := List.getElem?_eq_some_iff.mp secondMade
    exact List.pairwise_iff_getElem.mp orderly.inTurn a b inside within before
  have periods : period first.delay ≤ period second.delay := by
    have own := (period_le_iff second.delay (period_pos second.delay)).mp (Nat.le_refl _)
    exact (period_le_iff first.delay (period_pos second.delay)).mpr (Int.le_trans delays own)
  have aged (late : period second.delay ≤ s.age second) :
      s.collectedAt a = [first.tick + period first.delay] ∧
        s.collectedAt b = [second.tick + period second.delay] := by
    rw [collectedAt_once firstScheduled firstOnce, collectedAt_once secondScheduled secondOnce,
      if_pos late, if_pos]
    · exact ⟨rfl, rfl⟩
    · simp only [State.age] at late ⊢
      omega
  constructor
  · intro invoked
    obtain ⟨tick, collected⟩ := collected_of_invoked orderly invoked
    rw [collectedAt_once secondScheduled secondOnce] at collected
    split_ifs at collected with late
    · have both := aged late
      exact invoked_before orderly (both.1 ▸ List.mem_singleton_self _) both.2 (by omega) invoked
    · simp at collected
  · intro asleep late
    have both := aged late
    exact ⟨invoked_of_collected orderly asleep (both.1 ▸ List.mem_singleton_self _),
      invoked_of_collected orderly asleep (both.2 ▸ List.mem_singleton_self _)⟩

theorem timeouts_invoked_in_order :
    ∃ s, Reachable system s ∧ s.invoked.idxOf 0 < s.invoked.idxOf 2 ∧ 2 ∈ s.invoked := by
  obtain ⟨history, s, run, checked⟩ := system.exists_run rfl
    [.setTimeout 0 31, .setInterval 0 0, .collect, .erase, .invoke, .sleep, .setTimeout 1 32,
      .collect, .erase, .invoke, .invoke, .sleep, .collect, .erase, .invoke, .invoke, .sleep]
    (fun history s => s.registrations[0]? == some ⟨0, 31, false, 1, 0⟩ &&
      s.registrations[2]? == some ⟨1, 32, false, 3, 1⟩ && s.expired == [] && s.ticks == 3 &&
      s.phase == .sleeping && history.all fun entry =>
        !removes entry.1 entry.2 0 && !removes entry.1 entry.2 2) (by decide +kernel)
  simp only [Bool.and_eq_true, beq_iff_eq, List.all_eq_true, Bool.not_eq_true'] at checked
  obtain ⟨⟨⟨⟨⟨firstMade, secondMade⟩, alive⟩, ticks⟩, phase⟩, kept⟩ := checked
  have ordered := timeouts_in_order run (by omega : 0 < 2) firstMade secondMade rfl rfl
    (by decide) (by simp [alive]) (by simp [alive]) kept
  have invoked := (ordered.2 phase (by simp only [State.age, ticks]; decide)).2
  exact ⟨s, run.reachable, ordered.1 invoked, invoked⟩

end BreezeJs.TimerThread
