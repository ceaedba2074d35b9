import BreezeJs.Std.TimerThread

set_option autoImplicit false

namespace BreezeJs.TimerThread

open Transition

def isFor (r : Nat) (timer : Option (Infra.Timer Nat)) : Bool :=
  timer.any fun timer => timer.callback == r

def without (timers : List (Option (Infra.Timer Nat))) (r : Nat) :
    List (Option (Infra.Timer Nat)) :=
  timers.filter fun timer => !isFor r timer

structure Addressed (s : State) : Prop where
  own : ∀ (r : Nat) (registration : Registration), s.registrations[r]? = some registration →
    clearTimeout s.timers registration.id = without s.timers r
  distinct : ((live s.timers).map fun timer => timer.id).Nodup
  contexts : ∀ (r : Nat) (registration : Registration), s.registrations[r]? = some registration →
    ∀ timer ∈ live s.timers, timer.ctx ≠ registration.ctx →
      timer ∈ live (clearTimeout s.timers registration.id)

def reuses (s : State) (a : Action) : Bool :=
  (registers a).isSome &&
    (s.timers.length != s.registrations.length || decide (intRange ≤ s.registrations.length))

def Named (s : State) : Prop :=
  ∀ (r : Nat) (registration : Registration), s.registrations[r]? = some registration →
    ∀ timer ∈ live s.timers, timer.id = registration.id → timer.callback = r

theorem clearTimeout_absent {timers : List (Option (Infra.Timer Nat))} {id : Int}
    (absent : ∀ timer ∈ live timers, timer.id ≠ id) : clearTimeout timers id = timers := by
  apply List.eraseP_of_forall_not
  intro entry member
  cases entry with
  | none => simp [hasId]
  | some timer => simpa [hasId] using absent timer (mem_live.mpr member)

theorem clearTimeout_present {timers : List (Option (Infra.Timer Nat))} {id : Int}
    {timer : Infra.Timer Nat} (member : timer ∈ live timers) (same : timer.id = id) :
    ∃ first before after, timers = before ++ some first :: after ∧ first.id = id ∧
      clearTimeout timers id = before ++ after := by
  obtain ⟨entry, before, after, _, found, split, erased⟩ :=
    List.exists_of_eraseP (mem_live.mp member) (show hasId id (some timer) = true by
      simpa [hasId] using same)
  cases entry with
  | none => simp [hasId] at found
  | some first => exact ⟨first, before, after, split, by simpa [hasId] using found, erased⟩

theorem live_split (before after : List (Option (Infra.Timer Nat))) (timer : Infra.Timer Nat) :
    live (before ++ some timer :: after) = live before ++ timer :: live after := by
  simp [live]

theorem without_absent {timers : List (Option (Infra.Timer Nat))} {r : Nat}
    (absent : ∀ timer ∈ live timers, timer.callback ≠ r) : without timers r = timers := by
  apply List.filter_eq_self.mpr
  intro entry member
  cases entry with
  | none => simp [isFor]
  | some timer => simpa [isFor] using absent timer (mem_live.mpr member)

theorem without_split {before after : List (Option (Infra.Timer Nat))} {timer : Infra.Timer Nat}
    (ordered : (live (before ++ some timer :: after)).Pairwise
      fun first second => first.callback < second.callback) :
    without (before ++ some timer :: after) timer.callback = before ++ after := by
  rw [live_split, List.pairwise_append, List.pairwise_cons] at ordered
  obtain ⟨_, ⟨later, _⟩, earlier⟩ := ordered
  have kept : without (before ++ some timer :: after) timer.callback =
      without before timer.callback ++ without after timer.callback := by
    simp [without, isFor]
  rw [kept, without_absent, without_absent]
  · intro other member same
    have less := later other member
    omega
  · intro other member same
    have less := earlier other member timer List.mem_cons_self
    omega

theorem registration_of_live {s : State} (orderly : Orderly s) {timer : Infra.Timer Nat}
    (member : timer ∈ live s.timers) {registration : Registration}
    (made : s.registrations[timer.callback]? = some registration) :
    timer.ctx = registration.ctx ∧ timer.id = registration.id := by
  obtain ⟨recorded, here, ctx, _, _, id⟩ := orderly.recorded timer member
  rw [made] at here
  cases here
  exact ⟨ctx, id⟩

theorem own_of_named {s : State} (orderly : Orderly s) (named : Named s) {r : Nat}
    {registration : Registration} (made : s.registrations[r]? = some registration) :
    clearTimeout s.timers registration.id = without s.timers r := by
  by_cases present : ∃ timer ∈ live s.timers, timer.id = registration.id
  · obtain ⟨timer, member, same⟩ := present
    obtain ⟨first, before, after, split, found, cleared⟩ := clearTimeout_present member same
    have inList : first ∈ live s.timers := by simp [split, live_split]
    have mine := named r registration made first inList found
    have ordered := orderly.ordered
    rw [cleared, split, ← mine]
    rw [split] at ordered
    exact (without_split ordered).symm
  · push Not at present
    rw [clearTimeout_absent present, without_absent]
    intro timer member mine
    subst mine
    exact present timer member (registration_of_live orderly member made).2

theorem addressed_of_named {s : State} (orderly : Orderly s) (named : Named s) : Addressed s where
  own _ _ made := own_of_named orderly named made
  distinct := by
    rw [List.nodup_iff_pairwise_ne, List.pairwise_map]
    refine orderly.ordered.imp_of_mem fun {first second} known member less same => ?_
    obtain ⟨registration, made, _, _, _, id⟩ := orderly.recorded second member
    have mine := named _ registration made first known (same.trans id)
    omega
  contexts r registration made timer member foreign := by
    rw [own_of_named orderly named made]
    have kept : timer.callback ≠ r := by
      rintro rfl
      exact foreign (registration_of_live orderly member made).1
    rw [mem_live, without, List.mem_filter]
    exact ⟨mem_live.mp member, by simpa [isFor] using kept⟩

theorem first_of_own {s : State} (orderly : Orderly s) {r : Nat}
    {first : Infra.Timer Nat} {before after : List (Option (Infra.Timer Nat))}
    (split : s.timers = before ++ some first :: after)
    (removed : before ++ after = without s.timers r) : first.callback = r := by
  by_contra other
  have stays : some first ∈ before ++ after := by
    rw [removed, without, List.mem_filter, split]
    exact ⟨by simp, by simpa [isFor] using other⟩
  have ordered := orderly.ordered
  rw [split, live_split, List.pairwise_append, List.pairwise_cons] at ordered
  cases List.mem_append.mp stays with
  | inl earlier =>
      have less := ordered.2.2 first (mem_live.mpr earlier) first List.mem_cons_self
      omega
  | inr later =>
      have less := ordered.2.1.1 first (mem_live.mpr later)
      omega

theorem named_of_own {s : State} (orderly : Orderly s)
    (own : ∀ (r : Nat) (registration : Registration), s.registrations[r]? = some registration →
      clearTimeout s.timers registration.id = without s.timers r) : Named s := by
  intro r registration made timer member same
  obtain ⟨first, before, after, split, _, cleared⟩ := clearTimeout_present member same
  obtain ⟨recorded, here, _, _, _, id⟩ := orderly.recorded timer member
  have ours := own r registration made
  have theirs := own timer.callback recorded here
  rw [← id, same] at theirs
  rw [cleared] at ours theirs
  rw [← first_of_own orderly split ours, first_of_own orderly split theirs]

theorem toInt_injective {m n : Nat} (first : m < intRange) (second : n < intRange)
    (same : toInt (m + 1) = toInt (n + 1)) : m = n := by
  simp only [toInt, intRange, Int.bmod_def] at *
  omega

structure Numbered (s : State) : Prop where
  orderly : Orderly s
  ids : ∀ (r : Nat) (registration : Registration), s.registrations[r]? = some registration →
    registration.id = toInt (r + 1)
  bounded : s.registrations.length ≤ intRange
  short : s.timers.length ≤ s.registrations.length

theorem named_of_numbered {s : State} (numbered : Numbered s) : Named s := by
  intro r registration made timer member same
  obtain ⟨recorded, here, _, _, _, id⟩ := numbered.orderly.recorded timer member
  have bounded := numbered.bounded
  have inside := (List.getElem?_eq_some_iff.mp made).1
  have within := (List.getElem?_eq_some_iff.mp here).1
  rw [id, numbered.ids _ _ here, numbered.ids _ _ made] at same
  exact toInt_injective (by omega) (by omega) same

theorem short_preserved {s t : State} {a : Action} (taken : Step s a t)
    (short : s.timers.length ≤ s.registrations.length) :
    t.timers.length ≤ t.registrations.length := by
  cases taken with
  | register a ctx delay isRepeat _ => simpa [State.register] using short
  | clear a id _ =>
      exact (List.eraseP_sublist.length_le : (clearTimeout s.timers id).length ≤ _).trans short
  | collect _ => simpa [State.collect] using short
  | erase callbacks _ => exact (List.length_filter_le _ _).trans short
  | _ => exact short

theorem numbered_preserved {s t : State} {a : Action} (taken : Step s a t)
    (fresh : reuses s a = false) (numbered : Numbered s) : Numbered t := by
  refine ⟨orderly_preserved taken numbered.orderly, ?_, ?_, short_preserved taken numbered.short⟩
  · intro r registration made
    cases taken with
    | register a ctx delay isRepeat registered =>
        simp only [reuses, registered, Option.isSome_some, Bool.true_and, Bool.or_eq_false_iff,
          bne_eq_false_iff_eq] at fresh
        rcases registered_cases made with ⟨_, known⟩ | ⟨rfl, rfl⟩
        · exact numbered.ids r registration known
        · simp only [State.newId, fresh.1]
    | _ => exact numbered.ids r registration made
  · cases taken with
    | register a ctx delay isRepeat registered =>
        simp only [reuses, registered, Option.isSome_some, Bool.true_and, Bool.or_eq_false_iff,
          decide_eq_false_iff_not, Nat.not_le] at fresh
        simpa [State.register, Nat.succ_le_iff] using fresh.2
    | _ => exact numbered.bounded

def Reuses (s : State) (r : Nat) : Prop :=
  ∃ registration, s.registrations[r]? = some registration ∧ registration.id = s.newId

theorem reuses_of_number {s : State} (numbered : Numbered s) {r : Nat}
    (inside : r < s.registrations.length) (same : toInt (r + 1) = s.newId) : Reuses s r := by
  have made := List.getElem?_eq_getElem inside
  exact ⟨_, made, (numbered.ids r _ made).trans same⟩

theorem reused_id {s : State} (numbered : Numbered s)
    (reused : s.timers.length ≠ s.registrations.length ∨ intRange ≤ s.registrations.length) :
    ∃ r, Reuses s r := by
  have bounded := numbered.bounded
  have short := numbered.short
  by_cases full : s.timers.length = s.registrations.length
  · have exhausted : s.registrations.length = intRange := by omega
    refine ⟨0, reuses_of_number numbered ?_ ?_⟩
    · simp only [exhausted, intRange]
      omega
    · simp only [State.newId, full, exhausted]
      decide
  · exact ⟨s.timers.length, reuses_of_number numbered (by omega) rfl⟩

theorem reuse_breaks {s t : State} {a : Action} (taken : Step s a t) (numbered : Numbered s)
    (reused : reuses s a = true) : ¬ Addressed t := by
  intro addressed
  have orderly := orderly_preserved taken numbered.orderly
  have named := named_of_own orderly addressed.own
  simp only [reuses, Bool.and_eq_true, Bool.or_eq_true, bne_iff_ne, decide_eq_true_eq] at reused
  cases taken with
  | register a ctx delay isRepeat _ =>
      obtain ⟨r, registration, made, same⟩ := reused_id numbered reused.2
      have inside := (List.getElem?_eq_some_iff.mp made).1
      have still : (s.register ctx delay isRepeat).registrations[r]? = some registration := by
        simpa [State.register, List.getElem?_append_left inside] using made
      have new : ⟨s.registrations.length, ctx, delay, 0, isRepeat, s.newId⟩ ∈
          live (s.register ctx delay isRepeat).timers := by
        simp [State.register]
      have mine := named r registration still _ new (by simp only [same])
      simp only at mine
      omega
  | clear a id cleared => cases a <;> simp [registers, clears] at reused cleared
  | _ => simp [registers] at reused

theorem numbered_initial : Numbered initial where
  orderly := orderly_initial
  ids := by simp [initial]
  bounded := Nat.zero_le _
  short := Nat.le_refl _

/-- Every id names the timer of its own registration and no other, in every state of a run, if and
only if no timer is registered while another has left the list. -/
theorem timer_ids_address_iff {history : List (State × Action)} {s : State}
    (run : Run system history s) :
    (Addressed s ∧ ∀ entry ∈ history, Addressed entry.1) ↔
      ∀ entry ∈ history, reuses entry.1 entry.2 = false := by
  apply run.always_iff (fun s a => reuses s a = false) Addressed Numbered
  · rintro _ rfl
    exact numbered_initial
  · intro s numbered
    exact addressed_of_named numbered.orderly (named_of_numbered numbered)
  · intro s a t numbered fresh taken
    exact numbered_preserved (step_some taken) fresh numbered
  · intro s a t numbered reused taken
    exact reuse_breaks (step_some taken) numbered (by simpa using reused)

theorem timer_ids_address_before_expiry :
    ∃ (history : List (State × Action)) (s : State), Run system history s ∧
      s.registrations.length = 3 ∧ s.invoked = [0] ∧ Addressed s := by
  obtain ⟨history, s, run, checked⟩ := system.exists_run rfl
    [.setTimeout 0 0, .setInterval 1 60, .setTimeout 0 90, .collect, .erase, .invoke]
    (fun history s => s.registrations.length == 3 && s.invoked == [0] &&
      history.all fun entry => !reuses entry.1 entry.2) (by decide +kernel)
  simp only [Bool.and_eq_true, beq_iff_eq, List.all_eq_true, Bool.not_eq_true'] at checked
  exact ⟨history, s, run, checked.1.1, checked.1.2, ((timer_ids_address_iff run).mpr checked.2).1⟩

theorem timer_id_shared_after_expiry :
    ∃ s, Reachable system s ∧ ¬ Addressed s ∧
      (live s.timers).map (fun timer => (timer.ctx, timer.id)) = [(0, 2), (1, 2)] ∧
      (live (clearTimeout s.timers 2)).map (fun timer => timer.ctx) = [1] := by
  obtain ⟨history, s, run, checked⟩ := system.exists_run rfl
    [.setTimeout 0 0, .setTimeout 0 900, .collect, .erase, .invoke, .sleep, .setTimeout 1 900]
    (fun _ s => (live s.timers).map (fun timer => (timer.ctx, timer.id)) == [(0, 2), (1, 2)] &&
      (live (clearTimeout s.timers 2)).map (fun timer => timer.ctx) == [1]) (by decide +kernel)
  simp only [Bool.and_eq_true, beq_iff_eq] at checked
  refine ⟨s, run.reachable, fun addressed => ?_, checked.1, checked.2⟩
  have ids : (live s.timers).map (fun timer => timer.id) = [2, 2] := by
    have both := congrArg (List.map Prod.snd) checked.1
    simpa [Function.comp_def] using both
  have distinct := addressed.distinct
  rw [ids] at distinct
  simp at distinct

def Silent (t : State) (r : Nat) : Prop :=
  ∀ u, Reachable (system.after t) u → u.invoked.count r = t.invoked.count r

structure Retired (s : State) (r : Nat) : Prop where
  registered : r < s.registrations.length
  uncollected : r ∉ s.phase.batch
  gone : ∀ timer ∈ live s.timers, timer.callback = r → timer.ctx ∈ s.expired

theorem retired_preserved {s t : State} {a : Action} {r : Nat} (taken : Step s a t)
    (retired : Retired s r) : Retired t r ∧ t.invoked.count r = s.invoked.count r := by
  have registered := retired.registered
  have uncollected := retired.uncollected
  have gone := retired.gone
  cases taken with
  | register a ctx delay isRepeat _ =>
      refine ⟨⟨by simp only [State.register, List.length_append]; omega, uncollected, ?_⟩, rfl⟩
      simp only [State.register, live_append, List.mem_append, List.mem_singleton]
      rintro timer (old | rfl) mine
      · exact gone timer old mine
      · exact absurd mine (by simp only; omega)
  | clear a id _ =>
      exact ⟨⟨registered, uncollected,
        fun timer member => gone timer ((live_clear s.timers id).subset member)⟩, rfl⟩
  | expire ctx =>
      exact ⟨⟨registered, uncollected,
        fun timer member mine => List.mem_cons_of_mem ctx (gone timer member mine)⟩, rfl⟩
  | collect phase =>
      refine ⟨⟨registered, ?_, ?_⟩, rfl⟩
      · simp only [State.collect, Phase.batch, collect_batch, List.mem_filterMap, not_exists]
        rintro timer ⟨member, due⟩
        split_ifs at due with late
        simp only [Option.some.injEq] at due
        have expired := gone timer member due
        simp [Infra.Timer.due, State.isExpired, expired] at late
      · rw [live_collect]
        intro timer member mine
        obtain ⟨before, known, visited⟩ := List.mem_filterMap.mp member
        have kept := visit_keeps visited
        rw [kept] at mine ⊢
        exact gone before known mine
  | erase callbacks phase =>
      simp only [phase, Phase.batch] at uncollected
      exact ⟨⟨registered, uncollected, by simpa using gone⟩, rfl⟩
  | invoke callback rest phase =>
      simp only [phase, Phase.batch, List.mem_cons, not_or] at uncollected
      refine ⟨⟨registered, uncollected.2, gone⟩, ?_⟩
      simp [List.count_append, Ne.symm uncollected.1]
  | sleep phase => exact ⟨⟨registered, by simp [Phase.batch], gone⟩, rfl⟩

theorem silent_of_retired {t : State} {r : Nat} (retired : Retired t r) : Silent t r := by
  intro u reached
  have holds := reached.invariant
    (fun u => Retired u r ∧ u.invoked.count r = t.invoked.count r)
    (by
      rintro _ rfl
      exact ⟨retired, rfl⟩)
    (fun s u a held taken => by
      have moved := retired_preserved (step_some taken) held.1
      exact ⟨moved.1, moved.2.trans held.2⟩)
  exact holds.2

theorem collected_callback_runs {s u : State} {r : Nat} (collected : r ∈ s.phase.batch)
    (reached : Reachable (system.after s) u) (asleep : u.phase = .sleeping) :
    s.invoked.count r < u.invoked.count r := by
  have holds := reached.invariant
    (fun u => s.invoked.count r < u.invoked.count r ∨
      (r ∈ u.phase.batch ∧ s.invoked.count r = u.invoked.count r))
    (by
      rintro _ rfl
      exact .inr ⟨collected, rfl⟩)
    (fun v w a held taken => by
      cases step_some taken with
      | invoke callback rest phase =>
          simp only [phase, Phase.batch, List.mem_cons] at held
          by_cases same : callback = r
          · subst same
            simp only [List.count_append, List.count_singleton_self]
            omega
          · simpa [Phase.batch, List.count_append, List.count_singleton, same, Ne.symm same]
              using held
      | collect phase =>
          simp only [phase, Phase.batch, List.not_mem_nil, false_and, or_false] at held
          exact .inl held
      | erase callbacks phase => simpa [phase, Phase.batch] using held
      | sleep phase => simpa [phase, Phase.batch] using held
      | _ => exact held)
  simpa [asleep, Phase.batch] using holds

theorem invoke_all (callbacks : List Nat) (t : State) (phase : t.phase = .invoking callbacks) :
    ∃ u, Reachable (system.after t) u ∧ u.phase = .sleeping ∧ live u.timers = live t.timers ∧
      u.expired = t.expired := by
  induction callbacks generalizing t with
  | nil =>
      have taken : system.step t .sleep = some { t with phase := .sleeping } := by
        simp [system, step, phase]
      exact ⟨_, (Reachable.refl system t).onward taken, rfl, rfl, rfl⟩
  | cons callback rest ih =>
      have taken : system.step t .invoke =
          some { t with invoked := t.invoked ++ [callback], phase := .invoking rest } := by
        simp [system, step, phase]
      obtain ⟨u, reached, asleep, timers, expired⟩ :=
        ih { t with invoked := t.invoked ++ [callback], phase := .invoking rest } rfl
      exact ⟨u, ((Reachable.refl system t).onward taken).trans reached, asleep, timers, expired⟩

theorem finish_pass (t : State) :
    ∃ u, Reachable (system.after t) u ∧ u.phase = .sleeping ∧ live u.timers = live t.timers ∧
      u.expired = t.expired := by
  cases phase : t.phase with
  | sleeping => exact ⟨t, .refl _ t, phase, rfl, rfl⟩
  | collected callbacks =>
      have taken : system.step t .erase =
          some { t with timers := t.timers.filter Option.isSome, phase := .invoking callbacks } := by
        simp [system, step, phase]
      obtain ⟨u, reached, asleep, timers, expired⟩ := invoke_all callbacks
        { t with timers := t.timers.filter Option.isSome, phase := .invoking callbacks } rfl
      exact ⟨u, ((Reachable.refl system t).onward taken).trans reached, asleep,
        timers.trans (live_erase t.timers), expired⟩
  | invoking callbacks => exact invoke_all callbacks t phase

theorem not_silent_of_collected {t : State} {r : Nat} (collected : r ∈ t.phase.batch) :
    ¬ Silent t r := by
  intro silent
  obtain ⟨u, reached, asleep, _⟩ := finish_pass t
  have runs := collected_callback_runs collected reached asleep
  have same := silent u reached
  omega

theorem not_silent_of_reachable {t u : State} {r : Nat} (reached : Reachable (system.after t) u)
    (loud : ¬ Silent u r) : ¬ Silent t r := by
  intro silent
  apply loud
  intro v later
  rw [silent v (reached.trans later), silent u reached]

theorem not_silent_of_due {t : State} {timer : Infra.Timer Nat} (asleep : t.phase = .sleeping)
    (member : timer ∈ live t.timers) (due : timer.due t.isExpired = true) :
    ¬ Silent t timer.callback := by
  have taken : system.step t .collect = some t.collect := by simp [system, step, asleep]
  apply not_silent_of_reachable ((Reachable.refl system t).onward taken)
  apply not_silent_of_collected
  simp only [State.collect, Phase.batch, collect_batch, List.mem_filterMap]
  exact ⟨timer, member, by simp [due]⟩

theorem visit_early {expired : Nat → Bool} {timer : Infra.Timer Nat}
    (alive : expired timer.ctx = false) (early : ¬ timer.due expired = true) :
    (Infra.visit expired (some timer)).timer = some { timer with elapsed := timer.advanced } := by
  simp only [Infra.Timer.due, alive, Bool.not_false, Bool.true_and, decide_eq_true_eq] at early
  simp [Infra.visit, alive, early]

theorem not_silent_of_armed (passes : Nat) {t : State} {timer : Infra.Timer Nat}
    (member : timer ∈ live t.timers) (alive : timer.ctx ∉ t.expired)
    (near : timer.delay ≤ timer.elapsed + Infra.sleepTime * (passes + 1)) :
    ¬ Silent t timer.callback := by
  induction passes generalizing t timer with
  | zero =>
      obtain ⟨u, reached, asleep, timers, expired⟩ := finish_pass t
      apply not_silent_of_reachable reached
      apply not_silent_of_due asleep (timers ▸ member)
      simp only [Int.natCast_zero, Int.zero_add, Int.mul_one] at near
      simp [Infra.Timer.due, Infra.Timer.advanced, State.isExpired, expired, alive, near]
  | succ passes ih =>
      obtain ⟨u, reached, asleep, timers, expired⟩ := finish_pass t
      apply not_silent_of_reachable reached
      rw [← timers] at member
      by_cases due : timer.due u.isExpired = true
      · exact not_silent_of_due asleep member due
      · have taken : system.step u .collect = some u.collect := by simp [system, step, asleep]
        apply not_silent_of_reachable ((Reachable.refl system u).onward taken)
        have fresh : u.isExpired timer.ctx = false := by simp [State.isExpired, expired, alive]
        have moved : { timer with elapsed := timer.advanced } ∈ live u.collect.timers := by
          rw [live_collect, List.mem_filterMap]
          exact ⟨timer, member, visit_early fresh due⟩
        have nearer : timer.delay ≤ timer.advanced + Infra.sleepTime * (passes + 1) := by
          simp only [Infra.Timer.advanced, Infra.sleepTime] at near ⊢
          push_cast at near
          omega
        have loud := ih moved (by simpa [State.collect, expired] using alive) nearer
        exact loud

theorem silent_iff {t : State} {r : Nat} (registered : r < t.registrations.length) :
    Silent t r ↔ r ∉ t.phase.batch ∧
      ∀ timer ∈ live t.timers, timer.callback = r → timer.ctx ∈ t.expired := by
  constructor
  · intro silent
    refine ⟨fun collected => not_silent_of_collected collected silent, ?_⟩
    rintro timer member rfl
    by_contra alive
    refine not_silent_of_armed (timer.delay - timer.elapsed).natAbs member alive ?_ silent
    simp only [Infra.sleepTime]
    omega
  · intro retired
    exact silent_of_retired ⟨registered, retired.1, retired.2⟩

def State.found (s : State) (id : Int) : Option (Infra.Timer Nat) :=
  (live s.timers).find? fun timer => timer.id == id

theorem live_clear_eq (timers : List (Option (Infra.Timer Nat))) (id : Int) :
    live (clearTimeout timers id) = (live timers).eraseP fun timer => timer.id == id := by
  induction timers with
  | nil => rfl
  | cons entry rest ih =>
      cases entry with
      | none => simpa [clearTimeout, live, hasId] using ih
      | some timer =>
          by_cases same : timer.id = id
          · simp [clearTimeout, live, hasId, same]
          · simpa [clearTimeout, live, hasId, same] using ih

theorem mem_clear {s : State} (orderly : Orderly s) (timer : Infra.Timer Nat) (id : Int) :
    timer ∈ live (clearTimeout s.timers id) ↔
      timer ∈ live s.timers ∧ s.found id ≠ some timer := by
  rw [live_clear_eq]
  have distinct : (live s.timers).Nodup := by
    rw [List.nodup_iff_pairwise_ne]
    refine orderly.ordered.imp fun {first second} less same => ?_
    rw [same] at less
    exact Nat.lt_irrefl _ less
  simp only [State.found]
  generalize live s.timers = timers at distinct
  induction timers with
  | nil => simp
  | cons head rest ih =>
      rw [List.nodup_cons] at distinct
      by_cases same : head.id = id
      · have absent (member : timer ∈ rest) : head ≠ timer := by
          rintro rfl
          exact distinct.1 member
        simp only [List.eraseP_cons, List.find?_cons, same, beq_self_eq_true, List.mem_cons, ne_eq,
          Option.some.injEq]
        grind
      · have missed : (head.id == id) = false := by simpa using same
        have other : rest.find? (fun timer => timer.id == id) ≠ some head := by
          intro found
          exact distinct.1 (List.mem_of_find?_eq_some found)
        have later := ih distinct.2
        simp only [List.eraseP_cons, List.find?_cons, missed, List.mem_cons]
        grind

/-- A cleared timer stays silent if and only if its callback was not collected at the time of the
clear and the clear took that very timer off the list, if it was there to be collected again. -/
theorem cleared_timer_silent_iff {s t : State} {a : Action} {r : Nat}
    {registration : Registration} (reached : Reachable system s)
    (made : s.registrations[r]? = some registration) (aimed : clears a = some registration.id)
    (cleared : step s a = some t) :
    Silent t r ↔ r ∉ s.phase.batch ∧
      ∀ timer ∈ live s.timers, timer.callback = r → timer.ctx ∈ s.expired ∨
        s.found registration.id = some timer := by
  have orderly := orderly_reachable reached
  have registered := (List.getElem?_eq_some_iff.mp made).1
  have same : t = { s with timers := clearTimeout s.timers registration.id } := by
    cases a <;> simp only [clears, reduceCtorEq, Option.some.injEq] at aimed <;>
      cases cleared <;> rw [aimed]
  have inside : r < t.registrations.length := by
    rw [same]
    exact registered
  rw [silent_iff inside, same]
  simp only [mem_clear orderly]
  grind

theorem early_clear_silent :
    ∃ s t, Reachable system s ∧ step s (.clearTimeout 1) = some t ∧ Silent t 0 := by
  obtain ⟨history, s, run, checked⟩ := system.exists_run rfl
    [.setTimeout 0 60, .setInterval 0 0, .collect, .erase]
    (fun _ s => s.registrations[0]? == some ⟨0, 60, false, 1, 0⟩ && s.phase == .invoking [1] &&
      live s.timers == [⟨0, 0, 60, 30, false, 1⟩, ⟨1, 0, 0, 0, true, 2⟩]) (by decide +kernel)
  simp only [Bool.and_eq_true, beq_iff_eq] at checked
  obtain ⟨⟨made, phase⟩, timers⟩ := checked
  have silent := cleared_timer_silent_iff (a := .clearTimeout 1) run.reachable made rfl rfl
  refine ⟨s, _, run.reachable, rfl, silent.mpr ?_⟩
  simp [phase, Phase.batch, timers, State.found]

theorem cleared_callback_invoked :
    ∃ s t u, Reachable system s ∧ s.phase = .invoking [1] ∧ s.registrations[1]? =
      some ⟨0, 0, false, 2, 0⟩ ∧ step s (.clearTimeout 2) = some t ∧
        Reachable (system.after t) u ∧ t.invoked = [0] ∧ u.invoked = [0, 1] := by
  obtain ⟨history, s, run, checked⟩ := system.exists_run rfl
    [.setTimeout 0 0, .setTimeout 0 0, .collect, .erase, .invoke]
    (fun _ s => s.registrations[1]? == some ⟨0, 0, false, 2, 0⟩ && s.phase == .invoking [1] &&
      s.invoked == [0]) (by decide +kernel)
  simp only [Bool.and_eq_true, beq_iff_eq] at checked
  obtain ⟨⟨made, phase⟩, invoked⟩ := checked
  let t := { s with timers := clearTimeout s.timers 2 }
  have taken : system.step t .invoke =
      some { t with invoked := t.invoked ++ [1], phase := .invoking [] } := by
    simp [system, step, t, phase]
  exact ⟨s, t, _, run.reachable, phase, made, rfl, (Reachable.refl system t).onward taken, invoked,
    by simp [t, invoked]⟩

end BreezeJs.TimerThread
