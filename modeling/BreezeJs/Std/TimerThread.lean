import Mathlib.Data.Int.DivMod
import Mathlib.Data.List.Pairwise
import BreezeJs.Library.Transition
import BreezeJs.Std.Timer

set_option autoImplicit false

namespace BreezeJs.TimerThread

open Transition

structure Registration where
  ctx : Nat
  delay : Int
  isRepeat : Bool
  id : Int
  tick : Nat
deriving DecidableEq, Repr

inductive Phase where
  | sleeping
  | collected (callbacks : List Nat)
  | invoking (callbacks : List Nat)
deriving DecidableEq, Repr

structure State where
  timers : List (Option (Infra.Timer Nat))
  expired : List Nat
  phase : Phase
  registrations : List Registration
  ticks : Nat
  collections : List (Nat × Nat)
  invoked : List Nat
deriving DecidableEq, Repr

inductive Action where
  | setTimeout (ctx : Nat) (delay : Int)
  | setInterval (ctx : Nat) (delay : Int)
  | clearTimeout (id : Int)
  | clearInterval (id : Int)
  -- The last reference to a context goes.
  | expire (ctx : Nat)
  | collect
  | erase
  | invoke
  | sleep
deriving DecidableEq, Repr

def intRange : Nat := 4294967296

-- The conversion of a `size_t` to `int`.
def toInt (n : Nat) : Int := Int.bmod n intRange

def State.newId (s : State) : Int :=
  toInt (s.timers.length + 1)

def State.register (s : State) (ctx : Nat) (delay : Int) (isRepeat : Bool) : State :=
  { s with
    timers := s.timers ++ [some {
      callback := s.registrations.length
      ctx := ctx
      delay := delay
      elapsed := 0
      isRepeat := isRepeat
      id := s.newId }]
    registrations := s.registrations ++ [{
      ctx := ctx
      delay := delay
      isRepeat := isRepeat
      id := s.newId
      tick := s.ticks }] }

def hasId (id : Int) (timer : Option (Infra.Timer Nat)) : Bool :=
  timer.any fun timer => timer.id == id

def clearTimeout (timers : List (Option (Infra.Timer Nat))) (id : Int) :
    List (Option (Infra.Timer Nat)) :=
  timers.eraseP (hasId id)

def State.isExpired (s : State) (ctx : Nat) : Bool :=
  s.expired.contains ctx

def State.collect (s : State) : State :=
  let callbacks := s.timers.filterMap fun timer => (Infra.visit s.isExpired timer).copied
  { s with
    timers := s.timers.map fun timer => (Infra.visit s.isExpired timer).timer
    phase := .collected callbacks
    ticks := s.ticks + 1
    collections := s.collections ++ callbacks.map fun callback => (s.ticks + 1, callback) }

def step (s : State) : Action → Option State
  | .setTimeout ctx delay => some (s.register ctx delay false)
  | .setInterval ctx delay => some (s.register ctx delay true)
  | .clearTimeout id | .clearInterval id =>
      some { s with timers := clearTimeout s.timers id }
  | .expire ctx => some { s with expired := ctx :: s.expired }
  | .collect => if s.phase = .sleeping then some s.collect else none
  | .erase =>
      match s.phase with
      | .collected callbacks =>
          some { s with timers := s.timers.filter Option.isSome, phase := .invoking callbacks }
      | _ => none
  | .invoke =>
      match s.phase with
      | .invoking (callback :: rest) =>
          some { s with invoked := s.invoked ++ [callback], phase := .invoking rest }
      | _ => none
  | .sleep => if s.phase = .invoking [] then some { s with phase := .sleeping } else none

def initial : State :=
  { timers := []
    expired := []
    phase := .sleeping
    registrations := []
    ticks := 0
    collections := []
    invoked := [] }

def system : System State Action :=
  { init := fun s => s = initial
    step := step }

theorem collect_erase (s : State) :
    (s.collect.timers.filter Option.isSome,
      s.timers.filterMap fun timer => (Infra.visit s.isExpired timer).copied) =
        Infra.tick s.isExpired s.timers := rfl

def registers : Action → Option (Nat × Int × Bool)
  | .setTimeout ctx delay => some (ctx, delay, false)
  | .setInterval ctx delay => some (ctx, delay, true)
  | _ => none

def clears : Action → Option Int
  | .clearTimeout id | .clearInterval id => some id
  | _ => none

inductive Step (s : State) : Action → State → Prop
  | register (a : Action) (ctx : Nat) (delay : Int) (isRepeat : Bool) :
      registers a = some (ctx, delay, isRepeat) → Step s a (s.register ctx delay isRepeat)
  | clear (a : Action) (id : Int) : clears a = some id →
      Step s a { s with timers := clearTimeout s.timers id }
  | expire (ctx : Nat) : Step s (.expire ctx) { s with expired := ctx :: s.expired }
  | collect : s.phase = .sleeping → Step s .collect s.collect
  | erase (callbacks : List Nat) : s.phase = .collected callbacks →
      Step s .erase
        { s with timers := s.timers.filter Option.isSome, phase := .invoking callbacks }
  | invoke (callback : Nat) (rest : List Nat) : s.phase = .invoking (callback :: rest) →
      Step s .invoke { s with invoked := s.invoked ++ [callback], phase := .invoking rest }
  | sleep : s.phase = .invoking [] → Step s .sleep { s with phase := .sleeping }

theorem step_some {s t : State} {a : Action} (taken : step s a = some t) : Step s a t := by
  cases a with
  | setTimeout ctx delay => cases taken; exact .register _ ctx delay false rfl
  | setInterval ctx delay => cases taken; exact .register _ ctx delay true rfl
  | clearTimeout id => cases taken; exact .clear _ id rfl
  | clearInterval id => cases taken; exact .clear _ id rfl
  | expire ctx => cases taken; exact .expire ctx
  | collect =>
      simp only [step] at taken
      split_ifs at taken with phase
      cases taken
      exact .collect phase
  | erase =>
      simp only [step] at taken
      split at taken
      · next callbacks phase => cases taken; exact .erase callbacks phase
      · cases taken
  | invoke =>
      simp only [step] at taken
      split at taken
      · next callback rest phase => cases taken; exact .invoke callback rest phase
      · cases taken
  | sleep =>
      simp only [step] at taken
      split_ifs at taken with phase
      cases taken
      exact .sleep phase

def live (timers : List (Option (Infra.Timer Nat))) : List (Infra.Timer Nat) :=
  timers.filterMap id

def Phase.batch : Phase → List Nat
  | .sleeping => []
  | .collected callbacks | .invoking callbacks => callbacks

def Recorded (s : State) (timer : Infra.Timer Nat) : Prop :=
  ∃ registration, s.registrations[timer.callback]? = some registration ∧
    timer.ctx = registration.ctx ∧ timer.delay = registration.delay ∧
    timer.isRepeat = registration.isRepeat ∧ timer.id = registration.id

structure Orderly (s : State) : Prop where
  recorded : ∀ timer ∈ live s.timers, Recorded s timer
  ordered : (live s.timers).Pairwise fun first second => first.callback < second.callback
  collected : s.collections.map Prod.snd = s.invoked ++ s.phase.batch
  stamped : ∀ registration ∈ s.registrations, registration.tick ≤ s.ticks
  inTurn : s.registrations.Pairwise fun first second => first.tick ≤ second.tick
  past : ∀ entry ∈ s.collections, entry.1 ≤ s.ticks
  issued : ∀ entry ∈ s.collections, entry.2 < s.registrations.length
  logged : s.collections.Pairwise fun first second =>
    first.1 < second.1 ∨ (first.1 = second.1 ∧ first.2 < second.2)

@[simp] theorem live_append (timers : List (Option (Infra.Timer Nat))) (timer : Infra.Timer Nat) :
    live (timers ++ [some timer]) = live timers ++ [timer] := by
  simp [live]

theorem mem_live {timers : List (Option (Infra.Timer Nat))} {timer : Infra.Timer Nat} :
    timer ∈ live timers ↔ some timer ∈ timers := by
  simp [live]

theorem live_clear (timers : List (Option (Infra.Timer Nat))) (id : Int) :
    (live (clearTimeout timers id)).Sublist (live timers) :=
  List.eraseP_sublist.filterMap _

@[simp] theorem live_erase (timers : List (Option (Infra.Timer Nat))) :
    live (timers.filter Option.isSome) = live timers := by
  simp only [live, List.filterMap_filter]
  congr 1
  funext timer
  cases timer <;> rfl

theorem live_collect (s : State) :
    live s.collect.timers =
      (live s.timers).filterMap fun timer => (Infra.visit s.isExpired (some timer)).timer := by
  simp only [live, State.collect, List.filterMap_map, List.filterMap_filterMap]
  congr 1
  funext timer
  cases timer <;> rfl

theorem collect_batch (s : State) :
    s.timers.filterMap (fun timer => (Infra.visit s.isExpired timer).copied) =
      (live s.timers).filterMap fun timer =>
        if timer.due s.isExpired then some timer.callback else none := by
  simp only [live, List.filterMap_filterMap]
  congr 1
  funext timer
  cases timer with
  | none => rfl
  | some timer => exact Infra.visit_copied s.isExpired timer

theorem visit_keeps {expired : Nat → Bool} {timer later : Infra.Timer Nat}
    (visited : (Infra.visit expired (some timer)).timer = some later) :
    later = { timer with elapsed := later.elapsed } := by
  simp only [Infra.visit] at visited
  split_ifs at visited <;> cases visited <;> rfl

section Preservation

variable {s t : State} {a : Action}

theorem recorded_register {timer : Infra.Timer Nat} (recorded : Recorded s timer) (ctx : Nat)
    (delay : Int) (isRepeat : Bool) : Recorded (s.register ctx delay isRepeat) timer := by
  obtain ⟨registration, here, agrees⟩ := recorded
  have inside := (List.getElem?_eq_some_iff.mp here).1
  exact ⟨registration, by simpa [State.register, List.getElem?_append_left inside] using here,
    agrees⟩

theorem registered_cases {ctx : Nat} {delay : Int} {isRepeat : Bool} {r : Nat}
    {registration : Registration}
    (made : (s.register ctx delay isRepeat).registrations[r]? = some registration) :
    (r < s.registrations.length ∧ s.registrations[r]? = some registration) ∨
      (r = s.registrations.length ∧
        registration = ⟨ctx, delay, isRepeat, s.newId, s.ticks⟩) := by
  simp only [State.register, List.getElem?_append] at made
  split_ifs at made with old
  · exact .inl ⟨old, made⟩
  · have last : r = s.registrations.length := by
      have inside := (List.getElem?_eq_some_iff.mp made).1
      simp only [List.length_singleton] at inside
      omega
    subst last
    simp only [Nat.sub_self, List.getElem?_cons_zero, Option.some.injEq] at made
    exact .inr ⟨rfl, made.symm⟩

theorem callback_registered {timer : Infra.Timer Nat} (recorded : Recorded s timer) :
    timer.callback < s.registrations.length := by
  obtain ⟨registration, here, _⟩ := recorded
  exact (List.getElem?_eq_some_iff.mp here).1

theorem recorded_preserved (taken : Step s a t) (orderly : Orderly s) :
    ∀ timer ∈ live t.timers, Recorded t timer := by
  intro timer member
  cases taken with
  | register a ctx delay isRepeat _ =>
      simp only [State.register, live_append, List.mem_append, List.mem_singleton] at member
      cases member with
      | inl old => exact recorded_register (orderly.recorded timer old) ctx delay isRepeat
      | inr new =>
          subst new
          have made : (s.register ctx delay isRepeat).registrations[s.registrations.length]? =
              some ⟨ctx, delay, isRepeat, s.newId, s.ticks⟩ := by
            simp [State.register]
          exact ⟨_, made, rfl, rfl, rfl, rfl⟩
  | clear a id _ => exact orderly.recorded timer ((live_clear s.timers id).subset member)
  | collect _ =>
      rw [live_collect, List.mem_filterMap] at member
      obtain ⟨before, known, visited⟩ := member
      rw [visit_keeps visited]
      exact orderly.recorded before known
  | erase callbacks _ =>
      rw [live_erase] at member
      exact orderly.recorded timer member
  | _ => exact orderly.recorded timer member

theorem ordered_preserved (taken : Step s a t) (orderly : Orderly s) :
    (live t.timers).Pairwise fun first second => first.callback < second.callback := by
  cases taken with
  | register a ctx delay isRepeat _ =>
      simp only [State.register, live_append, List.pairwise_append, List.pairwise_singleton,
        List.mem_singleton, forall_eq, true_and]
      refine ⟨orderly.ordered, fun timer member => ?_⟩
      exact callback_registered (orderly.recorded timer member)
  | clear a id _ => exact orderly.ordered.sublist (live_clear s.timers id)
  | collect _ =>
      rw [live_collect, List.pairwise_filterMap]
      refine orderly.ordered.imp fun {first second} less later visited other seen => ?_
      rw [visit_keeps visited, visit_keeps seen]
      exact less
  | erase callbacks _ =>
      rw [live_erase]
      exact orderly.ordered
  | _ => exact orderly.ordered

theorem collected_preserved (taken : Step s a t) (orderly : Orderly s) :
    t.collections.map Prod.snd = t.invoked ++ t.phase.batch := by
  have collected := orderly.collected
  cases taken with
  | collect phase =>
      simp only [phase, Phase.batch, List.append_nil] at collected
      simp [State.collect, Phase.batch, collected, Function.comp_def]
  | erase callbacks phase => simpa [phase, Phase.batch] using collected
  | invoke callback rest phase => simpa [phase, Phase.batch] using collected
  | sleep phase => simpa [phase, Phase.batch] using collected
  | _ => exact collected

theorem stamped_preserved (taken : Step s a t) (orderly : Orderly s) :
    ∀ registration ∈ t.registrations, registration.tick ≤ t.ticks := by
  intro registration member
  cases taken with
  | register a ctx delay isRepeat _ =>
      simp only [State.register, List.mem_append, List.mem_singleton] at member ⊢
      rcases member with old | rfl
      · exact orderly.stamped registration old
      · exact Nat.le_refl _
  | collect _ => exact (orderly.stamped registration member).trans (Nat.le_succ _)
  | _ => exact orderly.stamped registration member

theorem inTurn_preserved (taken : Step s a t) (orderly : Orderly s) :
    t.registrations.Pairwise fun first second => first.tick ≤ second.tick := by
  cases taken with
  | register a ctx delay isRepeat _ =>
      simp only [State.register, List.pairwise_append, List.pairwise_singleton,
        List.mem_singleton, forall_eq, true_and]
      exact ⟨orderly.inTurn, orderly.stamped⟩
  | _ => exact orderly.inTurn

theorem past_preserved (taken : Step s a t) (orderly : Orderly s) :
    ∀ entry ∈ t.collections, entry.1 ≤ t.ticks := by
  intro entry member
  cases taken with
  | collect _ =>
      simp only [State.collect, List.mem_append, List.mem_map] at member ⊢
      rcases member with old | ⟨callback, _, rfl⟩
      · exact (orderly.past entry old).trans (Nat.le_succ _)
      · exact Nat.le_refl _
  | _ => exact orderly.past entry member

theorem issued_preserved (taken : Step s a t) (orderly : Orderly s) :
    ∀ entry ∈ t.collections, entry.2 < t.registrations.length := by
  intro entry member
  cases taken with
  | register a ctx delay isRepeat _ =>
      have before := orderly.issued entry member
      simp only [State.register, List.length_append]
      omega
  | collect _ =>
      simp only [State.collect, collect_batch, List.mem_append, List.mem_map,
        List.mem_filterMap] at member ⊢
      rcases member with old | ⟨callback, ⟨timer, known, due⟩, rfl⟩
      · exact orderly.issued entry old
      · split_ifs at due
        cases due
        exact callback_registered (orderly.recorded timer known)
  | _ => exact orderly.issued entry member

theorem logged_preserved (taken : Step s a t) (orderly : Orderly s) :
    t.collections.Pairwise fun first second =>
      first.1 < second.1 ∨ (first.1 = second.1 ∧ first.2 < second.2) := by
  cases taken with
  | collect _ =>
      simp only [State.collect, List.pairwise_append, List.pairwise_map, List.mem_map,
        Nat.lt_irrefl, true_and, false_or]
      refine ⟨orderly.logged, ?_, ?_⟩
      · rw [collect_batch, List.pairwise_filterMap]
        refine orderly.ordered.imp fun {first second} less callback due other late => ?_
        split_ifs at due late
        cases due
        cases late
        exact less
      · rintro entry old _ ⟨callback, _, rfl⟩
        exact .inl (Nat.lt_succ_of_le (orderly.past entry old))
  | _ => exact orderly.logged

theorem orderly_preserved (taken : Step s a t) (orderly : Orderly s) : Orderly t where
  recorded := recorded_preserved taken orderly
  ordered := ordered_preserved taken orderly
  collected := collected_preserved taken orderly
  stamped := stamped_preserved taken orderly
  inTurn := inTurn_preserved taken orderly
  past := past_preserved taken orderly
  issued := issued_preserved taken orderly
  logged := logged_preserved taken orderly

end Preservation

theorem orderly_initial : Orderly initial := by
  constructor <;> simp [initial, live, Phase.batch]

theorem orderly_reachable {s : State} (reached : Reachable system s) : Orderly s := by
  apply reached.invariant Orderly
  · rintro _ rfl
    exact orderly_initial
  · intro s a t orderly taken
    exact orderly_preserved (step_some taken) orderly

end BreezeJs.TimerThread
