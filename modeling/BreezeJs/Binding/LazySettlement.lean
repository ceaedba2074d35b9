import BreezeJs.Library.Transition
import Mathlib.Tactic.SplitIfs

set_option autoImplicit false

namespace BreezeJs.LazySettlement

open Transition

-- `JS_EXCEPTION` passes for a value.
inductive JSValue where
  | exception
  | undefined
  | string (text : String)
  | primitive (n : Nat)
  | object (n : Nat)
  | error (message : String)
deriving DecidableEq, Repr

def JSValue.isObject : JSValue → Bool
  | .object _ | .error _ => true
  | _ => false

def promise : JSValue :=
  .object 0

-- What reading the property `then` of an object gives.
inductive Then where
  | throws (error : JSValue)
  | notCallable
  | callable
deriving DecidableEq, Repr

inductive Settlement where
  | fulfilled (value : JSValue)
  | rejected (reason : JSValue)
deriving DecidableEq, Repr

def settlement (isReject : Bool) (value : JSValue) : Settlement :=
  if isReject then .rejected value else .fulfilled value

inductive Result where
  | void
  | value
  | exception (what : String)
  | otherException
deriving DecidableEq, Repr

inductive Phase where
  | running
  | posted (result : Result)
  | dropped
  | finished
deriving DecidableEq, Repr

structure State where
  promiseState : Option Settlement
  settlements : List Settlement
  alreadyResolved : List Bool
  thenableJobs : List JSValue
  phase : Phase
  wrapping : Bool
  resolveRefs : Int
  rejectRefs : Int
deriving DecidableEq, Repr

namespace State

def fulfillOrReject (s : State) (value : JSValue) (isReject : Bool) : State :=
  match s.promiseState with
  | some _ => s
  | none =>
      { s with
        promiseState := some (settlement isReject value)
        settlements := s.settlements ++ [settlement isReject value] }

def markResolved (s : State) (pair : Nat) : State :=
  { s with alreadyResolved := s.alreadyResolved.set pair true }

def callResolver (s : State) (pair : Nat) (isReject : Bool) (resolution : JSValue)
    (thenRead : Then) : State :=
  if s.alreadyResolved.getD pair true then s
  else
    let s := s.markResolved pair
    if isReject || !resolution.isObject then s.fulfillOrReject resolution isReject
    else if resolution = promise then s.fulfillOrReject (.error "promise self resolution") true
    else
      match thenRead with
      | .throws error => s.fulfillOrReject error true
      | .notCallable => s.fulfillOrReject resolution isReject
      | .callable => { s with thenableJobs := s.thenableJobs ++ [resolution] }

def freeResolvers (s : State) : State :=
  { s with
    resolveRefs := s.resolveRefs - 1
    rejectRefs := s.rejectRefs - 1 }

def settle (s : State) (result : Result) (converted : JSValue) (thenRead : Then) : State :=
  match result with
  | .exception what => s.callResolver 0 true (.string what) thenRead
  | .otherException => s.callResolver 0 true (.string "Unknown error") thenRead
  | .void => s.callResolver 0 false .undefined thenRead
  | .value => s.callResolver 0 false converted thenRead

end State

-- `js_traits<std::vector<uint8_t>>::wrap`; the engine's buffers end at `INT32_MAX` bytes.
def wrapBytes (size buffer : Nat) : JSValue :=
  if 2147483647 < size then .exception else .object buffer

inductive Action where
  | returnPromise
  | complete (result : Result) (contextAlive : Bool)
  | runTask (converted : JSValue) (thenRead : Then)
  | runThenableJob
  -- The functions of the first pair are out of reach of scripts.
  | callResolver (pair : Nat) (isReject : Bool) (resolution : JSValue) (thenRead : Then)
deriving DecidableEq, Repr

def step (s : State) : Action → Option State
  | .returnPromise => if s.wrapping then some { s.freeResolvers with wrapping := false } else none
  | .complete result contextAlive =>
      if s.phase = .running then
        some { s with phase := if contextAlive then .posted result else .dropped }
      else none
  | .runTask converted thenRead =>
      match s.phase with
      | .posted result =>
          -- `wrap` occupies the thread that runs tasks.
          if s.wrapping then none
          else some { (s.settle result converted thenRead).freeResolvers with phase := .finished }
      | _ => none
  | .runThenableJob =>
      match s.thenableJobs with
      | [] => none
      | _ :: rest =>
          some { s with
            thenableJobs := rest
            alreadyResolved := s.alreadyResolved ++ [false] }
  | .callResolver pair isReject resolution thenRead =>
      if 0 < pair then some (s.callResolver pair isReject resolution thenRead) else none

def initial : State where
  promiseState := none
  settlements := []
  alreadyResolved := [false]
  thenableJobs := []
  phase := .running
  wrapping := true
  resolveRefs := 2
  rejectRefs := 2

def system : System State Action where
  init := fun s => s = initial
  step := step

def succeeded (result : Result) (converted : JSValue) : Bool :=
  match result with
  | .void => true
  | .value => converted != .exception
  | .exception _ | .otherException => false

def resolution (result : Result) (converted : JSValue) : JSValue :=
  match result with
  | .value => converted
  | _ => .undefined

structure Faithful (s t : State) (result : Result) (converted : JSValue) : Prop where
  settled : ∃ settlement, s.settlements = [] ∧ t.settlements = [settlement] ∧
    t.promiseState = some settlement ∧
    (settlement = .fulfilled (resolution result converted) ↔ succeeded result converted = true) ∧
    (succeeded result converted = false → ∃ reason, settlement = .rejected reason)
  released : t.resolveRefs = s.resolveRefs - 1 ∧ t.rejectRefs = s.rejectRefs - 1

-- The conversion gives no `JS_EXCEPTION` and nothing that promises take for a thenable.
def plain (converted : JSValue) (thenRead : Then) : Bool :=
  converted != .exception &&
    (!converted.isObject || (converted != promise && thenRead == .notCallable))

def FaithfulStep (s : State) : Action → Prop
  | .runTask converted thenRead =>
      ∀ result t, s.phase = .posted result → step s (.runTask converted thenRead) = some t →
        Faithful s t result converted
  | _ => True

def plainStep (s : State) : Action → Bool
  | .runTask converted thenRead => s.phase != .posted .value || plain converted thenRead
  | _ => true

structure Sound (s : State) : Prop where
  once : s.settlements = s.promiseState.toList
  fresh : s.phase ≠ .finished →
    s.alreadyResolved = [false] ∧ s.thenableJobs = [] ∧ s.promiseState = none
  resolve : s.resolveRefs = (if s.wrapping then 1 else 0) + if s.phase = .finished then 0 else 1
  reject : s.rejectRefs = (if s.wrapping then 1 else 0) + if s.phase = .finished then 0 else 1
  returned : s.phase = .finished → s.wrapping = false

section Resolver

variable {s : State}

theorem callResolver_cases (s : State) (pair : Nat) (isReject : Bool) (resolution : JSValue)
    (thenRead : Then) :
    s.callResolver pair isReject resolution thenRead = s ∨
    (∃ value rejects, s.callResolver pair isReject resolution thenRead =
      (s.markResolved pair).fulfillOrReject value rejects) ∨
    s.callResolver pair isReject resolution thenRead =
      { s.markResolved pair with thenableJobs := s.thenableJobs ++ [resolution] } := by
  simp only [State.callResolver]
  split_ifs
  · exact .inl rfl
  · exact .inr (.inl ⟨_, _, rfl⟩)
  · exact .inr (.inl ⟨_, _, rfl⟩)
  · cases thenRead with
    | throws error => exact .inr (.inl ⟨error, true, rfl⟩)
    | notCallable => exact .inr (.inl ⟨resolution, isReject, rfl⟩)
    | callable => exact .inr (.inr rfl)

theorem once_fulfillOrReject (once : s.settlements = s.promiseState.toList) (value : JSValue)
    (isReject : Bool) :
    (s.fulfillOrReject value isReject).settlements =
      (s.fulfillOrReject value isReject).promiseState.toList := by
  cases pending : s.promiseState with
  | some settled => simpa [State.fulfillOrReject, pending] using once
  | none => simpa [State.fulfillOrReject, pending] using once

theorem once_callResolver (once : s.settlements = s.promiseState.toList) (pair : Nat)
    (isReject : Bool) (resolution : JSValue) (thenRead : Then) :
    (s.callResolver pair isReject resolution thenRead).settlements =
      (s.callResolver pair isReject resolution thenRead).promiseState.toList := by
  rcases callResolver_cases s pair isReject resolution thenRead with
    same | ⟨value, rejects, settled⟩ | adopted
  · rw [same]
    exact once
  · rw [settled]
    exact once_fulfillOrReject (s := s.markResolved pair) once value rejects
  · rw [adopted]
    exact once

structure Untouched (s t : State) : Prop where
  phase : t.phase = s.phase
  wrapping : t.wrapping = s.wrapping
  resolve : t.resolveRefs = s.resolveRefs
  reject : t.rejectRefs = s.rejectRefs

theorem untouched_fulfillOrReject (s : State) (value : JSValue) (isReject : Bool) :
    Untouched s (s.fulfillOrReject value isReject) := by
  cases pending : s.promiseState <;> simp only [State.fulfillOrReject, pending] <;>
    exact ⟨rfl, rfl, rfl, rfl⟩

theorem untouched_callResolver (s : State) (pair : Nat) (isReject : Bool) (resolution : JSValue)
    (thenRead : Then) : Untouched s (s.callResolver pair isReject resolution thenRead) := by
  rcases callResolver_cases s pair isReject resolution thenRead with
    same | ⟨value, rejects, settled⟩ | adopted
  · rw [same]
    exact ⟨rfl, rfl, rfl, rfl⟩
  · rw [settled]
    have kept := untouched_fulfillOrReject (s.markResolved pair) value rejects
    exact ⟨kept.phase, kept.wrapping, kept.resolve, kept.reject⟩
  · rw [adopted]
    exact ⟨rfl, rfl, rfl, rfl⟩

end Resolver

section Runs

variable {s t : State} {a : Action}

theorem untouched_settle (s : State) (result : Result) (converted : JSValue) (thenRead : Then) :
    Untouched s (s.settle result converted thenRead) := by
  cases result <;> exact untouched_callResolver s _ _ _ _

theorem once_settle (once : s.settlements = s.promiseState.toList) (result : Result)
    (converted : JSValue) (thenRead : Then) :
    (s.settle result converted thenRead).settlements =
      (s.settle result converted thenRead).promiseState.toList := by
  cases result <;> exact once_callResolver once _ _ _ _

theorem sound_returnPromise (sound : Sound s) (wrapping : s.wrapping = true) :
    Sound { s.freeResolvers with wrapping := false } := by
  have resolve := sound.resolve
  have reject := sound.reject
  have running : s.phase ≠ .finished := by
    intro finished
    rw [sound.returned finished] at wrapping
    cases wrapping
  simp only [wrapping, running, if_true, if_false] at resolve reject
  constructor
  · exact sound.once
  · exact sound.fresh
  · simp [State.freeResolvers, resolve, running]
  · simp [State.freeResolvers, reject, running]
  · exact fun _ => rfl

theorem sound_complete (sound : Sound s) (running : s.phase = .running) {later : Phase}
    (unfinished : later ≠ .finished) : Sound { s with phase := later } := by
  have resolve := sound.resolve
  have reject := sound.reject
  have before : s.phase ≠ .finished := by simp [running]
  simp only [before, if_false] at resolve reject
  constructor
  · exact sound.once
  · exact fun _ => sound.fresh before
  · simp only [unfinished, if_false, resolve]
  · simp only [unfinished, if_false, reject]
  · exact fun finished => absurd finished unfinished

theorem sound_runTask (sound : Sound s) {result : Result} (posted : s.phase = .posted result)
    (returned : s.wrapping = false) (converted : JSValue) (thenRead : Then) :
    Sound { (s.settle result converted thenRead).freeResolvers with phase := .finished } := by
  have kept := untouched_settle s result converted thenRead
  have resolve := sound.resolve
  have reject := sound.reject
  simp only [posted, returned] at resolve reject
  constructor
  · exact once_settle sound.once result converted thenRead
  · exact fun running => absurd rfl running
  · simp [State.freeResolvers, kept.resolve, kept.wrapping, resolve, returned]
  · simp [State.freeResolvers, kept.reject, kept.wrapping, reject, returned]
  · exact fun _ => by simp [State.freeResolvers, kept.wrapping, returned]

theorem sound_runThenableJob (sound : Sound s) {thenable : JSValue} {rest : List JSValue}
    (jobs : s.thenableJobs = thenable :: rest) :
    Sound { s with thenableJobs := rest, alreadyResolved := s.alreadyResolved ++ [false] } := by
  refine ⟨sound.once, fun running => ?_, sound.resolve, sound.reject, sound.returned⟩
  rw [(sound.fresh running).2.1] at jobs
  cases jobs

theorem callResolver_unknown {pair : Nat} (inner : 0 < pair)
    (resolved : s.alreadyResolved = [false]) (isReject : Bool) (resolution : JSValue)
    (thenRead : Then) : s.callResolver pair isReject resolution thenRead = s := by
  cases pair with
  | zero => cases inner
  | succ n => simp [State.callResolver, resolved]

theorem sound_callResolver (sound : Sound s) {pair : Nat} (inner : 0 < pair) (isReject : Bool)
    (resolution : JSValue) (thenRead : Then) :
    Sound (s.callResolver pair isReject resolution thenRead) := by
  have kept := untouched_callResolver s pair isReject resolution thenRead
  refine ⟨once_callResolver sound.once _ _ _ _, fun running => ?_, ?_, ?_, ?_⟩
  · rw [kept.phase] at running
    have fresh := sound.fresh running
    rw [callResolver_unknown inner fresh.1]
    exact fresh
  · rw [kept.resolve, kept.wrapping, kept.phase]
    exact sound.resolve
  · rw [kept.reject, kept.wrapping, kept.phase]
    exact sound.reject
  · rw [kept.phase, kept.wrapping]
    exact sound.returned

theorem sound_step (taken : step s a = some t) (sound : Sound s) : Sound t := by
  cases a with
  | returnPromise =>
      simp only [step] at taken
      split_ifs at taken with wrapping
      cases taken
      exact sound_returnPromise sound wrapping
  | complete result contextAlive =>
      simp only [step] at taken
      by_cases running : s.phase = .running
      · rw [if_pos running] at taken
        cases taken
        refine sound_complete sound running ?_
        cases contextAlive <;> simp
      · rw [if_neg running] at taken
        cases taken
  | runTask converted thenRead =>
      simp only [step] at taken
      split at taken
      · next result posted =>
          split_ifs at taken with wrapping
          cases taken
          exact sound_runTask sound posted (Bool.eq_false_iff.mpr wrapping) converted thenRead
      · cases taken
  | runThenableJob =>
      simp only [step] at taken
      split at taken
      · cases taken
      · next thenable rest jobs =>
          cases taken
          exact sound_runThenableJob sound jobs
  | callResolver pair isReject resolution thenRead =>
      simp only [step] at taken
      split_ifs at taken with inner
      cases taken
      exact sound_callResolver sound inner isReject resolution thenRead

theorem sound_initial : Sound initial := by
  constructor <;> simp [initial]

def firstSettlement (isReject : Bool) (resolution : JSValue) (thenRead : Then) :
    Option Settlement :=
  if isReject || !resolution.isObject then some (settlement isReject resolution)
  else if resolution = promise then some (.rejected (.error "promise self resolution"))
  else
    match thenRead with
    | .throws error => some (.rejected error)
    | .notCallable => some (settlement isReject resolution)
    | .callable => none

theorem callResolver_first (resolved : s.alreadyResolved = [false]) (pending : s.promiseState = none)
    (isReject : Bool) (resolution : JSValue) (thenRead : Then) :
    (s.callResolver 0 isReject resolution thenRead).promiseState =
      firstSettlement isReject resolution thenRead := by
  have called (value : JSValue) (isReject : Bool) :
      ((s.markResolved 0).fulfillOrReject value isReject).promiseState =
        some (settlement isReject value) := by
    simp [State.fulfillOrReject, State.markResolved, pending]
  simp only [State.callResolver, resolved, List.getD_cons_zero, Bool.false_eq_true, if_false,
    firstSettlement]
  split_ifs
  · exact called _ _
  · exact called _ _
  · cases thenRead with
    | callable => exact pending
    | _ => exact called _ _

def settlementOf (result : Result) (converted : JSValue) (thenRead : Then) : Option Settlement :=
  match result with
  | .exception what => some (.rejected (.string what))
  | .otherException => some (.rejected (.string "Unknown error"))
  | .void => some (.fulfilled .undefined)
  | .value => firstSettlement false converted thenRead

theorem settle_first (resolved : s.alreadyResolved = [false]) (pending : s.promiseState = none)
    (result : Result) (converted : JSValue) (thenRead : Then) :
    (s.settle result converted thenRead).promiseState =
      settlementOf result converted thenRead := by
  cases result <;> exact callResolver_first resolved pending _ _ thenRead

theorem settlementOf_faithful (result : Result) (converted : JSValue) (thenRead : Then) :
    (∃ settlement, settlementOf result converted thenRead = some settlement ∧
      (settlement = .fulfilled (resolution result converted) ↔ succeeded result converted = true) ∧
      (succeeded result converted = false → ∃ reason, settlement = .rejected reason)) ↔
    result ≠ .value ∨ plain converted thenRead = true := by
  cases result with
  | value =>
      by_cases object : converted.isObject = true
      · have converts : converted ≠ .exception := by
          rintro rfl
          cases object
        by_cases own : converted = promise
        · simp [settlementOf, firstSettlement, own, resolution, succeeded, plain, promise,
            JSValue.isObject]
        · cases thenRead <;>
            simp [settlementOf, firstSettlement, object, own, resolution, succeeded, plain,
              settlement, converts]
      · simp [settlementOf, firstSettlement, object, resolution, succeeded, plain, settlement]
  | _ => simp [settlementOf, resolution, succeeded]

theorem faithful_iff {result : Result} {converted : JSValue} {thenRead : Then} (sound : Sound s)
    (posted : s.phase = .posted result)
    (taken : step s (.runTask converted thenRead) = some t) :
    Faithful s t result converted ↔ result ≠ .value ∨ plain converted thenRead = true := by
  have fresh := sound.fresh (by simp [posted])
  have before : s.settlements = [] := by simp [sound.once, fresh.2.2]
  have after := settle_first fresh.1 fresh.2.2 result converted thenRead
  have once := once_settle sound.once result converted thenRead
  have kept := untouched_settle s result converted thenRead
  simp only [step, posted] at taken
  split_ifs at taken with wrapping
  cases taken
  rw [← settlementOf_faithful, ← after]
  constructor
  · rintro ⟨⟨settled, _, _, state, agrees⟩, _⟩
    exact ⟨settled, state, agrees⟩
  · rintro ⟨settled, state, agrees⟩
    refine ⟨⟨settled, before, ?_, state, agrees⟩, ?_⟩
    · simp [State.freeResolvers, once, state]
    · simp [State.freeResolvers, kept.resolve, kept.reject]

theorem faithfulStep_iff (sound : Sound s) (taken : step s a = some t) :
    FaithfulStep s a ↔ plainStep s a = true := by
  cases a with
  | runTask converted thenRead =>
      simp only [FaithfulStep, plainStep, Bool.or_eq_true, bne_iff_ne]
      constructor
      · intro faithful
        by_cases value : s.phase = .posted .value
        · have settled := (faithful_iff sound value taken).mp (faithful .value t value taken)
          exact .inr (settled.resolve_left (by simp))
        · exact .inl value
      · intro fits result u posted ran
        refine (faithful_iff sound posted ran).mpr ?_
        rw [posted] at fits
        exact fits.imp_left fun other same => other (by rw [same])
  | _ => simp [FaithfulStep, plainStep]

/-- In every run the promise is settled at most once and no resolver reference is left when the
completion has run. The completions of a run settle it as the coroutine and the conversion ended
if and only if none of them resolves with an exception, the promise itself or a thenable. -/
theorem settled_faithfully_iff {history : List (State × Action)} (run : Run system history s) :
    s.settlements.length ≤ 1 ∧
    (s.phase = .finished → s.resolveRefs = 0 ∧ s.rejectRefs = 0) ∧
    ((∀ entry ∈ history, FaithfulStep entry.1 entry.2) ↔
      ∀ entry ∈ history, plainStep entry.1 entry.2 = true) := by
  have sound := run.always_invariant (fun _ _ => True) Sound
    (by
      rintro _ rfl
      exact sound_initial)
    (fun _ _ _ holds _ taken => sound_step taken holds) (fun _ _ => trivial)
  refine ⟨?_, fun finished => ?_, forall₂_congr fun entry member => ?_⟩
  · rw [sound.1.once]
    cases s.promiseState <;> simp
  · have returned := sound.1.returned finished
    exact ⟨by simp [sound.1.resolve, returned, finished],
      by simp [sound.1.reject, returned, finished]⟩
  · obtain ⟨t, taken⟩ := run.taken entry member
    exact faithfulStep_iff (sound.2 entry member) taken

end Runs

theorem text_settled_faithfully :
    ∃ history s, Run system history s ∧ s.settlements = [.fulfilled (.string "done")] ∧
      s.resolveRefs = 0 ∧ ∀ entry ∈ history, FaithfulStep entry.1 entry.2 := by
  obtain ⟨history, s, run, checked⟩ := system.exists_run rfl
    [.complete .value true, .returnPromise, .runTask (.string "done") .callable]
    (fun history s => s.settlements == [.fulfilled (.string "done")] && s.phase == .finished &&
      history.all fun entry => plainStep entry.1 entry.2) (by decide +kernel)
  simp only [Bool.and_eq_true, beq_iff_eq, List.all_eq_true] at checked
  obtain ⟨⟨settled, finished⟩, plain⟩ := checked
  obtain ⟨_, released, faithful⟩ := settled_faithfully_iff run
  exact ⟨history, s, run, settled, (released finished).1, faithful.mpr plain⟩

theorem unconverted_buffer_fulfills :
    ∃ s t, Reachable system s ∧ s.phase = .posted .value ∧
      step s (.runTask (wrapBytes 2147483648 1) .notCallable) = some t ∧
      t.settlements = [.fulfilled .exception] ∧ succeeded .value (wrapBytes 2147483648 1) = false ∧
      ¬ FaithfulStep s (.runTask (wrapBytes 2147483648 1) .notCallable) := by
  obtain ⟨history, s, run, checked⟩ := system.exists_run rfl
    [.complete .value true, .returnPromise]
    (fun _ s => s.phase == .posted .value &&
      (step s (.runTask (wrapBytes 2147483648 1) .notCallable)).any fun t =>
        t.settlements == [.fulfilled .exception]) (by decide +kernel)
  simp only [Bool.and_eq_true, beq_iff_eq, Option.any_eq_true] at checked
  obtain ⟨posted, t, taken, settled⟩ := checked
  refine ⟨s, t, run.reachable, posted, taken, settled, by decide, fun faithful => ?_⟩
  obtain ⟨⟨settlement, _, only, _, _, rejected⟩, _⟩ := faithful .value t posted taken
  obtain ⟨reason, same⟩ := rejected (by decide)
  rw [settled, same] at only
  cases only

end BreezeJs.LazySettlement
