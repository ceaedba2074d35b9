import Mathlib.Tactic.SplitIfs

set_option autoImplicit false

namespace BreezeJs.Transparency

inductive Tag where
  | bigInt
  | symbol
  | string
  | module
  | functionBytecode
  | object
  | int
  | bool
  | null
  | undefined
  | uninitialized
  | catchOffset
  | exception
  | float64
deriving DecidableEq, Repr

def Tag.code : Tag → Int
  | .bigInt => -9
  | .symbol => -8
  | .string => -7
  | .module => -3
  | .functionBytecode => -2
  | .object => -1
  | .int => 0
  | .bool => 1
  | .null => 2
  | .undefined => 3
  | .uninitialized => 4
  | .catchOffset => 5
  | .exception => 6
  | .float64 => 7

structure JSValue where
  tag : Tag
  payload : Nat
deriving DecidableEq, Repr

-- What memory holds that is read as a `JSValue` before it has been written. No value has the tag of
-- `garbage`.
inductive Memory where
  | value (v : JSValue)
  | garbage
deriving DecidableEq, Repr

def jsException : JSValue :=
  { tag := .exception
    payload := 0 }

-- The outcome of an engine call: `stored` is what it leaves in `rt->current_exception`, if it
-- stores there at all.
structure Reply (σ α : Type) where
  result : α
  stored : Option JSValue
  heap : σ

-- The parts of the engine that run script code or allocate; `σ` is everything in the runtime but
-- its pending exception.
structure Engine (σ : Type) where
  primitiveText : JSValue → String
  -- `JS_ToCStringLen` of an object: `toString` and friends.
  objectText : JSValue → σ → Reply σ (Option String)
  -- A property read, with its getters and proxies; null and undefined never get here.
  property : JSValue → String → σ → Reply σ JSValue
  truthy : JSValue → Bool
  newError : String → σ → Nat × σ
  freeObject : σ → σ

structure State (σ : Type) where
  heap : σ
  pending : JSValue
  currentException : Option JSValue

variable {σ : Type}

def State.after {α : Type} (s : State σ) (reply : Reply σ α) : State σ :=
  { s with
    heap := reply.heap
    pending := reply.stored.getD s.pending }

def throwNew {α : Type} (engine : Engine σ) (result : α) (message : String) (heap : σ) :
    Reply σ α :=
  let error := engine.newError message heap
  { result := result
    stored := some ⟨.object, error.1⟩
    heap := error.2 }

def toCString (engine : Engine σ) (v : JSValue) (heap : σ) : Reply σ (Option String) :=
  match v.tag with
  | .object => engine.objectText v heap
  | .symbol => throwNew engine none "cannot convert symbol to string" heap
  | .exception => ⟨none, none, heap⟩
  | _ => ⟨some (engine.primitiveText v), none, heap⟩

def getPropertyStr (engine : Engine σ) (v : JSValue) (prop : String) (heap : σ) :
    Reply σ JSValue :=
  match v.tag with
  | .null => throwNew engine jsException ("cannot read property '" ++ prop ++ "' of null") heap
  | .undefined =>
      throwNew engine jsException ("cannot read property '" ++ prop ++ "' of undefined") heap
  | .exception => ⟨jsException, none, heap⟩
  | _ => engine.property v prop heap

-- `JS_ToBool(ctx, v) > 0`.
def toBool (engine : Engine σ) (v : JSValue) : Bool :=
  v.tag != .exception && engine.truthy v

-- The vendored `JS_GetException` leaves the slot as it is.
def getException (s : State σ) : JSValue :=
  s.pending

inductive Thrown where
  | exception
  | stdException (what : String)
  | unknown
deriving DecidableEq, Repr

inductive Built (σ : Type) where
  | done (message : String) (s : State σ)
  -- A conversion inside the constructor throws an `exception` of its own.
  | nested (s : State σ)
  | badOptionalAccess (s : State σ)

-- `exception::message` from the fetched value on; `exc["stack"]` is read once for each use.
def message (engine : Engine σ) (exc : JSValue) (s : State σ) : Built σ :=
  let text := toCString engine exc s.heap
  let s := s.after text
  match text.result with
  | none => .nested s
  | some message =>
      let stack := getPropertyStr engine exc "stack" s.heap
      let s := s.after stack
      if toBool engine stack.result then
        let stack := getPropertyStr engine exc "stack" s.heap
        let s := s.after stack
        let trace := toCString engine stack.result s.heap
        let s := s.after trace
        match trace.result with
        | none => .nested s
        | some trace => .done (message ++ "\n" ++ trace) s
      else .done message s

-- `exception::exception`. `value` is read before it is initialised: `residue` is what the memory
-- holds there. Garbage is printed as what it is, and the read of its `stack` gives undefined.
def construct (engine : Engine σ) (residue : Option Memory) (s : State σ) : Built σ :=
  match residue with
  | some .garbage => .done "[unsupported type]" s
  | some (.value value) => if value.tag = .exception then .nested s else message engine value s
  | none =>
      let value := getException s
      let fetched := if 8 < value.tag.code then s.currentException else some value
      match fetched with
      | none => .badOptionalAccess s
      | some value =>
          let s := { s with currentException := some value }
          if value.tag = .exception then .nested s else message engine value s

-- `throw exception{ctx}`, with its nested attempts; the fuel bounds their number.
def raise (engine : Engine σ) (residues : Nat → Option Memory) :
    Nat → Nat → State σ → Option (Thrown × State σ)
  | 0, _, _ => none
  | fuel + 1, attempt, s =>
      match construct engine (residues attempt) s with
      | .done _ s => some (.exception, s)
      | .badOptionalAccess s => some (.stdException "bad optional access", s)
      | .nested s => raise engine residues fuel (attempt + 1) s

def Body (σ : Type) : Type :=
  State σ → Option (Except Thrown JSValue × State σ)

def raising (engine : Engine σ) (residues : Nat → Option Memory) (fuel : Nat) : Body σ :=
  fun s => (raise engine residues fuel 0 s).map fun thrown => (.error thrown.1, thrown.2)

def caught (engine : Engine σ) (thrown : Thrown) (s : State σ) : JSValue × State σ :=
  match thrown with
  | .exception => (jsException, s)
  | .stdException what => (jsException, s.after (throwNew engine () what s.heap))
  | .unknown => (jsException, s.after (throwNew engine () "Unknown error" s.heap))

def wrapCall (engine : Engine σ) (body : Body σ) (s : State σ) : Option (JSValue × State σ) :=
  (body s).map fun
    | (.ok v, s) => (v, s)
    | (.error thrown, s) => caught engine thrown s

-- The arguments start with `this`; the clauses are those of `wrap_call`.
def wrapThisCall (engine : Engine σ) (body : Body σ) (s : State σ) :
    Option (JSValue × State σ) :=
  wrapCall engine body s

-- The new object is freed before the clauses return.
def ctorWrapper (engine : Engine σ) (body : Body σ) (s : State σ) : Option (JSValue × State σ) :=
  (body s).map fun
    | (.ok v, s) => (v, s)
    | (.error thrown, s) => caught engine thrown { s with heap := engine.freeObject s.heap }

def Transparent (site : Engine σ → Body σ → State σ → Option (JSValue × State σ))
    (engine : Engine σ) (residues : Nat → Option Memory) (s : State σ) : Prop :=
  ∃ fuel later, site engine (raising engine residues fuel) s = some (jsException, later) ∧
    later.pending = s.pending

structure Calls (σ : Type) where
  stores : List JSValue
  failed : Bool
  heap : σ

def printCalls (engine : Engine σ) (exc : JSValue) (heap : σ) : Calls σ :=
  let text := toCString engine exc heap
  if text.result.isNone then ⟨text.stored.toList, true, text.heap⟩
  else
    let stack := getPropertyStr engine exc "stack" text.heap
    let read := text.stored.toList ++ stack.stored.toList
    if toBool engine stack.result then
      let stack := getPropertyStr engine exc "stack" stack.heap
      let trace := toCString engine stack.result stack.heap
      ⟨read ++ stack.stored.toList ++ trace.stored.toList, trace.result.isNone, trace.heap⟩
    else ⟨read, false, stack.heap⟩

def fetched (residue : Option Memory) (slot : JSValue) : Option JSValue :=
  match residue with
  | some .garbage => none
  | some (.value value) => some value
  | none => some slot

def attemptCalls (engine : Engine σ) (residue : Option Memory) (slot : JSValue) (heap : σ) :
    Calls σ :=
  match fetched residue slot with
  | none => ⟨[], false, heap⟩
  | some value =>
      if value.tag = .exception then ⟨[], true, heap⟩ else printCalls engine value heap

def raiseStores (engine : Engine σ) (residues : Nat → Option Memory) :
    Nat → Nat → JSValue → σ → Option (List JSValue)
  | 0, _, _, _ => none
  | fuel + 1, attempt, slot, heap =>
      let calls := attemptCalls engine (residues attempt) slot heap
      if calls.failed then
        (raiseStores engine residues fuel (attempt + 1) (calls.stores.getLastD slot)
          calls.heap).map fun later => calls.stores ++ later
      else some calls.stores

-- The attempts come to an end, and no engine call among them stores an error in the slot, or the
-- last one stored is the error that was pending before.
def Restored (engine : Engine σ) (residues : Nat → Option Memory) (s : State σ) : Prop :=
  ∃ fuel stores, raiseStores engine residues fuel 0 s.pending s.heap = some stores ∧
    stores.getLastD s.pending = s.pending

theorem getLastD_append (first second : List JSValue) (slot : JSValue) :
    (first ++ second).getLastD slot = second.getLastD (first.getLastD slot) := by
  cases second with
  | nil => simp
  | cons head rest => simp [List.getLastD_eq_getLast?, List.getLast?_append]

theorem after_pending {α : Type} (s : State σ) (reply : Reply σ α) :
    (s.after reply).pending = reply.stored.toList.getLastD s.pending := by
  cases stored : reply.stored <;> simp [State.after, stored]

theorem after_heap {α : Type} (s : State σ) (reply : Reply σ α) :
    (s.after reply).heap = reply.heap := rfl

def Built.agrees (built : Built σ) (calls : Calls σ) (slot : JSValue) : Prop :=
  match built with
  | .done _ s => calls.failed = false ∧ s.pending = calls.stores.getLastD slot ∧ s.heap = calls.heap
  | .nested s => calls.failed = true ∧ s.pending = calls.stores.getLastD slot ∧ s.heap = calls.heap
  | .badOptionalAccess _ => False

theorem message_agrees (engine : Engine σ) (exc : JSValue) (s : State σ) :
    (message engine exc s).agrees (printCalls engine exc s.heap) s.pending := by
  simp only [message, printCalls]
  simp only [after_heap]
  cases printed : (toCString engine exc s.heap).result with
  | none => simp [Built.agrees, after_pending, after_heap]
  | some text =>
      simp only [Option.isNone_some, Bool.false_eq_true, if_false]
      by_cases hasStack : toBool engine (getPropertyStr engine exc "stack"
          (toCString engine exc s.heap).heap).result = true
      · simp only [hasStack, if_true]
        split
        · next failed => simp [Built.agrees, failed, after_pending, after_heap]
        · next trace read => simp [Built.agrees, read, after_pending, after_heap]
      · simp [hasStack, Built.agrees, after_pending, after_heap]

theorem construct_eq (engine : Engine σ) (residue : Option Memory) (s : State σ) :
    ∃ saved, construct engine residue s =
      match fetched residue s.pending with
      | none => .done "[unsupported type]" s
      | some value =>
          if value.tag = .exception then .nested { s with currentException := saved }
          else message engine value { s with currentException := saved } := by
  match residue with
  | some .garbage => exact ⟨none, rfl⟩
  | some (.value value) => exact ⟨s.currentException, rfl⟩
  | none =>
      -- Every tag is at most 8, so the fetched value is never taken from the context.
      have valid : ¬ 8 < s.pending.tag.code := by cases s.pending.tag <;> decide
      exact ⟨some s.pending, by simp [construct, getException, valid, fetched]⟩

theorem construct_agrees (engine : Engine σ) (residue : Option Memory) (s : State σ) :
    (construct engine residue s).agrees (attemptCalls engine residue s.pending s.heap)
      s.pending := by
  obtain ⟨saved, constructed⟩ := construct_eq engine residue s
  rw [constructed, attemptCalls]
  cases fetched residue s.pending with
  | none => simp [Built.agrees]
  | some value =>
      by_cases raised : value.tag = .exception
      · simp [raised, Built.agrees]
      · simp only [raised, if_false]
        exact message_agrees engine value { s with currentException := saved }

theorem raise_pending (engine : Engine σ) (residues : Nat → Option Memory) (fuel attempt : Nat)
    (s : State σ) :
    (raise engine residues fuel attempt s).map (fun thrown => (thrown.1, thrown.2.pending)) =
      (raiseStores engine residues fuel attempt s.pending s.heap).map
        fun stores => (.exception, stores.getLastD s.pending) := by
  induction fuel generalizing attempt s with
  | zero => rfl
  | succ fuel ih =>
      have agrees := construct_agrees engine (residues attempt) s
      simp only [raise, raiseStores]
      cases constructed : construct engine (residues attempt) s with
      | done text later =>
          rw [constructed] at agrees
          obtain ⟨printed, slot, -⟩ := agrees
          simp [printed, slot]
      | nested later =>
          rw [constructed] at agrees
          obtain ⟨failed, slot, heap⟩ := agrees
          simp only [failed, if_true]
          rw [ih, Option.map_map, slot, heap]
          congr 1
          funext stores
          simp only [Function.comp_apply, getLastD_append]
      | badOptionalAccess later =>
          rw [constructed] at agrees
          exact agrees.elim

theorem raise_done {engine : Engine σ} {residues : Nat → Option Memory} {fuel : Nat}
    {s later : State σ} {thrown : Thrown}
    (raised : raise engine residues fuel 0 s = some (thrown, later)) :
    thrown = .exception ∧ ∃ stores, raiseStores engine residues fuel 0 s.pending s.heap =
      some stores ∧ later.pending = stores.getLastD s.pending := by
  have slot := raise_pending engine residues fuel 0 s
  rw [raised] at slot
  obtain ⟨stores, stored, same⟩ := Option.map_eq_some_iff.mp slot.symm
  simp only [Prod.mk.injEq] at same
  exact ⟨same.1.symm, stores, stored, same.2.symm⟩

theorem raise_of_stores {engine : Engine σ} {residues : Nat → Option Memory} {fuel : Nat}
    {s : State σ} {stores : List JSValue}
    (stored : raiseStores engine residues fuel 0 s.pending s.heap = some stores) :
    ∃ later, raise engine residues fuel 0 s = some (.exception, later) ∧
      later.pending = stores.getLastD s.pending := by
  have slot := raise_pending engine residues fuel 0 s
  rw [stored] at slot
  obtain ⟨⟨thrown, later⟩, raised, same⟩ := Option.map_eq_some_iff.mp slot
  simp only [Prod.mk.injEq] at same
  obtain ⟨rfl, pending⟩ := same
  exact ⟨later, raised, pending⟩

theorem transparent_iff {site : Engine σ → Body σ → State σ → Option (JSValue × State σ)}
    {engine : Engine σ} {residues : Nat → Option Memory} {s : State σ}
    (keeps : ∀ fuel later, raise engine residues fuel 0 s = some (.exception, later) →
      ∃ after, site engine (raising engine residues fuel) s = some (jsException, after) ∧
        after.pending = later.pending)
    (ends : ∀ fuel, raise engine residues fuel 0 s = none →
      site engine (raising engine residues fuel) s = none) :
    Transparent site engine residues s ↔ Restored engine residues s := by
  constructor
  · rintro ⟨fuel, result, returned, pending⟩
    cases raised : raise engine residues fuel 0 s with
    | none => simp [ends fuel raised] at returned
    | some raise =>
        obtain ⟨thrown, later⟩ := raise
        obtain ⟨rfl, stores, stored, slot⟩ := raise_done raised
        obtain ⟨after, caught, kept⟩ := keeps fuel later raised
        rw [returned] at caught
        cases caught
        exact ⟨fuel, stores, stored, by rw [← slot, ← kept, pending]⟩
  · rintro ⟨fuel, stores, stored, last⟩
    obtain ⟨later, raised, slot⟩ := raise_of_stores stored
    obtain ⟨after, caught, kept⟩ := keeps fuel later raised
    exact ⟨fuel, after, caught, by rw [kept, slot, last]⟩

/-- The error that was pending when an `exception` was thrown is pending again when the wrapper
returns if and only if the engine calls of its constructor come to an end with that error. -/
theorem exceptions_transparent_iff (engine : Engine σ) (residues : Nat → Option Memory)
    (s : State σ) :
    (Transparent wrapCall engine residues s ↔ Restored engine residues s) ∧
    (Transparent wrapThisCall engine residues s ↔ Restored engine residues s) ∧
    (Transparent ctorWrapper engine residues s ↔ Restored engine residues s) := by
  refine ⟨transparent_iff ?_ ?_, transparent_iff ?_ ?_, transparent_iff ?_ ?_⟩
  · intro fuel later raised
    exact ⟨later, by simp [wrapCall, raising, raised, caught], rfl⟩
  · intro fuel stuck
    simp [wrapCall, raising, stuck]
  · intro fuel later raised
    exact ⟨later, by simp [wrapThisCall, wrapCall, raising, raised, caught], rfl⟩
  · intro fuel stuck
    simp [wrapThisCall, wrapCall, raising, stuck]
  · intro fuel later raised
    exact ⟨{ later with heap := engine.freeObject later.heap },
      by simp [ctorWrapper, raising, raised, caught], rfl⟩
  · intro fuel stuck
    simp [ctorWrapper, raising, stuck]

def plainEngine : Engine Unit :=
  { primitiveText := fun v => if v.tag = .null then "null" else "undefined"
    objectText := fun v _ =>
      if v.payload = 1 then ⟨none, some ⟨.object, 2⟩, ()⟩ else ⟨some "Error", none, ()⟩
    property := fun _ _ _ => ⟨⟨.undefined, 0⟩, none, ()⟩
    truthy := fun _ => false
    newError := fun _ _ => (0, ())
    freeObject := id }

theorem pending_error_replaced :
    ¬ Transparent wrapCall plainEngine (fun _ => none) ⟨(), ⟨.null, 0⟩, none⟩ ∧
    ¬ Transparent wrapCall plainEngine (fun _ => none) ⟨(), ⟨.object, 1⟩, none⟩ := by
  constructor
  · rintro ⟨fuel, later, returned, pending⟩
    match fuel with
    | 0 => cases returned
    | fuel + 1 =>
        cases returned
        cases pending
  · rintro ⟨fuel, later, returned, pending⟩
    match fuel with
    | 0 => cases returned
    | 1 => cases returned
    | fuel + 2 =>
        cases returned
        cases pending

theorem raiseStores_of_printed {engine : Engine σ} {residues : Nat → Option Memory}
    {slot : JSValue} {heap : σ}
    (printed : (attemptCalls engine (residues 0) slot heap).failed = false) (fuel : Nat) :
    raiseStores engine residues (fuel + 1) 0 slot heap =
      some (attemptCalls engine (residues 0) slot heap).stores := by
  simp [raiseStores, printed]

theorem quiet_restored {engine : Engine σ} {residues : Nat → Option Memory} {s : State σ}
    (printed : (attemptCalls engine (residues 0) s.pending s.heap).failed = false)
    (quiet : (attemptCalls engine (residues 0) s.pending s.heap).stores = []) :
    Restored engine residues s :=
  ⟨1, [], by rw [raiseStores_of_printed printed 0, quiet], rfl⟩

theorem nullish_calls (engine : Engine σ) {slot : JSValue} (heap : σ)
    (nullish : slot.tag = .null ∨ slot.tag = .undefined) :
    (attemptCalls engine none slot heap).failed = false ∧
      ∃ error, (attemptCalls engine none slot heap).stores = [⟨.object, error⟩] := by
  cases nullish with
  | inl null =>
      simp [attemptCalls, fetched, printCalls, toCString, getPropertyStr, throwNew, toBool,
        jsException, null]
  | inr undefined =>
      simp [attemptCalls, fetched, printCalls, toCString, getPropertyStr, throwNew, toBool,
        jsException, undefined]

theorem nullish_not_restored (engine : Engine σ) {residues : Nat → Option Memory} {s : State σ}
    (disengaged : residues 0 = none)
    (nullish : s.pending.tag = .null ∨ s.pending.tag = .undefined) :
    ¬ Restored engine residues s := by
  rintro ⟨fuel, stores, stored, last⟩
  cases fuel with
  | zero => cases stored
  | succ fuel =>
      obtain ⟨printed, error, calls⟩ := nullish_calls engine s.heap nullish
      rw [← disengaged] at printed calls
      rw [raiseStores_of_printed printed fuel, calls] at stored
      cases stored
      have replaced : s.pending.tag = .object := by rw [← last]; rfl
      simp [replaced] at nullish

end BreezeJs.Transparency
