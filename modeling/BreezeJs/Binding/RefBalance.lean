import Mathlib.Algebra.BigOperators.Group.List.Basic
import Mathlib.Algebra.Ring.Int.Defs
import BreezeJs.Library.Counting
import BreezeJs.Library.Transition
import BreezeJs.Binding.Value

set_option autoImplicit false

namespace BreezeJs.RefBalance

-- All objects are on the JS thread, and their context is alive.

open Binding Transition

structure Object where
  value : Value
  -- Its reference has been handed on, by `release` or by a move.
  released : Bool
deriving DecidableEq, Repr

def Object.copy (rhs : Object) : Object where
  value := rhs.value
  released := false

def Object.movedFrom (rhs : Object) : Object where
  value := rhs.value.movedFrom
  released := true

structure State where
  objects : List Object
  references : Nat → Int

-- What is passed with the value: `JSContext*`, `std::weak_ptr<Context>` or nothing.
inductive Constructor where
  | context
  | weakContext
  | jsValue
deriving DecidableEq, Repr

def Constructor.construct (constructor : Constructor) (v : Nat) : Value where
  v := v
  hasCtx := constructor != .jsValue
  hasHolder := constructor == .weakContext

inductive Action where
  | construct (constructor : Constructor) (v : Nat)
  | copy (rhs : Nat)
  | move (rhs : Nat)
  | copyAssign (self rhs : Nat)
  | moveAssign (self rhs : Nat)
  | release (self : Nat)
  | destroy (self : Nat)
deriving DecidableEq, Repr

def change (v : Nat) (call : Call) : Int :=
  if call.value = v then
    match call.primitive with
    | .dupValue => 1
    | .freeValue => -1
    | .convert => 0
  else 0

def net (v : Nat) (calls : List Call) : Int :=
  (calls.map (change v)).sum

def State.make (s : State) (calls : List Call) : State :=
  { s with references := fun v => s.references v + net v calls }

-- `operator=` swaps with its parameter, whose destructor then runs.
def State.assign (s : State) (self : Nat) (rhs : Object) : Option State :=
  s.objects[self]?.map fun old =>
    State.make { s with objects := s.objects.set self rhs } (old.value.destroyCalls .js)

def step (s : State) : Action → Option State
  | .construct constructor v =>
      some {
        objects := s.objects ++ [⟨constructor.construct v, false⟩]
        references := fun w => s.references w + if v = w then 1 else 0 }
  | .copy rhs =>
      s.objects[rhs]?.map fun source =>
        State.make { s with objects := s.objects ++ [source.copy] } (source.value.copyCalls .js)
  | .move rhs =>
      s.objects[rhs]?.map fun source =>
        { s with objects := s.objects.set rhs source.movedFrom ++ [source] }
  | .copyAssign self rhs =>
      s.objects[rhs]?.bind fun source =>
        (s.make (source.value.copyCalls .js)).assign self source.copy
  | .moveAssign self rhs =>
      s.objects[rhs]?.bind fun source =>
        State.assign { s with objects := s.objects.set rhs source.movedFrom } self source
  | .release self =>
      s.objects[self]?.map fun object =>
        { objects := s.objects.set self ⟨object.value.release, true⟩
          references := fun v =>
            s.references v - if object.released = false ∧ object.value.v = v then 1 else 0 }
  | .destroy self =>
      s.objects[self]?.map fun object =>
        State.make { s with objects := s.objects.eraseIdx self } (object.value.destroyCalls .js)

def system : System State Action where
  init s := s.objects = [] ∧ ∀ v, s.references v = 0
  step := step

structure Property where
  value : Nat
  conversion : List Call
  throws : Bool

def readCalls (this : Nat) (p : Property) : List Call :=
  [⟨.dupValue, this, .js⟩, ⟨.dupValue, p.value, .js⟩] ++ p.conversion ++
    [⟨.freeValue, p.value, .js⟩, ⟨.freeValue, this, .js⟩]

def readAll (this : Nat) : List Property → List Call
  | [] => []
  | p :: rest => readCalls this p ++ if p.throws then [] else readAll this rest

-- An error that is raised here is a new object, and its calls are left out.
def unwrapArray (isArray : Bool) (jsarr : Nat) (properties : List Property) : List Call :=
  if isArray then
    let jsarray := Constructor.context.construct jsarr
    ⟨.dupValue, jsarr, .js⟩ :: readAll jsarray.v properties ++ jsarray.destroyCalls .js
  else []

-- What is read: the length, which converts to `len`, and the elements if the loop begins.
def vectorProperties (length : Property) (len : UInt32) (element : Nat → Property) :
    List Property :=
  length :: (List.range len.toNat).map element

def pairProperties (length : Property) (len : UInt32) (first second : Property) : List Property :=
  length :: if len ≠ 2 then [] else [first, second]

def unwrapVector (isArray : Bool) (jsarr : Nat) (length : Property) (len : UInt32)
    (element : Nat → Property) : List Call :=
  unwrapArray isArray jsarr (vectorProperties length len element)

def unwrapPair (isArray : Bool) (jsarr : Nat) (length : Property) (len : UInt32)
    (first second : Property) : List Call :=
  unwrapArray isArray jsarr (pairProperties length len first second)

def holds (v : Nat) (object : Object) : Bool :=
  !object.released && object.value.v == v

def Balanced (s : State) : Prop :=
  ∀ v, s.references v = (s.objects.countP (holds v) : Int)

def destroyed (s : State) : Action → Option Object
  | .copyAssign self _ | .destroy self => s.objects[self]?
  | .moveAssign self rhs => if self = rhs then none else s.objects[self]?
  | _ => none

def Freed (object : Object) : Prop :=
  object.released = true ∨ object.value.hasCtx = true ∧ object.value.hasHolder = true

instance (object : Object) : Decidable (Freed object) :=
  inferInstanceAs (Decidable (_ ∨ _))

def Sound (s : State) : Prop :=
  ∀ object ∈ s.objects, object.released = true → object.value.hasCtx = false

def excess (s : State) (v : Nat) : Int :=
  s.references v - (s.objects.countP (holds v) : Int)

def held (v : Nat) (object : Object) : Int :=
  if holds v object then 1 else 0

def leaked (v : Nat) (object : Object) : Int :=
  if object.value.hasCtx = true ∧ object.value.hasHolder = true then 0 else held v object

section Ledger

variable {s t : State} {v : Nat} {old object : Object}

@[simp] theorem net_nil (v : Nat) : net v [] = 0 := rfl

@[simp] theorem net_cons (v : Nat) (call : Call) (rest : List Call) :
    net v (call :: rest) = change v call + net v rest := by
  simp [net]

@[simp] theorem net_append (v : Nat) (first second : List Call) :
    net v (first ++ second) = net v first + net v second := by
  simp [net]

theorem balanced_iff : Balanced s ↔ ∀ v, excess s v = 0 := by
  simp only [Balanced, excess, sub_eq_zero]

theorem net_copy (v : Nat) (object : Object) :
    net v (object.value.copyCalls .js) = held v object.copy := by
  simp [Value.copyCalls, change, held, holds, Object.copy]

theorem net_destroy (v : Nat) (sound : object.released = true → object.value.hasCtx = false) :
    net v (object.value.destroyCalls .js) = leaked v object - held v object := by
  obtain ⟨⟨w, hasCtx, hasHolder⟩, released⟩ := object
  cases hasCtx with
  | false => simp [Value.destroyCalls, leaked]
  | true =>
      have kept : released = false := by simpa using sound
      cases hasHolder with
      | false => simp [Value.destroyCalls, leaked]
      | true =>
          simp only [Value.destroyCalls, onJsThread_eq, leaked, held, holds, kept]
          by_cases same : w = v <;> simp [same, change]

theorem leaked_of_freed (freed : Freed object) (v : Nat) : leaked v object = 0 := by
  rcases freed with released | owns
  · simp [leaked, held, holds, released]
  · exact if_pos owns

theorem leaked_of_not_freed (kept : ¬ Freed object) : leaked object.value.v object = 1 := by
  rw [Freed, not_or, Bool.not_eq_true] at kept
  simp [leaked, held, holds, kept.1, kept.2]

theorem excess_make (s : State) (calls : List Call) (v : Nat) :
    excess (s.make calls) v = excess s v + net v calls := by
  simp only [excess, State.make]
  omega

theorem excess_append (s : State) (object : Object) (v : Nat) :
    excess { s with objects := s.objects ++ [object] } v = excess s v - held v object := by
  simp only [excess, held, List.countP_append, List.countP_singleton]
  split_ifs <;> omega

theorem excess_set {self : Nat} (found : s.objects[self]? = some old) (object : Object) (v : Nat) :
    excess { s with objects := s.objects.set self object } v =
      excess s v + held v old - held v object := by
  have counted := Counting.countP_set_add (p := holds v) object found
  simp only [excess, held]
  split_ifs at counted ⊢ <;> omega

theorem excess_eraseIdx {self : Nat} (found : s.objects[self]? = some old) (v : Nat) :
    excess { s with objects := s.objects.eraseIdx self } v = excess s v + held v old := by
  obtain ⟨inside, here⟩ := List.getElem?_eq_some_iff.mp found
  have split := (List.getElem_cons_eraseIdx_perm inside).countP_eq (holds v)
  rw [here, List.countP_cons] at split
  simp only [excess, held]
  split_ifs at split ⊢ <;> omega

theorem Sound.set (sound : Sound s) (self : Nat)
    (given : object.released = true → object.value.hasCtx = false) :
    Sound { s with objects := s.objects.set self object } := by
  intro other member
  rcases List.mem_or_eq_of_mem_set member with earlier | rfl
  · exact sound other earlier
  · exact given

theorem Sound.append (sound : Sound s)
    (given : object.released = true → object.value.hasCtx = false) :
    Sound { s with objects := s.objects ++ [object] } := by
  intro other member
  rcases List.mem_append.mp member with earlier | last
  · exact sound other earlier
  · exact List.mem_singleton.mp last ▸ given

theorem Sound.here (sound : Sound s) {self : Nat} (found : s.objects[self]? = some object) :
    object.released = true → object.value.hasCtx = false :=
  sound object (List.mem_of_getElem? found)

def loss (s : State) (a : Action) (v : Nat) : Int :=
  ((destroyed s a).map (leaked v)).getD 0

theorem assign_spec {self : Nat} (sound : Sound s)
    (given : object.released = true → object.value.hasCtx = false)
    (taken : s.assign self object = some t) :
    Sound t ∧ ∃ old, s.objects[self]? = some old ∧
      ∀ v, excess t v = excess s v + leaked v old - held v object := by
  simp only [State.assign, Option.map_eq_some_iff] at taken
  obtain ⟨old, found, rfl⟩ := taken
  refine ⟨sound.set self given, old, found, ?_⟩
  intro v
  rw [excess_make, excess_set found, net_destroy v (sound.here found)]
  omega

theorem held_movedFrom (v : Nat) (object : Object) : held v object.movedFrom = 0 := by
  simp [held, holds, Object.movedFrom]

theorem excess_construct (s : State) (constructor : Constructor) (v w : Nat) :
    excess
      { objects := s.objects ++ [⟨constructor.construct v, false⟩]
        references := fun u => s.references u + if v = u then 1 else 0 } w = excess s w := by
  have appended := excess_append s ⟨constructor.construct v, false⟩ w
  simp only [excess, held, holds, Constructor.construct] at appended ⊢
  simp only [Bool.not_false, Bool.true_and, beq_iff_eq] at appended
  omega

theorem excess_copy (s : State) (source : Object) (v : Nat) :
    excess (State.make { s with objects := s.objects ++ [source.copy] } (source.value.copyCalls .js))
      v = excess s v := by
  rw [excess_make, excess_append, net_copy, sub_add_cancel]

theorem excess_move {rhs : Nat} {source : Object} (found : s.objects[rhs]? = some source) (v : Nat) :
    excess { s with objects := s.objects.set rhs source.movedFrom ++ [source] } v = excess s v := by
  have appended := excess_append { s with objects := s.objects.set rhs source.movedFrom } source v
  rw [excess_set found, held_movedFrom] at appended
  exact appended.trans (by omega)

theorem excess_release {self : Nat} (found : s.objects[self]? = some object) (v : Nat) :
    excess
      { objects := s.objects.set self ⟨object.value.release, true⟩
        references := fun u =>
          s.references u - if object.released = false ∧ object.value.v = u then 1 else 0 } v =
      excess s v := by
  have counted := excess_set found ⟨object.value.release, true⟩ v
  simp only [excess, held, holds] at counted ⊢
  simp only [Bool.not_true, Bool.false_and, Bool.false_eq_true, if_false, Bool.and_eq_true,
    Bool.not_eq_true', beq_iff_eq] at counted
  omega

theorem excess_destroy (sound : Sound s) {self : Nat} (found : s.objects[self]? = some object)
    (v : Nat) :
    excess
      (State.make { s with objects := s.objects.eraseIdx self } (object.value.destroyCalls .js)) v =
      excess s v + leaked v object := by
  rw [excess_make, excess_eraseIdx found, net_destroy v (sound.here found)]
  omega

theorem loss_of_kept {a : Action} (kept : destroyed s a = none) (v : Nat) : loss s a v = 0 := by
  rw [loss, kept, Option.map_none, Option.getD_none]

theorem loss_of_destroyed {a : Action} (gone : destroyed s a = some object) (v : Nat) :
    loss s a v = leaked v object := by
  rw [loss, gone, Option.map_some, Option.getD_some]

theorem copyAssign_spec {self rhs : Nat} (sound : Sound s)
    (taken : step s (.copyAssign self rhs) = some t) :
    Sound t ∧ ∀ v, excess t v = excess s v + loss s (.copyAssign self rhs) v := by
  simp only [step, Option.bind_eq_some_iff] at taken
  obtain ⟨source, _, taken⟩ := taken
  obtain ⟨sound', old, found, after⟩ :=
    assign_spec (s := s.make _) sound (by simp [Object.copy]) taken
  have gone : destroyed s (.copyAssign self rhs) = some old := found
  refine ⟨sound', ?_⟩
  intro v
  rw [after, excess_make, net_copy, loss_of_destroyed gone]
  omega

theorem moveAssign_spec {self rhs : Nat} (sound : Sound s)
    (taken : step s (.moveAssign self rhs) = some t) :
    Sound t ∧ ∀ v, excess t v = excess s v + loss s (.moveAssign self rhs) v := by
  simp only [step, Option.bind_eq_some_iff] at taken
  obtain ⟨source, given, taken⟩ := taken
  have emptied : Sound { s with objects := s.objects.set rhs source.movedFrom } :=
    sound.set rhs fun _ => rfl
  obtain ⟨sound', old, found, after⟩ := assign_spec emptied (sound.here given) taken
  refine ⟨sound', ?_⟩
  intro v
  simp only [Counting.getElem?_set_of_some given] at found
  rw [after, excess_set given, held_movedFrom]
  by_cases same : self = rhs
  · rw [if_pos same, Option.some.injEq] at found
    subst found
    have kept : destroyed s (.moveAssign self rhs) = none := if_pos same
    rw [loss_of_kept kept, leaked_of_freed (.inl rfl)]
    omega
  · rw [if_neg same] at found
    have gone : destroyed s (.moveAssign self rhs) = some old := (if_neg same).trans found
    rw [loss_of_destroyed gone]
    omega

theorem step_spec {a : Action} (sound : Sound s) (taken : step s a = some t) :
    Sound t ∧ ∀ v, excess t v = excess s v + loss s a v := by
  have unchanged (kept : destroyed s a = none) (same : ∀ v, excess t v = excess s v) :
      ∀ v, excess t v = excess s v + loss s a v := by
    intro v
    rw [loss_of_kept kept, same, add_zero]
  cases a with
  | construct constructor v =>
      simp only [step, Option.some.injEq] at taken
      subst taken
      have sound' : Sound { s with objects := s.objects ++ [⟨constructor.construct v, false⟩] } :=
        sound.append (by simp)
      exact ⟨sound', unchanged rfl (excess_construct s constructor v)⟩
  | copy rhs =>
      simp only [step, Option.map_eq_some_iff] at taken
      obtain ⟨source, found, rfl⟩ := taken
      exact ⟨sound.append (by simp [Object.copy]), unchanged rfl (excess_copy s source)⟩
  | move rhs =>
      simp only [step, Option.map_eq_some_iff] at taken
      obtain ⟨source, found, rfl⟩ := taken
      have emptied : Sound { s with objects := s.objects.set rhs source.movedFrom } :=
        sound.set rhs fun _ => rfl
      exact ⟨emptied.append (sound.here found), unchanged rfl (excess_move found)⟩
  | copyAssign self rhs => exact copyAssign_spec sound taken
  | moveAssign self rhs => exact moveAssign_spec sound taken
  | release self =>
      simp only [step, Option.map_eq_some_iff] at taken
      obtain ⟨object, found, rfl⟩ := taken
      exact ⟨sound.set self fun _ => rfl, unchanged rfl (excess_release found)⟩
  | destroy self =>
      simp only [step, Option.map_eq_some_iff] at taken
      obtain ⟨object, found, rfl⟩ := taken
      have gone : destroyed s (.destroy self) = some object := found
      refine ⟨fun other member => sound other (List.mem_of_mem_eraseIdx member), ?_⟩
      intro v
      rw [excess_destroy sound found, loss_of_destroyed gone]

end Ledger

theorem excess_initial {s : State} (first : system.init s) (v : Nat) : excess s v = 0 := by
  simp [excess, first.1, first.2 v]

theorem balanced_along_iff {history : List (State × Action)} {s : State}
    (run : Run system history s) :
    (Balanced s ∧ ∀ entry ∈ history, Balanced entry.1) ↔
      ∀ entry ∈ history, ∀ object ∈ destroyed entry.1 entry.2, Freed object := by
  refine run.always_iff (fun s a => ∀ object ∈ destroyed s a, Freed object) Balanced
    (fun s => Sound s ∧ Balanced s) ?_ (fun s holds => holds.2) ?_ ?_
  · intro s first
    refine ⟨?_, balanced_iff.mpr (excess_initial first)⟩
    intro object member
    rw [first.1] at member
    cases member
  · rintro s a t ⟨sound, balanced⟩ allowed taken
    obtain ⟨sound', after⟩ := step_spec sound taken
    refine ⟨sound', balanced_iff.mpr ?_⟩
    intro v
    rw [after, balanced_iff.mp balanced]
    cases gone : destroyed s a with
    | none => rw [loss_of_kept gone, add_zero]
    | some object => rw [loss_of_destroyed gone, leaked_of_freed (allowed object gone), add_zero]
  · rintro s a t ⟨sound, balanced⟩ refused taken balanced'
    obtain ⟨_, after⟩ := step_spec sound taken
    push Not at refused
    obtain ⟨object, gone, kept⟩ := refused
    have lost := after object.value.v
    rw [balanced_iff.mp balanced, balanced_iff.mp balanced', loss_of_destroyed gone,
      leaked_of_not_freed kept] at lost
    omega

def conversions : List Property → List Call
  | [] => []
  | p :: rest => p.conversion ++ if p.throws then [] else conversions rest

def converted (isArray : Bool) (properties : List Property) : List Call :=
  if isArray then conversions properties else []

def Unmoved (jsarr : Nat) (calls converted : List Call) : Prop :=
  net jsarr calls = net jsarr converted

theorem net_readAll (this : Nat) (properties : List Property) :
    net this (readAll this properties) = net this (conversions properties) := by
  induction properties with
  | nil => rfl
  | cons p rest ih =>
      simp only [readAll, conversions, readCalls, net_append, net_cons, net_nil]
      cases p.throws with
      | false =>
          simp only [Bool.false_eq_true, if_false, ih]
          by_cases own : p.value = this <;> simp [change, own]
      | true =>
          by_cases own : p.value = this <;> simp [change, own]

theorem unmoved_iff (jsarr : Nat) (isArray : Bool) (properties : List Property) :
    Unmoved jsarr (unwrapArray isArray jsarr properties) (converted isArray properties) ↔
      isArray = false := by
  cases isArray with
  | false => simp [Unmoved, unwrapArray, converted]
  | true =>
      simp only [Unmoved, unwrapArray, converted, if_true, net_cons, net_append, net_readAll,
        Constructor.construct, Value.destroyCalls]
      simp [change]

/-- The references are balanced all along a run if and only if every object that is destroyed or
assigned over has been released or has a context holder; an array that is read is left with one
reference more. -/
theorem references_balanced_iff {history : List (State × Action)} {s : State}
    (run : Run system history s) :
    ((Balanced s ∧ ∀ entry ∈ history, Balanced entry.1) ↔
        ∀ entry ∈ history, ∀ object ∈ destroyed entry.1 entry.2, Freed object) ∧
      ∀ jsarr isArray length len,
        (∀ element, Unmoved jsarr (unwrapVector isArray jsarr length len element)
          (converted isArray (vectorProperties length len element)) ↔ isArray = false) ∧
        ∀ first second, Unmoved jsarr (unwrapPair isArray jsarr length len first second)
          (converted isArray (pairProperties length len first second)) ↔ isArray = false :=
  ⟨balanced_along_iff run, fun jsarr isArray _ _ =>
    ⟨fun _ => unmoved_iff jsarr isArray _, fun _ _ => unmoved_iff jsarr isArray _⟩⟩

theorem references_balanced_example :
    ∃ history s, Run system history s ∧ s.objects.length = 1 ∧ Balanced s := by
  obtain ⟨history, s, run, checked⟩ := system.exists_run (s := ⟨[], fun _ => 0⟩)
    ⟨rfl, fun _ => rfl⟩
    [.construct .weakContext 3, .construct .context 4, .copy 0, .moveAssign 2 1, .release 2,
      .copyAssign 1 0, .destroy 2, .destroy 1]
    (fun history s =>
      decide (∀ entry ∈ history, ∀ object ∈ destroyed entry.1 entry.2, Freed object) &&
        s.objects.length == 1) (by decide)
  simp only [Bool.and_eq_true, decide_eq_true_eq, beq_iff_eq] at checked
  exact ⟨history, s, run, checked.2, ((references_balanced_iff run).1.mpr checked.1).1⟩

theorem context_value_leaks :
    (∃ history s, Run system history s ∧ s.objects = [] ∧ s.references 3 = 1 ∧ ¬ Balanced s) ∧
      ∀ length element, length.conversion = [] →
        net 3 (unwrapVector true 3 length 0 element) = 1 := by
  constructor
  · obtain ⟨history, s, run, checked⟩ := system.exists_run (s := ⟨[], fun _ => 0⟩)
      ⟨rfl, fun _ => rfl⟩ [.construct .context 3, .destroy 0]
      (fun _ s => s.objects == [] && s.references 3 == 1) (by decide)
    simp only [Bool.and_eq_true, beq_iff_eq] at checked
    refine ⟨history, s, run, checked.1, checked.2, ?_⟩
    intro balanced
    have none := balanced 3
    rw [checked.1, checked.2] at none
    exact absurd none (by decide)
  · intro length element plain
    have read := net_readAll 3 (vectorProperties length 0 element)
    have quiet : conversions (vectorProperties length 0 element) = [] := by
      simp [vectorProperties, conversions, plain]
    rw [quiet, net_nil] at read
    simp only [unwrapVector, unwrapArray, if_true, net_cons, net_append, Constructor.construct,
      Value.destroyCalls, read]
    simp [change]

end BreezeJs.RefBalance
