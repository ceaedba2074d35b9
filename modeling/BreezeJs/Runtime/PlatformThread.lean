import BreezeJs.Library.Custody
import BreezeJs.Library.Transition

set_option autoImplicit false

namespace BreezeJs.ThreadOwnership

-- The POSIX branch, over any type of `pthread_t`. A moved-from object keeps its handle, and only its
-- flag says that it owns nothing.

open Transition Custody

inductive ErrorCategory where
  | system
  | generic
deriving DecidableEq, Repr

structure SystemError where
  code : Int
  category : ErrorCategory
  message : Option String
deriving DecidableEq, Repr

-- `std::errc::invalid_argument`.
def invalidArgument : Int := 22

inductive Exit where
  | returned
  | threw (error : SystemError)
  | terminated
deriving DecidableEq, Repr

structure PlatformThread (τ : Type) where
  handle : τ
  joinable : Bool
deriving DecidableEq, Repr

section Model

variable {τ : Type} [DecidableEq τ] [Inhabited τ]

def PlatformThread.new : PlatformThread τ :=
  { handle := default
    joinable := false }

def PlatformThread.reset (_ : PlatformThread τ) : PlatformThread τ :=
  { handle := default
    joinable := false }

structure Id (τ : Type) where
  value : τ
  valid : Bool
deriving DecidableEq, Repr

-- `operator==` of two ids.
def Id.equal (lhs rhs : Id τ) : Bool :=
  if lhs.valid ≠ rhs.valid then false
  else if ¬ lhs.valid then true
  else lhs.value = rhs.value

def PlatformThread.getId (self : PlatformThread τ) : Id τ :=
  if self.joinable then { value := self.handle, valid := true }
  else { value := default, valid := false }

structure Pthreads (τ : Type) where
  started : Nat
  named : τ → Option Nat
  joined : List Nat

-- What the calls of the constructor return; `handle` is what `pthread_create` stores.
structure StartCalls (τ : Type) where
  attrInit : Int
  attrSetstacksize : Int
  create : Int
  handle : τ
deriving DecidableEq, Repr

def Pthreads.create (os : Pthreads τ) (calls : StartCalls τ) : Pthreads τ :=
  if calls.create = 0 then
    { os with
      started := os.started + 1
      named := Function.update os.named calls.handle (some os.started) }
  else os

def Pthreads.join (os : Pthreads τ) (handle : τ) (err : Int) : Pthreads τ :=
  if err = 0 then { os with joined := (os.named handle).toList ++ os.joined } else os

-- A `pthread_t` is used again only after its thread has been joined.
def Pthreads.mayStore (os : Pthreads τ) (handle : τ) : Bool :=
  (os.named handle).all os.joined.contains

structure State (τ : Type) where
  objects : Nat → Option (PlatformThread τ)
  os : Pthreads τ
  exit : Exit

def initial : State τ :=
  { objects := fun _ => none
    os := { started := 0, named := fun _ => none, joined := [] }
    exit := .returned }

def State.load (s : State τ) (self : Nat) : PlatformThread τ :=
  (s.objects self).getD .new

def State.store (s : State τ) (self : Nat) (object : PlatformThread τ) : State τ :=
  { s with objects := Function.update s.objects self (some object) }

def State.return (s : State τ) : State τ :=
  { s with exit := .returned }

def State.terminate (s : State τ) : State τ :=
  { s with exit := .terminated }

def State.throwSystemError (s : State τ) (code : Int) (message : String) : State τ :=
  { s with exit := .threw { code := code, category := .system, message := some message } }

def construct (s : State τ) (self stackSizeBytes : Nat) (calls : StartCalls τ) : State τ :=
  if calls.attrInit ≠ 0 then s.throwSystemError calls.attrInit "pthread_attr_init failed"
  else if stackSizeBytes ≠ 0 ∧ calls.attrSetstacksize ≠ 0 then
    s.throwSystemError calls.attrSetstacksize "pthread_attr_setstacksize failed"
  else
    let called := { s with os := s.os.create calls }
    if calls.create ≠ 0 then called.throwSystemError calls.create "pthread_create failed"
    else (called.store self { handle := calls.handle, joinable := true }).return

def moveAssign (s : State τ) (self other : Nat) : State τ :=
  if self = other then s.return
  else if (s.load self).joinable then s.terminate
  else
    let copied := s.store self { s.load self with handle := (s.load other).handle }
    -- `std::exchange` gives the old flag.
    let exchanged := copied.store other { copied.load other with joinable := false }
    let flag := (copied.load other).joinable
    (exchanged.store self { exchanged.load self with joinable := flag }).return

def moveConstruct (s : State τ) (self other : Nat) : State τ :=
  moveAssign (s.store self .new) self other

def destroy (s : State τ) (self : Nat) : State τ :=
  if (s.load self).joinable then s.terminate
  else { s with objects := Function.update s.objects self none, exit := .returned }

def join (s : State τ) (self : Nat) (err : Int) : State τ :=
  if ¬ (s.load self).joinable then
    { s with exit := .threw { code := invalidArgument, category := .generic, message := none } }
  else
    let called := { s with os := s.os.join (s.load self).handle err }
    if err ≠ 0 then called.throwSystemError err "pthread_join failed"
    else (called.store self (called.load self).reset).return

inductive Action (τ : Type) where
  | constructDefault (self : Nat)
  | construct (self stackSizeBytes : Nat) (calls : StartCalls τ)
  | moveConstruct (self other : Nat)
  | moveAssign (self other : Nat)
  -- `err` is what `pthread_join` returns.
  | join (self : Nat) (err : Int)
  | destroy (self : Nat)
deriving DecidableEq, Repr

-- Objects are constructed where there is none, and used where there is one.
def State.permits (s : State τ) : Action τ → Bool
  | .constructDefault self => (s.objects self).isNone
  | .construct self _ calls =>
      (s.objects self).isNone && (calls.create != 0 || s.os.mayStore calls.handle)
  | .moveConstruct self other => (s.objects self).isNone && (s.objects other).isSome
  | .moveAssign self other => (s.objects self).isSome && (s.objects other).isSome
  | .join self _ | .destroy self => (s.objects self).isSome

def State.perform (s : State τ) : Action τ → State τ
  | .constructDefault self => (s.store self .new).return
  | .construct self stackSizeBytes calls => ThreadOwnership.construct s self stackSizeBytes calls
  | .moveConstruct self other => ThreadOwnership.moveConstruct s self other
  | .moveAssign self other => ThreadOwnership.moveAssign s self other
  | .join self err => ThreadOwnership.join s self err
  | .destroy self => ThreadOwnership.destroy s self

def step (s : State τ) (a : Action τ) : Option (State τ) :=
  if s.exit ≠ .terminated ∧ s.permits a then some (s.perform a) else none

def system : System (State τ) (Action τ) :=
  { init := fun s => s = initial
    step := step }

end Model

section Ownership

variable {τ : Type}

def Pthreads.ownedBy (os : Pthreads τ) (object : PlatformThread τ) : Option Nat :=
  if object.joinable then os.named object.handle else none

def State.owned (s : State τ) (self : Nat) : Option Nat :=
  (s.objects self).bind s.os.ownedBy

def Pthreads.outstanding (os : Pthreads τ) (thread : Nat) : Prop :=
  thread < os.started ∧ thread ∉ os.joined

def Pthreads.names (os : Pthreads τ) (object : PlatformThread τ) : Prop :=
  object.joinable = true → ∃ thread, os.named object.handle = some thread

structure Sound (s : State τ) : Prop where
  custody : Exclusive s.owned s.os.outstanding
  named : ∀ self object, s.objects self = some object → s.os.names object
  joinedOnce : s.os.joined.Nodup
  joinedStarted : ∀ thread ∈ s.os.joined, thread < s.os.started

theorem Sound.initial : Sound (initial : State τ) where
  custody := Exclusive.empty fun _ out => Nat.not_lt_zero _ out.1
  named := by
    intro self object here
    cases here
  joinedOnce := List.nodup_nil
  joinedStarted := by
    intro thread member
    cases member

variable {s : State τ} {self : Nat} {object : PlatformThread τ}

theorem ownedBy_of_not_joinable {os : Pthreads τ} (free : object.joinable = false) :
    os.ownedBy object = none := by
  rw [Pthreads.ownedBy, free]
  rfl

theorem names_of_not_joinable {os : Pthreads τ} (free : object.joinable = false) :
    os.names object := by
  intro flag
  rw [free] at flag
  cases flag

theorem owned_of_object (here : s.objects self = some object) :
    s.owned self = s.os.ownedBy object := by
  rw [State.owned, here]
  rfl

theorem owned_of_absent (absent : s.objects self = none) : s.owned self = none := by
  rw [State.owned, absent]
  rfl

theorem owned_update (objects : Nat → Option (PlatformThread τ)) (os : Pthreads τ) (exit : Exit)
    (self : Nat) (entry : Option (PlatformThread τ)) :
    State.owned { objects := Function.update objects self entry, os := os, exit := exit } =
      Function.update (State.owned { objects := objects, os := os, exit := exit }) self
        (entry.bind os.ownedBy) := by
  funext i
  by_cases same : i = self
  · subst same
    simp [State.owned]
  · simp [State.owned, same]

theorem Sound.exit (sound : Sound s) (exit : Exit) : Sound { s with exit := exit } where
  custody := sound.custody
  named := sound.named
  joinedOnce := sound.joinedOnce
  joinedStarted := sound.joinedStarted

theorem Sound.update_free (sound : Sound s) {entry : Option (PlatformThread τ)}
    (free : s.owned self = none) (later : ∀ object, entry = some object → object.joinable = false)
    (exit : Exit) :
    Sound { s with objects := Function.update s.objects self entry, exit := exit } := by
  have nothing : entry.bind s.os.ownedBy = none := by
    cases entry with
    | none => rfl
    | some object => exact ownedBy_of_not_joinable (later object rfl)
  have kept : State.owned { s with objects := Function.update s.objects self entry, exit := exit } =
      s.owned := by
    rw [owned_update, nothing, ← free]
    exact Function.update_eq_self self s.owned
  constructor
  case custody =>
    rw [kept]
    exact sound.custody
  case named =>
    exact forall_update sound.named fun object here => names_of_not_joinable (later object here)
  case joinedOnce => exact sound.joinedOnce
  case joinedStarted => exact sound.joinedStarted

theorem Sound.transfer (sound : Sound s) {other : Nat} {source : PlatformThread τ}
    (here : s.objects other = some source) (free : s.owned self = none) (different : self ≠ other) :
    Sound
      { s with
        objects := Function.update
          (Function.update s.objects other (some { source with joinable := false }))
          self (some source)
        exit := .returned } := by
  constructor
  case custody =>
    have moved := sound.custody.transfer free different
    rw [owned_update, owned_update]
    rw [owned_of_object here] at moved
    exact moved
  case named =>
    refine forall_update (forall_update sound.named ?_) ?_
    · intro object emptied
      cases emptied
      exact names_of_not_joinable rfl
    · intro object arrived
      cases arrived
      exact sound.named other source here
  case joinedOnce => exact sound.joinedOnce
  case joinedStarted => exact sound.joinedStarted

theorem outstanding_joined (os : Pthreads τ) (thread other : Nat) :
    ({ os with joined := thread :: os.joined } : Pthreads τ).outstanding other ↔
      os.outstanding other ∧ other ≠ thread := by
  simp only [Pthreads.outstanding, List.mem_cons, not_or]
  constructor
  · rintro ⟨started, different, unjoined⟩
    exact ⟨⟨started, unjoined⟩, different⟩
  · rintro ⟨⟨started, unjoined⟩, different⟩
    exact ⟨started, different, unjoined⟩

theorem Sound.joined (sound : Sound s) {thread : Nat} (owner : s.owned self = some thread)
    {emptied : PlatformThread τ} (free : emptied.joinable = false) :
    Sound
      { objects := Function.update s.objects self (some emptied)
        os := { s.os with joined := thread :: s.os.joined }
        exit := .returned } := by
  have out := sound.custody.outstanding_of_held owner
  constructor
  case custody =>
    have released := sound.custody.release owner (outstanding_joined s.os thread)
    have nothing : (some emptied).bind s.os.ownedBy = none := ownedBy_of_not_joinable free
    rw [← nothing] at released
    rw [owned_update]
    exact released
  case named =>
    refine forall_update sound.named ?_
    intro later arrived
    cases arrived
    exact names_of_not_joinable free
  case joinedOnce => exact List.nodup_cons.mpr ⟨out.2, sound.joinedOnce⟩
  case joinedStarted => exact List.forall_mem_cons.mpr ⟨out.1, sound.joinedStarted⟩

theorem Sound.owner (sound : Sound s) (here : s.objects self = some object)
    (flag : object.joinable = true) :
    ∃ thread, s.os.named object.handle = some thread ∧ s.owned self = some thread := by
  obtain ⟨thread, named⟩ := sound.named self object here flag
  refine ⟨thread, named, ?_⟩
  rw [owned_of_object here, Pthreads.ownedBy, if_pos flag, named]

theorem Sound.handle_ne (sound : Sound s) {handle : τ} (reusable : s.os.mayStore handle = true)
    (here : s.objects self = some object) (flag : object.joinable = true) :
    object.handle ≠ handle := by
  intro same
  obtain ⟨thread, named, owner⟩ := sound.owner here flag
  have out := sound.custody.outstanding_of_held owner
  rw [Pthreads.mayStore, ← same, named, Option.all_some, List.contains_iff_mem] at reusable
  exact out.2 reusable

section Start

variable [DecidableEq τ] {calls : StartCalls τ}

theorem create_eq (os : Pthreads τ) (created : calls.create = 0) :
    os.create calls =
      { started := os.started + 1
        named := Function.update os.named calls.handle (some os.started)
        joined := os.joined } := by
  rw [Pthreads.create, if_pos created]

theorem Sound.named_create (sound : Sound s) (created : calls.create = 0)
    (reusable : s.os.mayStore calls.handle = true) (here : s.objects self = some object)
    (flag : object.joinable = true) :
    (s.os.create calls).named object.handle = s.os.named object.handle := by
  rw [create_eq s.os created]
  exact Function.update_of_ne (sound.handle_ne reusable here flag) _ _

theorem Sound.outstanding_create (sound : Sound s) (created : calls.create = 0) (other : Nat) :
    (s.os.create calls).outstanding other ↔ s.os.outstanding other ∨ other = s.os.started := by
  rw [create_eq s.os created]
  simp only [Pthreads.outstanding]
  constructor
  · rintro ⟨started, unjoined⟩
    rcases Nat.lt_succ_iff_lt_or_eq.mp started with earlier | latest
    · exact .inl ⟨earlier, unjoined⟩
    · exact .inr latest
  · rintro (⟨earlier, unjoined⟩ | rfl)
    · exact ⟨Nat.lt_succ_of_lt earlier, unjoined⟩
    · refine ⟨Nat.lt_succ_self _, ?_⟩
      intro member
      exact Nat.lt_irrefl _ (sound.joinedStarted _ member)

theorem Sound.owned_create (sound : Sound s) (created : calls.create = 0)
    (reusable : s.os.mayStore calls.handle = true) (exit : Exit) :
    State.owned { objects := s.objects, os := s.os.create calls, exit := exit } = s.owned := by
  funext i
  cases here : s.objects i with
  | none => simp only [State.owned, here, Option.bind_none]
  | some object =>
      simp only [State.owned, here, Option.bind_some, Pthreads.ownedBy]
      cases flag : object.joinable with
      | false => rfl
      | true => rw [sound.named_create created reusable here flag]

theorem Sound.start (sound : Sound s) (created : calls.create = 0)
    (reusable : s.os.mayStore calls.handle = true) (free : s.owned self = none) :
    Sound
      { objects := Function.update s.objects self (some { handle := calls.handle, joinable := true })
        os := s.os.create calls
        exit := .returned } := by
  have named : (s.os.create calls).named calls.handle = some s.os.started := by
    rw [create_eq s.os created]
    exact Function.update_self _ _ _
  constructor
  case custody =>
    have fresh : ¬ s.os.outstanding s.os.started := fun out => Nat.lt_irrefl _ out.1
    have given : (some { handle := calls.handle, joinable := true }).bind
        (s.os.create calls).ownedBy = some s.os.started := named
    have granted := sound.custody.grant free fresh (sound.outstanding_create created)
    rw [owned_update, sound.owned_create created reusable, given]
    exact granted
  case named =>
    refine forall_update ?_ ?_
    · intro i object here flag
      obtain ⟨thread, old⟩ := sound.named i object here flag
      refine ⟨thread, ?_⟩
      rw [sound.named_create created reusable here flag, old]
    · intro object arrived _
      cases arrived
      exact ⟨s.os.started, named⟩
  case joinedOnce =>
    rw [create_eq s.os created]
    exact sound.joinedOnce
  case joinedStarted =>
    rw [create_eq s.os created]
    intro thread member
    exact Nat.lt_succ_of_lt (sound.joinedStarted thread member)

theorem Sound.construct (sound : Sound s) (free : s.objects self = none)
    (stackSizeBytes : Nat)
    (reusable : calls.create = 0 → s.os.mayStore calls.handle = true) :
    Sound (ThreadOwnership.construct s self stackSizeBytes calls) := by
  rw [ThreadOwnership.construct]
  by_cases attrInit : calls.attrInit = 0
  · rw [if_neg (not_not.mpr attrInit)]
    by_cases attrSetstacksize : stackSizeBytes ≠ 0 ∧ calls.attrSetstacksize ≠ 0
    · rw [if_pos attrSetstacksize]
      exact sound.exit _
    · rw [if_neg attrSetstacksize]
      by_cases created : calls.create = 0
      · rw [if_neg (not_not.mpr created)]
        exact sound.start created (reusable created) (owned_of_absent free)
      · have unchanged : s.os.create calls = s.os := if_neg created
        rw [if_pos created, unchanged]
        exact sound.exit _
  · rw [if_pos attrInit]
    exact sound.exit _

end Start

end Ownership

section Operations

variable {τ : Type} [Inhabited τ] {s : State τ} {self other : Nat} {object : PlatformThread τ}

theorem load_of_object (here : s.objects self = some object) : s.load self = object := by
  rw [State.load, here]
  rfl

theorem owned_of_not_joinable (free : (s.load self).joinable = false) : s.owned self = none := by
  cases here : s.objects self with
  | none => exact owned_of_absent here
  | some object =>
      rw [load_of_object here] at free
      rw [owned_of_object here, ownedBy_of_not_joinable free]

theorem joinable_of_owned {thread : Nat} (owner : s.owned self = some thread) :
    (s.load self).joinable = true := by
  cases flag : (s.load self).joinable with
  | true => rfl
  | false =>
      rw [owned_of_not_joinable flag] at owner
      cases owner

theorem moveAssign_self : moveAssign s self self = s.return := by
  rw [moveAssign, if_pos rfl]

theorem moveAssign_joinable (different : self ≠ other) (flag : (s.load self).joinable = true) :
    moveAssign s self other = s.terminate := by
  rw [moveAssign, if_neg different, if_pos flag]

theorem moveAssign_free (different : self ≠ other) (free : (s.load self).joinable = false)
    (here : s.objects other = some object) :
    moveAssign s self other =
      { s with
        objects := Function.update
          (Function.update s.objects other (some { object with joinable := false }))
          self (some object)
        exit := .returned } := by
  have copied (entry : PlatformThread τ) : (s.store self entry).load other = object := by
    apply load_of_object
    exact (Function.update_of_ne different.symm _ _).trans here
  have loaded (entry : PlatformThread τ) (t : State τ) : (t.store self entry).load self = entry :=
    load_of_object (Function.update_self _ _ _)
  have swapped (t : State τ) (first second : PlatformThread τ) :
      (t.store self first).store other second = (t.store other second).store self first := by
    simp only [State.store, Function.update_comm different.symm]
  rw [moveAssign, if_neg different, if_neg (Bool.eq_false_iff.mp free)]
  simp only [copied, swapped, loaded, load_of_object here]
  simp only [State.store, State.return, Function.update_idem]

theorem destroy_joinable (flag : (s.load self).joinable = true) :
    destroy s self = s.terminate := by
  rw [destroy, if_pos flag]

theorem destroy_free (free : (s.load self).joinable = false) :
    destroy s self = { s with objects := Function.update s.objects self none, exit := .returned } := by
  rw [destroy, if_neg (Bool.eq_false_iff.mp free)]

theorem join_not_joinable (err : Int) (free : (s.load self).joinable = false) :
    join s self err =
      { s with exit := .threw { code := invalidArgument, category := .generic, message := none } } := by
  rw [join, if_pos (Bool.eq_false_iff.mp free)]

theorem join_error {err : Int} (flag : (s.load self).joinable = true) (error : err ≠ 0) :
    join s self err = s.throwSystemError err "pthread_join failed" := by
  have unjoined : s.os.join (s.load self).handle err = s.os := if_neg error
  rw [join, if_neg (not_not.mpr flag), unjoined, if_pos error]

theorem join_joined (flag : (s.load self).joinable = true) :
    join s self 0 =
      { objects := Function.update s.objects self (some .new)
        os := s.os.join (s.load self).handle 0
        exit := .returned } := by
  rw [join, if_neg (not_not.mpr flag), if_neg (not_not.mpr rfl)]
  rfl

theorem join_failed {err : Int} (failed : (join s self err).exit ≠ .returned) :
    (join s self err).objects = s.objects ∧ (join s self err).os = s.os := by
  cases flag : (s.load self).joinable with
  | false =>
      rw [join_not_joinable err flag]
      exact ⟨rfl, rfl⟩
  | true =>
      by_cases error : err = 0
      · subst error
        rw [join_joined flag] at failed
        exact absurd rfl failed
      · rw [join_error flag error]
        exact ⟨rfl, rfl⟩

theorem Sound.destroy (sound : Sound s) (self : Nat) :
    Sound (ThreadOwnership.destroy s self) := by
  cases flag : (s.load self).joinable with
  | false =>
      rw [destroy_free flag]
      refine sound.update_free (owned_of_not_joinable flag) ?_ .returned
      intro object here
      cases here
  | true =>
      rw [destroy_joinable flag]
      exact sound.exit .terminated

theorem Sound.moveAssign (sound : Sound s) (here : s.objects other = some object) (self : Nat) :
    Sound (ThreadOwnership.moveAssign s self other) := by
  by_cases same : self = other
  · subst same
    rw [moveAssign_self]
    exact sound.exit .returned
  · cases flag : (s.load self).joinable with
    | false =>
        rw [moveAssign_free same flag here]
        exact sound.transfer here (owned_of_not_joinable flag) same
    | true =>
        rw [moveAssign_joinable same flag]
        exact sound.exit .terminated

theorem Sound.join (sound : Sound s) (here : s.objects self = some object) (err : Int) :
    Sound (ThreadOwnership.join s self err) := by
  cases flag : (s.load self).joinable with
  | false =>
      rw [join_not_joinable err flag]
      exact sound.exit _
  | true =>
      by_cases error : err = 0
      · subst error
        rw [join_joined flag]
        rw [load_of_object here] at flag ⊢
        obtain ⟨thread, named, owner⟩ := sound.owner here flag
        have os : s.os.join object.handle 0 = { s.os with joined := thread :: s.os.joined } := by
          rw [Pthreads.join, if_pos rfl, named]
          rfl
        rw [os]
        exact sound.joined owner rfl
      · rw [join_error flag error]
        exact sound.exit _

theorem Sound.constructDefault (sound : Sound s) (free : s.objects self = none) :
    Sound { s with objects := Function.update s.objects self (some .new) } := by
  refine sound.update_free (owned_of_absent free) ?_ s.exit
  intro object here
  cases here
  rfl

theorem Sound.moveConstruct (sound : Sound s) (free : s.objects self = none)
    (here : s.objects other = some object) :
    Sound (ThreadOwnership.moveConstruct s self other) := by
  have different : other ≠ self := by
    rintro rfl
    rw [free] at here
    cases here
  have made := sound.constructDefault free
  exact made.moveAssign ((Function.update_of_ne different _ _).trans here) self

theorem step_some [DecidableEq τ] {a : Action τ} {t : State τ} (taken : step s a = some t) :
    s.permits a = true ∧ s.perform a = t := by
  rw [step] at taken
  split_ifs at taken with permitted
  exact ⟨permitted.2, Option.some.inj taken⟩

theorem Sound.step [DecidableEq τ] (sound : Sound s) {a : Action τ} {t : State τ}
    (taken : ThreadOwnership.step s a = some t) : Sound t := by
  obtain ⟨permitted, rfl⟩ := step_some taken
  cases a with
  | constructDefault self =>
      exact (sound.constructDefault (Option.isNone_iff_eq_none.mp permitted)).exit .returned
  | construct self stackSizeBytes calls =>
      simp only [State.permits, Bool.and_eq_true, Option.isNone_iff_eq_none, Bool.or_eq_true,
        bne_iff_ne] at permitted
      exact sound.construct permitted.1 stackSizeBytes fun created =>
        permitted.2.resolve_left (not_not.mpr created)
  | moveConstruct self other =>
      simp only [State.permits, Bool.and_eq_true, Option.isNone_iff_eq_none] at permitted
      obtain ⟨object, here⟩ := Option.isSome_iff_exists.mp permitted.2
      exact sound.moveConstruct permitted.1 here
  | moveAssign self other =>
      simp only [State.permits, Bool.and_eq_true] at permitted
      obtain ⟨object, here⟩ := Option.isSome_iff_exists.mp permitted.2
      exact sound.moveAssign here self
  | join self err =>
      obtain ⟨object, here⟩ := Option.isSome_iff_exists.mp permitted
      exact sound.join here err
  | destroy self => exact sound.destroy self

theorem sound_of_reachable [DecidableEq τ] (reached : Reachable system s) : Sound s := by
  refine reached.invariant Sound ?_ ?_
  · rintro s rfl
    exact Sound.initial
  · intro s a t sound taken
    exact sound.step taken

end Operations

section Runs

variable {τ : Type}

structure Ownership (s : State τ) : Prop where
  exclusive : ∀ i j thread, s.owned i = some thread → s.owned j = some thread → i = j
  -- `pthread_join` is only called for a thread that is still to be joined.
  live : ∀ self object, s.objects self = some object → object.joinable = true →
    ∃ thread, s.os.named object.handle = some thread ∧ s.os.outstanding thread
  joinedOnce : s.os.joined.Nodup
  accounted : ∀ thread < s.os.started, thread ∈ s.os.joined ∨ ∃ self, s.owned self = some thread

structure Guarded (s : State τ) (a : Action τ) (t : State τ) : Prop where
  failedJoin : ∀ self err, a = .join self err → t.exit ≠ .returned →
    t.objects = s.objects ∧ t.os = s.os
  selfAssignment : ∀ self, a = .moveAssign self self → t = s.return
  destroyed : ∀ self thread, a = .destroy self → s.owned self = some thread → t = s.terminate
  overwritten : ∀ self other thread, a = .moveAssign self other → self ≠ other →
    s.owned self = some thread → t = s.terminate

variable {s t : State τ}

theorem Sound.ownership (sound : Sound s) : Ownership s where
  exclusive := sound.custody.unique
  live := by
    intro self object here flag
    obtain ⟨thread, named, owner⟩ := sound.owner here flag
    exact ⟨thread, named, sound.custody.outstanding_of_held owner⟩
  joinedOnce := sound.joinedOnce
  accounted := by
    intro thread started
    by_cases joined : thread ∈ s.os.joined
    · exact .inl joined
    · exact .inr ((sound.custody.outstanding_iff thread).mp ⟨started, joined⟩)

variable [DecidableEq τ] [Inhabited τ]

theorem guarded_of_step {a : Action τ} (taken : step s a = some t) : Guarded s a t := by
  obtain ⟨_, rfl⟩ := step_some taken
  constructor
  case failedJoin =>
    rintro self err rfl failed
    exact join_failed failed
  case selfAssignment =>
    rintro self rfl
    exact moveAssign_self
  case destroyed =>
    rintro self thread rfl owner
    exact destroy_joinable (joinable_of_owned owner)
  case overwritten =>
    rintro self other thread rfl different owner
    exact moveAssign_joinable different (joinable_of_owned owner)

/-- Whatever is done to the objects, a started thread has one owner until it is joined, and an
owner that would be destroyed or overwritten ends the program instead. -/
theorem threads_owned (reached : Reachable system s) :
    Ownership s ∧ ∀ a t, step s a = some t → Guarded s a t := by
  constructor
  · exact (sound_of_reachable reached).ownership
  · intro a t taken
    exact guarded_of_step taken

def handOver : List (Action Nat) :=
  [.construct 0 0 ⟨0, 0, 0, 7⟩, .moveConstruct 1 0, .join 1 35, .moveAssign 0 1, .moveAssign 0 0,
    .join 0 0, .construct 2 4096 ⟨0, 0, 0, 7⟩, .join 1 0, .destroy 1, .destroy 2]

theorem threads_owned_after_handOver :
    ∃ s : State Nat, s.os.joined = [0] ∧ s.owned 2 = some 1 ∧ s.exit = .terminated ∧
      Ownership s ∧ ∀ a t, step s a = some t → Guarded s a t := by
  obtain ⟨history, s, run, checked⟩ := system.exists_run rfl handOver
    (fun _ s => s.os.joined == [0] && s.owned 2 == some 1 && s.exit == .terminated)
    (by decide +kernel)
  simp only [Bool.and_eq_true, beq_iff_eq] at checked
  exact ⟨s, checked.1.1, checked.1.2, checked.2, threads_owned run.reachable⟩

theorem getId_equal_iff (reached : Reachable system s) {i j : Nat}
    {first second : PlatformThread τ} (here : s.objects i = some first)
    (there : s.objects j = some second) :
    first.getId.equal second.getId = true ↔
      i = j ∨ (first.joinable = false ∧ second.joinable = false) := by
  have sound := sound_of_reachable reached
  have one (same : i = j) : first = second := by
    subst same
    rw [here] at there
    exact Option.some.inj there
  cases left : first.joinable <;> cases right : second.joinable
  case false.false => simp [PlatformThread.getId, Id.equal, left, right]
  case true.true =>
    have handles : i = j ↔ first.handle = second.handle := by
      constructor
      · intro same
        rw [one same]
      · intro same
        obtain ⟨thread, named, owner⟩ := sound.owner here left
        obtain ⟨other, otherNamed, otherOwner⟩ := sound.owner there right
        rw [← same, named] at otherNamed
        cases otherNamed
        exact sound.custody.unique i j thread owner otherOwner
    simp [PlatformThread.getId, Id.equal, left, right, handles]
  all_goals
    have different : i ≠ j := by
      intro same
      rw [one same, right] at left
      cases left
    simp [PlatformThread.getId, Id.equal, left, right, different]

end Runs

end BreezeJs.ThreadOwnership
