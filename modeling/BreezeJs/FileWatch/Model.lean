import BreezeJs.FileWatch.Inotify
import BreezeJs.Library.Transition

set_option autoImplicit false

namespace BreezeJs.FileWatch

open Infra Transition

inductive WatchPc where
  -- In front of `while (_destory == false)`.
  | test
  | reading
  -- `parsed_information` is complete, and the lock is to be taken.
  | locking (parsed : List Notice)
  | inserting (parsed : List Notice)
  -- The lock is released, `notify_all` is to come.
  | notifying
  | exited
deriving DecidableEq, Repr

inductive CallbackPc where
  | test
  | locking
  | checking
  -- The predicate of `_cv.wait` is evaluated.
  | predicate
  | entering
  | blocked
  -- Notified (or woken spuriously), before the lock is taken back.
  | relocking
  | swapping
  | delivering (batch : List Notice)
  -- An exception that is no `std::exception` destroys the rest of its batch.
  | exited (abandoned : List Notice)
deriving DecidableEq, Repr

inductive OwnerPc where
  | idle
  | flagged
  | removed
  | joiningWatch
  | joiningCallback
  | destroyed
deriving DecidableEq, Repr

inductive Holder where
  | watch
  | callback
deriving DecidableEq, Repr

inductive Outcome where
  | returned
  | threwException
  | threwOther
deriving DecidableEq, Repr

structure State where
  -- The inotify instance: whether it still has its watch, and what `read` has not fetched.
  watched : Bool
  unread : List InotifyEvent
  destory : Bool
  mutex : Option Holder
  information : List Notice
  watch : WatchPc
  callback : CallbackPc
  owner : OwnerPc
  -- All records the kernel has ever queued, and all calls of `_callback`.
  queued : List InotifyEvent
  delivered : List Notice
deriving DecidableEq

inductive Action where
  | happen (event : InotifyEvent)
  | vanish
  -- The next step of the watch thread; `count` records fit into what `read` returns.
  | watch (count : Nat)
  | interrupted
  -- The next step of the callback thread; `outcome` is that of `_callback`, where it is called.
  | callback (outcome : Outcome)
  | spuriousWake
  | destroy
deriving DecidableEq

def bufferSize : Nat := 262144

-- The removal of a watch queues `IN_IGNORED`, without a name.
def ignored : InotifyEvent where
  wd := 1
  mask := 0x8000
  cookie := 0
  name := []
  short := Nat.zero_le _
  terminated := .inl rfl

def State.queue (s : State) (event : InotifyEvent) : State :=
  { s with unread := s.unread ++ [event], queued := s.queued ++ [event] }

def State.removeWatch (s : State) : State :=
  if s.watched then { s.queue ignored with watched := false } else s

-- The callback thread is the only waiter of `_cv`.
def CallbackPc.notified : CallbackPc → CallbackPc
  | .blocked => .relocking
  | pc => pc

def initial : State where
  watched := true
  unread := []
  destory := false
  mutex := none
  information := []
  watch := .test
  callback := .test
  owner := .idle
  queued := []
  delivered := []

def fits (events : List InotifyEvent) : Bool :=
  decide ((events.flatMap InotifyEvent.encode).length ≤ bufferSize)

def State.watchStep (pass : Bytes → Bool) (s : State) (count : Nat) : Option State :=
  match s.watch with
  | .test =>
      if s.destory then some { s with watch := .exited } else some { s with watch := .reading }
  | .reading =>
      if s.unread.take count ≠ [] ∧ fits (s.unread.take count) then
        some { s with
          unread := s.unread.drop count
          watch := .locking (parse pass ((s.unread.take count).flatMap InotifyEvent.encode)) }
      else none
  | .locking parsed =>
      if s.mutex = none then some { s with mutex := some .watch, watch := .inserting parsed }
      else none
  | .inserting parsed =>
      some { s with
        mutex := none
        information := s.information ++ parsed
        watch := .notifying }
  | .notifying => some { s with callback := s.callback.notified, watch := .test }
  | .exited => none

def State.callbackStep (s : State) (outcome : Outcome) : Option State :=
  match s.callback with
  | .test =>
      if s.destory then some { s with callback := .exited [] }
      else some { s with callback := .locking }
  | .locking =>
      if s.mutex = none then some { s with mutex := some .callback, callback := .checking }
      else none
  | .checking =>
      some { s with
        callback := if s.information.isEmpty && !s.destory then .predicate else .swapping }
  | .predicate =>
      some { s with
        callback := if !s.information.isEmpty || s.destory then .swapping else .entering }
  | .entering => some { s with mutex := none, callback := .blocked }
  | .relocking =>
      if s.mutex = none then some { s with mutex := some .callback, callback := .predicate }
      else none
  | .swapping =>
      some { s with
        mutex := none
        information := []
        callback := .delivering s.information }
  | .delivering [] => some { s with callback := .test }
  | .delivering (file :: rest) =>
      some { s with
        delivered := s.delivered ++ [file]
        callback := if outcome = .threwOther then .exited rest else .delivering rest }
  | .blocked | .exited _ => none

def CallbackPc.isExited : CallbackPc → Bool
  | .exited _ => true
  | _ => false

def State.destroyStep (s : State) : Option State :=
  match s.owner with
  | .idle => some { s with destory := true, owner := .flagged }
  | .flagged => some { s.removeWatch with owner := .removed }
  | .removed => some { s with callback := s.callback.notified, owner := .joiningWatch }
  | .joiningWatch => if s.watch = .exited then some { s with owner := .joiningCallback } else none
  | .joiningCallback => if s.callback.isExited then some { s with owner := .destroyed } else none
  | .destroyed => none

def step (pass : Bytes → Bool) (s : State) : Action → Option State
  | .happen event => if s.watched then some (s.queue event) else none
  | .vanish => if s.watched then some s.removeWatch else none
  | .watch count => s.watchStep pass count
  | .interrupted => if s.watch = .reading then some { s with watch := .test } else none
  | .callback outcome => s.callbackStep outcome
  | .spuriousWake =>
      if s.callback = .blocked then some { s with callback := .relocking } else none
  | .destroy => s.destroyStep

-- `get_directory` has set up the watch before the threads start.
def system (pass : Bytes → Bool) : System State Action where
  init s := s = initial
  step := step pass

end BreezeJs.FileWatch
