import BreezeJs.Library.Transition

set_option autoImplicit false

namespace BreezeJs.EventLoop

-- Tasks are named by the index of the `post` call that enqueued them.

open Transition

-- `std::atomic<size_t>` on the 64-bit targets.
def sizeRange : Nat := 18446744073709551616

-- A queued `std::function` takes more than two bytes of the address space.
def maxTasks : Nat := 9223372036854775808

inductive PostStage where
  | enqueued
  | counted
  | locked
  | unlocked
  | returned
deriving DecidableEq, Repr

structure Post (τ : Type) where
  task : τ
  stage : PostStage
deriving DecidableEq, Repr

inductive LoopPc where
  | tryDequeue
  | testDeadline (task : Nat)
  | fetchSub (task : Nat)
  | runTask (task : Nat)
  | exitTest
  | lockMutex
  | evalPredicate
  -- The predicate was false and `cv_mutex` is still held.
  | enterWait
  -- Inside `wait`, with no notification pending.
  | blocked
  -- Notified (or woken spuriously), before `cv_mutex` is taken back.
  | relock
  | unlockMutex
  | exited
deriving DecidableEq, Repr

inductive StopPc where
  | idle
  | deadlineSet
  | joining
  | joined
deriving DecidableEq, Repr

inductive Owner where
  | jsThread
  | post (call : Nat)
deriving DecidableEq, Repr

structure State (τ : Type) where
  taskQueue : List Nat
  taskQueueSize : Nat
  shutdownDeadline : Option Nat
  cvMutex : Option Owner
  clock : Nat
  posts : List (Post τ)
  pc : LoopPc
  stop : StopPc
  executed : List Nat
deriving DecidableEq, Repr

inductive Action (τ : Type) where
  | enqueue (task : τ)
  | fetchAdd (call : Nat)
  | lock (call : Nat)
  | unlock (call : Nat)
  | notifyOne (call : Nat)
  -- The next step of the JS thread; `choice` is the queue position `try_dequeue` takes from.
  | js (choice : Nat)
  | spuriousWake
  | setDeadline (timeout : Nat)
  | notifyAll
  | join
  | tick
deriving DecidableEq, Repr

variable {τ : Type}

def initial (now : Nat) : State τ :=
  { taskQueue := []
    taskQueueSize := 0
    shutdownDeadline := none
    cvMutex := none
    clock := now
    posts := []
    pc := .tryDequeue
    stop := .idle
    executed := [] }

-- `!shutdown_deadline || now() < *shutdown_deadline` fails.
def State.deadlinePassed (s : State τ) : Bool :=
  match s.shutdownDeadline with
  | none => false
  | some deadline => decide (deadline ≤ s.clock)

def setStage (posts : List (Post τ)) (call : Nat) (p : Post τ) (stage : PostStage) :
    List (Post τ) :=
  posts.set call { p with stage := stage }

def advance (posts : List (Post τ)) (call : Nat) (source target : PostStage) :
    Option (List (Post τ)) :=
  match posts[call]? with
  | some p => if p.stage = source then some (setStage posts call p target) else none
  | none => none

-- The JS thread is the only waiter of `task_queue_cv`.
def LoopPc.notified : LoopPc → LoopPc
  | .blocked => .relock
  | pc => pc

def State.loopStep (s : State τ) (choice : Nat) : Option (State τ) :=
  match s.pc with
  | .tryDequeue =>
      if s.taskQueue = [] then some { s with pc := .exitTest }
      else match s.taskQueue[choice]? with
        | some task =>
            some { s with taskQueue := s.taskQueue.eraseIdx choice, pc := .testDeadline task }
        | none => none
  | .testDeadline task =>
      -- The task is off the queue and not counted down when the second conjunct fails.
      if s.deadlinePassed then some { s with pc := .exitTest }
      else some { s with pc := .fetchSub task }
  | .fetchSub task =>
      some { s with
        taskQueueSize := (s.taskQueueSize + (sizeRange - 1)) % sizeRange
        pc := .runTask task }
  | .runTask task => some { s with executed := s.executed ++ [task], pc := .tryDequeue }
  | .exitTest =>
      if s.shutdownDeadline.isSome && s.taskQueueSize == 0 then some { s with pc := .exited }
      else some { s with pc := .lockMutex }
  | .lockMutex | .relock =>
      if s.cvMutex = none then some { s with cvMutex := some .jsThread, pc := .evalPredicate }
      else none
  | .evalPredicate =>
      if decide (0 < s.taskQueueSize) || s.shutdownDeadline.isSome then
        some { s with pc := .unlockMutex }
      else some { s with pc := .enterWait }
  | .enterWait => some { s with cvMutex := none, pc := .blocked }
  | .unlockMutex => some { s with cvMutex := none, pc := .tryDequeue }
  | .blocked | .exited => none

def step (s : State τ) : Action τ → Option (State τ)
  | .enqueue task =>
      if s.taskQueue.length + 1 < maxTasks then
        some { s with
          taskQueue := s.taskQueue ++ [s.posts.length]
          posts := s.posts ++ [⟨task, .enqueued⟩] }
      else none
  | .fetchAdd call =>
      (advance s.posts call .enqueued .counted).map fun posts =>
        { s with posts := posts, taskQueueSize := (s.taskQueueSize + 1) % sizeRange }
  | .lock call =>
      if s.cvMutex = none then
        (advance s.posts call .counted .locked).map fun posts =>
          { s with posts := posts, cvMutex := some (.post call) }
      else none
  | .unlock call =>
      (advance s.posts call .locked .unlocked).map fun posts =>
        { s with posts := posts, cvMutex := none }
  | .notifyOne call =>
      (advance s.posts call .unlocked .returned).map fun posts =>
        { s with posts := posts, pc := s.pc.notified }
  | .js choice => s.loopStep choice
  | .spuriousWake => if s.pc = .blocked then some { s with pc := .relock } else none
  | .setDeadline timeout =>
      if s.stop = .idle then
        some { s with shutdownDeadline := some (s.clock + timeout), stop := .deadlineSet }
      else none
  | .notifyAll =>
      if s.stop = .deadlineSet then some { s with pc := s.pc.notified, stop := .joining } else none
  | .join =>
      if s.stop = .joining ∧ s.pc = .exited then some { s with stop := .joined } else none
  | .tick => some { s with clock := s.clock + 1 }

def system (τ : Type) : System (State τ) (Action τ) :=
  { init := fun s => ∃ now, s = initial now
    step := step }

end BreezeJs.EventLoop
