import BreezeJs.EventLoop.Model

set_option autoImplicit false

namespace BreezeJs.EventLoop

open Transition

variable {τ : Type}

-- What a step can do, with its guard: every branch of `step` is one constructor.
inductive Step (s : State τ) : Action τ → State τ → Prop
  | enqueue (task : τ) : s.taskQueue.length + 1 < maxTasks →
      Step s (.enqueue task)
        { s with
          taskQueue := s.taskQueue ++ [s.posts.length]
          posts := s.posts ++ [⟨task, .enqueued⟩] }
  | fetchAdd (call : Nat) (p : Post τ) : s.posts[call]? = some p → p.stage = .enqueued →
      Step s (.fetchAdd call)
        { s with
          posts := setStage s.posts call p .counted
          taskQueueSize := (s.taskQueueSize + 1) % sizeRange }
  | lock (call : Nat) (p : Post τ) : s.posts[call]? = some p → p.stage = .counted →
      s.cvMutex = none →
      Step s (.lock call)
        { s with posts := setStage s.posts call p .locked, cvMutex := some (.post call) }
  | unlock (call : Nat) (p : Post τ) : s.posts[call]? = some p → p.stage = .locked →
      Step s (.unlock call)
        { s with posts := setStage s.posts call p .unlocked, cvMutex := none }
  | notifyOne (call : Nat) (p : Post τ) : s.posts[call]? = some p → p.stage = .unlocked →
      Step s (.notifyOne call)
        { s with posts := setStage s.posts call p .returned, pc := s.pc.notified }
  | dequeueEmpty (choice : Nat) : s.pc = .tryDequeue → s.taskQueue = [] →
      Step s (.js choice) { s with pc := .exitTest }
  | dequeue (choice task : Nat) : s.pc = .tryDequeue → s.taskQueue[choice]? = some task →
      Step s (.js choice)
        { s with taskQueue := s.taskQueue.eraseIdx choice, pc := .testDeadline task }
  | drop (choice task : Nat) : s.pc = .testDeadline task → s.deadlinePassed = true →
      Step s (.js choice) { s with pc := .exitTest }
  | enterBody (choice task : Nat) : s.pc = .testDeadline task → s.deadlinePassed = false →
      Step s (.js choice) { s with pc := .fetchSub task }
  | fetchSub (choice task : Nat) : s.pc = .fetchSub task →
      Step s (.js choice)
        { s with
          taskQueueSize := (s.taskQueueSize + (sizeRange - 1)) % sizeRange
          pc := .runTask task }
  | runTask (choice task : Nat) : s.pc = .runTask task →
      Step s (.js choice) { s with executed := s.executed ++ [task], pc := .tryDequeue }
  | leave (choice : Nat) : s.pc = .exitTest → s.shutdownDeadline.isSome → s.taskQueueSize = 0 →
      Step s (.js choice) { s with pc := .exited }
  | stay (choice : Nat) : s.pc = .exitTest →
      ¬ (s.shutdownDeadline.isSome ∧ s.taskQueueSize = 0) →
      Step s (.js choice) { s with pc := .lockMutex }
  | acquire (choice : Nat) : s.pc = .lockMutex ∨ s.pc = .relock → s.cvMutex = none →
      Step s (.js choice) { s with cvMutex := some .jsThread, pc := .evalPredicate }
  | predicateTrue (choice : Nat) : s.pc = .evalPredicate →
      0 < s.taskQueueSize ∨ s.shutdownDeadline.isSome →
      Step s (.js choice) { s with pc := .unlockMutex }
  | predicateFalse (choice : Nat) : s.pc = .evalPredicate → s.taskQueueSize = 0 →
      s.shutdownDeadline = none →
      Step s (.js choice) { s with pc := .enterWait }
  | enterWait (choice : Nat) : s.pc = .enterWait →
      Step s (.js choice) { s with cvMutex := none, pc := .blocked }
  | unlockMutex (choice : Nat) : s.pc = .unlockMutex →
      Step s (.js choice) { s with cvMutex := none, pc := .tryDequeue }
  | spuriousWake : s.pc = .blocked → Step s .spuriousWake { s with pc := .relock }
  | setDeadline (timeout : Nat) : s.stop = .idle →
      Step s (.setDeadline timeout)
        { s with shutdownDeadline := some (s.clock + timeout), stop := .deadlineSet }
  | notifyAll : s.stop = .deadlineSet →
      Step s .notifyAll { s with pc := s.pc.notified, stop := .joining }
  | join : s.stop = .joining → s.pc = .exited → Step s .join { s with stop := .joined }
  | tick : Step s .tick { s with clock := s.clock + 1 }

theorem advance_some {posts later : List (Post τ)} {call : Nat} {source target : PostStage}
    (advanced : advance posts call source target = some later) :
    ∃ p, posts[call]? = some p ∧ p.stage = source ∧ later = setStage posts call p target := by
  unfold advance at advanced
  split at advanced
  · next p current =>
      split at advanced
      · next stage => exact ⟨p, current, stage, (Option.some.inj advanced).symm⟩
      · cases advanced
  · cases advanced

theorem loopStep_some {s t : State τ} {choice : Nat} (taken : s.loopStep choice = some t) :
    Step s (.js choice) t := by
  unfold State.loopStep at taken
  split at taken
  case h_1 pc =>
    split at taken
    · next empty => cases taken; exact .dequeueEmpty choice pc empty
    · split at taken
      · next task found => cases taken; exact .dequeue choice task pc found
      · cases taken
  case h_2 task pc =>
    split at taken
    · next passed => cases taken; exact .drop choice task pc passed
    · next early => cases taken; exact .enterBody choice task pc (by simpa using early)
  case h_3 task pc => cases taken; exact .fetchSub choice task pc
  case h_4 task pc => cases taken; exact .runTask choice task pc
  case h_5 pc =>
    split at taken
    · next done =>
        simp only [Bool.and_eq_true, beq_iff_eq] at done
        cases taken
        exact .leave choice pc done.1 done.2
    · next more =>
        simp only [Bool.and_eq_true, beq_iff_eq] at more
        cases taken
        exact .stay choice pc more
  case h_6 pc =>
    split at taken
    · next free => cases taken; exact .acquire choice (.inl pc) free
    · cases taken
  case h_7 pc =>
    split at taken
    · next free => cases taken; exact .acquire choice (.inr pc) free
    · cases taken
  case h_8 pc =>
    split at taken
    · next awake =>
        simp only [Bool.or_eq_true, decide_eq_true_eq] at awake
        cases taken
        exact .predicateTrue choice pc awake
    · next idle =>
        simp only [Bool.or_eq_true, decide_eq_true_eq, not_or, Bool.not_eq_true,
          Option.isSome_eq_false_iff, Option.isNone_iff_eq_none] at idle
        cases taken
        exact .predicateFalse choice pc (by omega) idle.2
  case h_9 pc => cases taken; exact .enterWait choice pc
  case h_10 pc => cases taken; exact .unlockMutex choice pc
  case h_11 => cases taken
  case h_12 => cases taken

theorem step_some {s t : State τ} {a : Action τ} (taken : step s a = some t) : Step s a t := by
  cases a with
  | enqueue task =>
      simp only [step] at taken
      split at taken
      · next room => cases taken; exact .enqueue task room
      · cases taken
  | fetchAdd call =>
      obtain ⟨u, advanced, rfl⟩ := Option.map_eq_some_iff.mp taken
      obtain ⟨p, current, stage, rfl⟩ := advance_some advanced
      exact .fetchAdd call p current stage
  | lock call =>
      simp only [step] at taken
      split at taken
      · next free =>
          obtain ⟨u, advanced, rfl⟩ := Option.map_eq_some_iff.mp taken
          obtain ⟨p, current, stage, rfl⟩ := advance_some advanced
          exact .lock call p current stage free
      · cases taken
  | unlock call =>
      obtain ⟨u, advanced, rfl⟩ := Option.map_eq_some_iff.mp taken
      obtain ⟨p, current, stage, rfl⟩ := advance_some advanced
      exact .unlock call p current stage
  | notifyOne call =>
      obtain ⟨u, advanced, rfl⟩ := Option.map_eq_some_iff.mp taken
      obtain ⟨p, current, stage, rfl⟩ := advance_some advanced
      exact .notifyOne call p current stage
  | js choice => exact loopStep_some taken
  | spuriousWake =>
      simp only [step] at taken
      split at taken
      · next waiting => cases taken; exact .spuriousWake waiting
      · cases taken
  | setDeadline timeout =>
      simp only [step] at taken
      split at taken
      · next idle => cases taken; exact .setDeadline timeout idle
      · cases taken
  | notifyAll =>
      simp only [step] at taken
      split at taken
      · next armed => cases taken; exact .notifyAll armed
      · cases taken
  | join =>
      simp only [step] at taken
      split at taken
      · next done => cases taken; exact .join done.1 done.2
      · cases taken
  | tick => cases taken; exact .tick

end BreezeJs.EventLoop
