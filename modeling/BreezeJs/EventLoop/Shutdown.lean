import BreezeJs.EventLoop.Counter

set_option autoImplicit false

namespace BreezeJs.EventLoop

open Transition

variable {τ : Type}

def shutdownAction : Action τ → Prop
  | .js _ | .notifyAll | .join => True
  | _ => False

def backgroundAction : Action τ → Prop
  | .tick | .spuriousWake => True
  | _ => False

def LoopPc.owed : LoopPc → Nat
  | .fetchSub _ => 1
  | _ => 0

def Leaves (s : State τ) : Prop :=
  s.pc = .exited ∨
    (s.taskQueueSize = s.pc.owed ∧ s.pc ≠ .enterWait ∧ (s.pc = .blocked → s.stop = .deadlineSet))

def LoopPc.remaining : LoopPc → Nat
  | .exited => 0
  | .exitTest => 1
  | .testDeadline _ => 2
  | .tryDequeue => 3
  | .runTask _ | .unlockMutex => 4
  | .fetchSub _ | .evalPredicate => 5
  | .lockMutex | .relock => 6
  | .blocked => 7
  | .enterWait => 8

def State.remaining (s : State τ) : Nat :=
  s.pc.remaining + if s.stop = .deadlineSet then 1 else 0

structure Ending (s : State τ) : Prop where
  coherent : Coherent s
  finished : ∀ p ∈ s.posts, p.stage = .returned
  passed : s.deadlinePassed = true
  leaves : Leaves s

theorem mutex_free {s : State τ} (coherent : Coherent s)
    (finished : ∀ p ∈ s.posts, p.stage = .returned) (outside : s.pc.holdsMutex = false) :
    s.cvMutex = none := by
  cases owner : s.cvMutex with
  | none => rfl
  | some holder =>
      cases holder with
      | jsThread =>
          have holds := coherent.jsMutex.mpr owner
          simp [outside] at holds
      | post call =>
          obtain ⟨p, current, locked⟩ := (coherent.postMutex call).mp owner
          have returned := finished p (List.mem_of_getElem? current)
          simp [locked] at returned

theorem loopStep_enabled {s : State τ} (awake : s.pc ≠ .blocked) (running : s.pc ≠ .exited)
    (free : s.pc.holdsMutex = false → s.cvMutex = none) : ∃ t, s.loopStep 0 = some t := by
  simp only [State.loopStep]
  cases pc : s.pc with
  | tryDequeue =>
      cases queue : s.taskQueue with
      | nil => simp
      | cons task rest => simp
  | blocked => exact absurd pc awake
  | exited => exact absurd pc running
  | lockMutex | relock =>
      have unlocked := free (by rw [pc]; rfl)
      simp [unlocked]
  | testDeadline | exitTest | evalPredicate =>
      simp only
      split_ifs <;> simp
  | _ => simp

theorem notifyAll_step {s : State τ} (armed : s.stop = .deadlineSet) :
    step s .notifyAll = some { s with pc := s.pc.notified, stop := .joining } := by
  simp only [step, armed, if_true]

section Preservation

variable {s t : State τ} {a : Action τ}

theorem passed_preserved (taken : Step s a t) (coherent : Coherent s)
    (passed : s.deadlinePassed = true) : t.deadlinePassed = true := by
  have set := deadlineSet_of_passed passed
  have stop := coherent.stop
  simp only [State.deadlinePassed] at passed ⊢
  cases taken with
  | setDeadline timeout idle => simp_all
  | tick =>
      simp only
      split at passed
      · simp at passed
      · next deadline here =>
          simp only [decide_eq_true_eq] at passed ⊢
          omega
  | _ => exact passed

theorem finished_preserved (taken : Step s a t) (acts : shutdownAction a ∨ backgroundAction a)
    (finished : ∀ p ∈ s.posts, p.stage = .returned) : ∀ p ∈ t.posts, p.stage = .returned := by
  cases taken <;> simp_all [shutdownAction, backgroundAction]

theorem leaves_progress (taken : Step s a t) (acts : shutdownAction a)
    (passed : s.deadlinePassed = true) (running : s.pc ≠ .exited) (leaves : Leaves s) :
    Leaves t ∧ t.remaining < s.remaining := by
  have set := deadlineSet_of_passed passed
  obtain ⟨size, outside, armed⟩ := leaves.resolve_left running
  simp only [Leaves, State.remaining]
  cases taken with
  | enterBody choice task pc early => simp [passed] at early
  | fetchSub choice task pc =>
      have emptied : (s.taskQueueSize + (sizeRange - 1)) % sizeRange = 0 := by
        rw [size, pc, LoopPc.owed]
        exact decrement_mod Nat.one_pos sizeRange_pos
      simp [pc, emptied, LoopPc.owed, LoopPc.remaining]
  | acquire choice pc _ =>
      rcases pc with pc | pc <;> simp_all [LoopPc.owed, LoopPc.remaining]
  | notifyAll stop =>
      cases pc : s.pc <;> simp_all [LoopPc.notified, LoopPc.owed, LoopPc.remaining]
  | _ => simp_all [shutdownAction, LoopPc.owed, LoopPc.remaining]

theorem leaves_background (taken : Step s a t) (waits : backgroundAction a) (leaves : Leaves s) :
    Leaves t ∧ t.remaining ≤ s.remaining ∧ (t.pc = .exited → s.pc = .exited) := by
  simp only [Leaves, State.remaining] at *
  cases taken with
  | spuriousWake pc => simp_all [LoopPc.owed, LoopPc.remaining]
  | tick => exact ⟨leaves, le_refl _, id⟩
  | _ => simp_all [backgroundAction]

end Preservation

theorem exit_inevitable_of_ending {s : State τ} (ending : Ending s) :
    Inevitable (system τ) shutdownAction backgroundAction (fun t => t.pc = .exited) s := by
  apply inevitable_of_rank Ending State.remaining _ _ _ ending
  · intro s a t ending waits taken
    have next := step_some taken
    have moved := leaves_background next waits ending.leaves
    exact ⟨⟨coherent_preserved next ending.coherent,
      finished_preserved next (.inr waits) ending.finished,
      passed_preserved next ending.coherent ending.passed, moved.1⟩, moved.2⟩
  · intro s ending running
    by_cases blocked : s.pc = .blocked
    · have armed := (ending.leaves.resolve_left running).2.2 blocked
      exact ⟨.notifyAll, _, trivial, notifyAll_step armed⟩
    · obtain ⟨t, taken⟩ := loopStep_enabled blocked running
        (mutex_free ending.coherent ending.finished)
      exact ⟨.js 0, t, trivial, taken⟩
  · intro s a t ending running acts taken
    have next := step_some taken
    have moved := leaves_progress next acts ending.passed running ending.leaves
    exact ⟨⟨coherent_preserved next ending.coherent,
      finished_preserved next (.inl acts) ending.finished,
      passed_preserved next ending.coherent ending.passed, moved.1⟩, moved.2⟩

structure Caught (s : State τ) : Prop where
  coherent : Coherent s
  passed : s.deadlinePassed = true
  held : ¬ Leaves s

theorem caught_in_window {s t : State τ} (caught : Caught s) (pc : s.pc = .enterWait)
    (taken : Step s .notifyAll t) : Caught t := by
  refine ⟨coherent_preserved taken caught.coherent,
    passed_preserved taken caught.coherent caught.passed, ?_⟩
  cases taken
  simp [Leaves, pc, LoopPc.notified]

theorem caught_preserved {s t : State τ} {a : Action τ} (taken : Step s a t)
    (acts : shutdownAction a) (late : s.pc = .enterWait → s.stop ≠ .deadlineSet)
    (caught : Caught s) : Caught t := by
  have set := deadlineSet_of_passed caught.passed
  have size := caught.coherent.size
  have passed := caught.passed
  have held := caught.held
  refine ⟨coherent_preserved taken caught.coherent,
    passed_preserved taken caught.coherent caught.passed, ?_⟩
  simp only [Leaves] at held ⊢
  cases taken with
  | enterBody choice task pc early => simp [passed] at early
  | fetchSub choice task pc =>
      simp only [pc, LoopPc.owed] at held ⊢
      simp only [sizeRange] at size ⊢
      simp_all
      omega
  | acquire choice pc _ => rcases pc with pc | pc <;> simp_all [LoopPc.owed]
  | notifyAll stop => cases pc : s.pc <;> simp_all [LoopPc.notified, LoopPc.owed]
  | _ => simp_all [shutdownAction, LoopPc.owed]

theorem exit_not_inevitable {s : State τ} (caught : Caught s) :
    ¬ Inevitable (system τ) shutdownAction backgroundAction (fun t => t.pc = .exited) s := by
  apply not_inevitable_of_trap Caught _ _ caught
  · intro s caught exited
    exact caught.held (.inl exited)
  · intro s caught
    refine ⟨s, .refl, ?_⟩
    rintro ⟨a, t, acts, taken⟩
    by_cases window : s.pc = .enterWait ∧ s.stop = .deadlineSet
    · have signal := notifyAll_step window.2
      exact ⟨.notifyAll, _, trivial, signal, caught_in_window caught window.1 (step_some signal)⟩
    · exact ⟨a, t, acts, taken,
        caught_preserved (step_some taken) acts (fun pc stop => window ⟨pc, stop⟩) caught⟩

/-- Once the deadline has passed and no `post` is under way, the loop is bound to leave if and only
if the counter has reached zero and the JS thread is not parked behind a spent `notify_all`. -/
theorem exit_inevitable_iff {s : State τ} (reached : Reachable (system τ) s)
    (finished : ∀ p ∈ s.posts, p.stage = .returned) (passed : s.deadlinePassed = true) :
    Inevitable (system τ) shutdownAction backgroundAction (fun t => t.pc = .exited) s ↔
      Leaves s := by
  have coherent := coherent_reachable reached
  constructor
  · intro inevitable
    by_contra held
    exact exit_not_inevitable ⟨coherent, passed, held⟩ inevitable
  · intro leaves
    exact exit_inevitable_of_ending ⟨coherent, finished, passed, leaves⟩

theorem exit_inevitable_when_idle :
    ∃ s : State Unit, Reachable (system Unit) s ∧ s.pc = .blocked ∧ s.stop = .deadlineSet ∧
      Inevitable (system Unit) shutdownAction backgroundAction (fun t => t.pc = .exited) s := by
  obtain ⟨history, s, run, checked⟩ := (system Unit).exists_run ⟨0, rfl⟩
    [.js 0, .js 0, .js 0, .js 0, .js 0, .setDeadline 0]
    (fun _ s => s.posts == [] && s.deadlinePassed && s.taskQueueSize == 0 && s.pc == .blocked &&
      s.stop == .deadlineSet) (by decide +kernel)
  simp only [Bool.and_eq_true, beq_iff_eq] at checked
  obtain ⟨⟨⟨⟨posts, passed⟩, size⟩, pc⟩, stop⟩ := checked
  refine ⟨s, run.reachable, pc, stop,
    (exit_inevitable_iff run.reachable (by simp [posts]) passed).mpr (.inr ⟨?_, ?_, ?_⟩)⟩
  · rw [size, pc]
    rfl
  · simp [pc]
  · intro _
    exact stop

theorem exit_missed_with_queued_task :
    ∃ s : State Unit, Reachable (system Unit) s ∧ s.taskQueue = [0] ∧ s.deadlinePassed = true ∧
      (∀ p ∈ s.posts, p.stage = .returned) ∧
      ¬ Inevitable (system Unit) shutdownAction backgroundAction (fun t => t.pc = .exited) s := by
  obtain ⟨history, s, run, checked⟩ := (system Unit).exists_run ⟨0, rfl⟩
    (post () 0 ++ [.setDeadline 0])
    (fun _ s => s.taskQueue == [0] && s.deadlinePassed && s.posts == [⟨(), .returned⟩] &&
      s.taskQueueSize == 1 && s.pc == .tryDequeue) (by decide +kernel)
  simp only [Bool.and_eq_true, beq_iff_eq] at checked
  obtain ⟨⟨⟨⟨queue, passed⟩, posts⟩, size⟩, pc⟩ := checked
  refine ⟨s, run.reachable, queue, passed, by simp [posts],
    exit_not_inevitable ⟨coherent_reachable run.reachable, passed, ?_⟩⟩
  simp [Leaves, size, pc, LoopPc.owed]

end BreezeJs.EventLoop
