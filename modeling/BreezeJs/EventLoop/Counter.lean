import BreezeJs.EventLoop.Conservation

set_option autoImplicit false

namespace BreezeJs.EventLoop

open Transition

variable {τ : Type}

-- `JS_IsJobPending`, the exit test and the wait predicate all read the counter for the queue.
def isJobPending (s : State τ) : Bool :=
  decide (0 < s.taskQueueSize)

def Quiet (s : State τ) : Prop :=
  inStage s.posts .enqueued = 0 ∧ s.pc.task = none

def wraps (s : State τ) : Action τ → Bool
  | .js _ =>
      match s.pc with
      | .fetchSub _ => s.taskQueueSize == 0
      | _ => false
  | _ => false

def overtakes (s : State τ) : Action τ → Bool
  | .js _ =>
      match s.pc with
      | .fetchSub _ => decide (s.taskQueue.length < inStage s.posts .enqueued)
      | _ => false
  | _ => false

def Sized (s : State τ) : Prop :=
  s.taskQueueSize + inStage s.posts .enqueued + s.pc.countedDown = s.taskQueue.length + s.pc.held

theorem sized_initial (now : Nat) : Sized (initial now : State τ) := by
  simp [Sized, initial, inStage, LoopPc.countedDown, LoopPc.held, LoopPc.task]

theorem size_pos_of_behind {s : State τ} {choice task : Nat} (sized : Sized s)
    (pc : s.pc = .fetchSub task) (behind : overtakes s (.js choice) = false) :
    0 < s.taskQueueSize := by
  simp only [overtakes, pc, decide_eq_false_iff_not] at behind
  simp only [Sized, pc, LoopPc.countedDown, LoopPc.held, LoopPc.task, Option.isSome_some,
    if_true] at sized
  omega

theorem decrement_mod {size : Nat} (positive : 0 < size) (below : size - 1 < sizeRange) :
    (size + (sizeRange - 1)) % sizeRange = size - 1 := by
  have range := sizeRange_pos
  have shifted : size + (sizeRange - 1) = size - 1 + sizeRange := by omega
  rw [shifted, Nat.add_mod_right, Nat.mod_eq_of_lt below]

theorem sized_preserved {s t : State τ} {a : Action τ} (taken : Step s a t)
    (room : s.taskQueue.length < maxTasks) (spared : drops s a = false)
    (behind : overtakes s a = false) (sized : Sized s) : Sized t := by
  have counters := sized
  simp only [Sized] at counters ⊢
  cases taken with
  | enqueue task _ =>
      simp only [inStage_enqueued, List.length_append, List.length_singleton]
      omega
  | fetchAdd call p current stage =>
      have moved := inStage_setStage current .counted .enqueued
      simp only [stage, if_true, reduceCtorEq, if_false] at moved
      have single : s.pc.held ≤ 1 := by simp only [LoopPc.held]; split <;> omega
      have fits : s.taskQueueSize + 1 < sizeRange := by
        unfold maxTasks at room
        simp only [sizeRange]
        omega
      simp only [Nat.mod_eq_of_lt fits]
      omega
  | lock call p current stage _ =>
      have moved := inStage_setStage current .locked .enqueued
      simp_all
  | unlock call p current stage =>
      have moved := inStage_setStage current .unlocked .enqueued
      simp_all
  | notifyOne call p current stage =>
      have moved := inStage_setStage current .returned .enqueued
      simp_all
  | dequeue choice task pc found =>
      have inside := (List.getElem?_eq_some_iff.mp found).1
      simp only [pc, LoopPc.countedDown, LoopPc.held, LoopPc.task, Option.isSome_none,
        Option.isSome_some, Bool.false_eq_true, if_false, if_true, List.length_eraseIdx,
        inside] at counters ⊢
      omega
  | drop choice task pc passed => simp [drops, pc, passed] at spared
  | fetchSub choice task pc =>
      have counted := size_pos_of_behind sized pc behind
      have below : s.taskQueueSize - 1 < sizeRange := by
        simp only [pc, LoopPc.held, LoopPc.task, Option.isSome_some, if_true] at counters
        unfold maxTasks at room
        simp only [sizeRange]
        omega
      have lowered := decrement_mod counted below
      simp only [pc, LoopPc.countedDown, LoopPc.held, LoopPc.task, Option.isSome_some,
        if_true] at counters ⊢
      omega
  | notifyAll => simpa using counters
  | acquire choice pc _ =>
      rcases pc with pc | pc <;>
        simpa [pc, LoopPc.countedDown, LoopPc.held, LoopPc.task] using counters
  | _ => simp_all [LoopPc.countedDown, LoopPc.held, LoopPc.task]

theorem size_of_quiet {s : State τ} (sized : Sized s) (quiet : Quiet s) :
    s.taskQueueSize = s.taskQueue.length := by
  have unheld : s.pc.held = 0 := by simp [LoopPc.held, quiet.2]
  have uncounted : s.pc.countedDown = 0 := by
    have none := quiet.2
    cases pc : s.pc <;> simp_all [LoopPc.countedDown, LoopPc.task]
  rw [Sized, quiet.1, unheld, uncounted] at sized
  omega

theorem not_wraps_of_behind {s : State τ} {a : Action τ} (sized : Sized s)
    (behind : overtakes s a = false) : wraps s a = false := by
  cases a with
  | js choice =>
      cases pc : s.pc with
      | fetchSub task =>
          have counted := size_pos_of_behind sized pc behind
          simp only [wraps, pc, beq_eq_false_iff_ne]
          omega
      | _ => simp [wraps, pc]
  | _ => rfl

theorem isJobPending_iff {s : State τ} (sized : Sized s) (quiet : Quiet s) :
    isJobPending s = true ↔ s.taskQueue ≠ [] := by
  rw [isJobPending, decide_eq_true_iff, size_of_quiet sized quiet]
  exact List.length_pos_iff

/-- As long as the deadline exit drops no task and no task is counted down before it is counted,
`task_queue_size` does not wrap and agrees with `task_queue` at every quiet state. -/
theorem counter_agrees {history : List (State τ × Action τ)} {s : State τ}
    (run : Run (system τ) history s)
    (steps : ∀ entry ∈ history,
      drops entry.1 entry.2 = false ∧ overtakes entry.1 entry.2 = false) :
    (∀ entry ∈ history, wraps entry.1 entry.2 = false) ∧
      (Quiet s → s.taskQueueSize = s.taskQueue.length) := by
  have sized := always_preserved (fun s a => drops s a = false ∧ overtakes s a = false) Sized
    sized_initial
    (fun s a t taken coherent allowed sized =>
      sized_preserved taken coherent.room allowed.1 allowed.2 sized) run steps
  constructor
  · intro entry member
    exact not_wraps_of_behind (sized.2 entry member) (steps entry member).2
  · exact size_of_quiet sized.1

theorem counter_agrees_after_posts :
    ∃ (history : List (State Unit × Action Unit)) (s : State Unit),
      Run (system Unit) history s ∧ Quiet s ∧ s.taskQueue = [1] ∧
        s.taskQueueSize = s.taskQueue.length := by
  obtain ⟨history, s, run, checked⟩ := (system Unit).exists_run ⟨0, rfl⟩
    (post () 0 ++ post () 1 ++ loopTurn)
    (fun history s => s.taskQueue == [1] && inStage s.posts .enqueued == 0 &&
      s.pc.task == none &&
      history.all fun entry => !drops entry.1 entry.2 && !overtakes entry.1 entry.2)
    (by decide +kernel)
  simp only [Bool.and_eq_true, beq_iff_eq, List.all_eq_true, Bool.not_eq_true'] at checked
  obtain ⟨⟨⟨queue, counted⟩, free⟩, steps⟩ := checked
  exact ⟨history, s, run, ⟨counted, free⟩, queue, (counter_agrees run steps).2 ⟨counted, free⟩⟩

theorem counter_disagrees :
    (∃ s : State Unit, Reachable (system Unit) s ∧ s.executed = [] ∧
      s.taskQueueSize = sizeRange - 1) ∧
    (∃ s : State Unit, Reachable (system Unit) s ∧ Quiet s ∧ s.taskQueue = [] ∧
      s.taskQueueSize = 1) := by
  constructor
  · obtain ⟨history, s, run, checked⟩ := (system Unit).exists_run ⟨0, rfl⟩
      [.enqueue (), .js 0, .js 0, .js 0]
      (fun _ s => s.executed == [] && s.taskQueueSize == sizeRange - 1) (by decide +kernel)
    simp only [Bool.and_eq_true, beq_iff_eq] at checked
    exact ⟨s, run.reachable, checked⟩
  · obtain ⟨history, s, run, checked⟩ := (system Unit).exists_run ⟨0, rfl⟩
      (post () 0 ++ [.setDeadline 0, .js 0, .js 0])
      (fun _ s => inStage s.posts .enqueued == 0 && s.pc.task == none && s.taskQueue == [] &&
        s.taskQueueSize == 1) (by decide +kernel)
    simp only [Bool.and_eq_true, beq_iff_eq] at checked
    obtain ⟨⟨⟨counted, free⟩, queue⟩, size⟩ := checked
    exact ⟨s, run.reachable, ⟨counted, free⟩, queue, size⟩

end BreezeJs.EventLoop
