import BreezeJs.EventLoop.Accounting

set_option autoImplicit false

namespace BreezeJs.EventLoop

open Transition

variable {τ : Type}

def State.copies (s : State τ) (task : Nat) : Nat :=
  s.taskQueue.count task + (if s.pc.task = some task then 1 else 0) + s.executed.count task

def Conserved (s : State τ) : Prop :=
  ∀ task, s.copies task = if task < s.posts.length then 1 else 0

def drops (s : State τ) : Action τ → Bool
  | .js _ =>
      match s.pc with
      | .testDeadline _ => s.deadlinePassed
      | _ => false
  | _ => false

theorem drops_iff {s : State τ} {a : Action τ} :
    drops s a = true ↔
      ∃ choice task, a = .js choice ∧ s.pc = .testDeadline task ∧ s.deadlinePassed = true := by
  cases a <;> cases pc : s.pc <;> simp [drops, pc]

theorem count_eraseIdx {entries : List Nat} {i task : Nat} (found : entries[i]? = some task)
    (other : Nat) :
    (entries.eraseIdx i).count other + (if some task = some other then 1 else 0) =
      entries.count other := by
  obtain ⟨inside, here⟩ := List.getElem?_eq_some_iff.mp found
  have split := (List.getElem_cons_eraseIdx_perm inside).count_eq other
  rw [here, List.count_cons] at split
  simpa using split

theorem copies_enqueue (s : State τ) (call : Post τ) (task : Nat) :
    State.copies
        { s with taskQueue := s.taskQueue ++ [s.posts.length], posts := s.posts ++ [call] } task =
      s.copies task + if task = s.posts.length then 1 else 0 := by
  simp only [State.copies, List.count_append, List.count_singleton, beq_iff_eq,
    eq_comm (a := s.posts.length)]
  omega

theorem copies_of_held {s : State τ} (task : Nat) (held : s.pc.task = some task) :
    0 < s.copies task := by
  simp only [State.copies, held, if_true]
  omega

section Preservation

variable {s t : State τ} {a : Action τ}

theorem copies_preserved (taken : Step s a t) (kept : drops s a = false)
    (old : ∀ call, a ≠ .enqueue call) (task : Nat) :
    t.copies task = s.copies task ∧ t.posts.length = s.posts.length := by
  cases taken with
  | enqueue call _ => exact absurd rfl (old call)
  | dequeue choice found pc here =>
      have moved := count_eraseIdx here task
      refine ⟨?_, rfl⟩
      by_cases same : found = task
      · simp only [State.copies, pc, LoopPc.task, same, if_true, reduceCtorEq, if_false] at moved ⊢
        omega
      · simp only [State.copies, pc, LoopPc.task, same, Option.some.injEq, reduceCtorEq,
          if_false] at moved ⊢
        omega
  | drop choice found pc passed => simp [drops, pc, passed] at kept
  | runTask choice found pc =>
      refine ⟨?_, rfl⟩
      simp only [State.copies, pc, LoopPc.task, List.count_append, List.count_singleton, beq_iff_eq,
        Option.some.injEq, reduceCtorEq, if_false]
      omega
  | notifyOne => simp [State.copies]
  | notifyAll => simp [State.copies]
  | acquire choice pc free => rcases pc with pc | pc <;> simp [State.copies, pc, LoopPc.task]
  | _ => simp_all [State.copies, LoopPc.task]

theorem conserved_preserved (taken : Step s a t) (kept : drops s a = false)
    (conserved : Conserved s) : Conserved t := by
  intro task
  by_cases new : ∃ call, a = .enqueue call
  · obtain ⟨call, rfl⟩ := new
    cases taken
    rw [copies_enqueue, conserved task]
    simp only [List.length_append, List.length_singleton]
    split_ifs <;> omega
  · have same := copies_preserved taken kept (fun call enqueued => new ⟨call, enqueued⟩) task
    rw [same.1, same.2, conserved task]

theorem drop_loses (taken : Step s a t) (lost : drops s a = true) (conserved : Conserved s) :
    ¬ Conserved t := by
  intro still
  obtain ⟨choice, task, rfl, pc, passed⟩ := drops_iff.mp lost
  cases taken with
  | drop _ other otherPc _ =>
      have present := copies_of_held (s := s) task (by rw [pc]; rfl)
      have before := conserved task
      have after := still task
      have gone : State.copies { s with pc := .exitTest } task + 1 = s.copies task := by
        simp only [State.copies, pc, LoopPc.task, if_true, reduceCtorEq, if_false]
        omega
      simp only at after
      split_ifs at before after <;> omega
  | _ => simp_all

end Preservation

theorem conserved_initial (now : Nat) : Conserved (initial now : State τ) := by
  intro task
  simp [initial, State.copies, LoopPc.task]

/-- In every state of a run each enqueued task has exactly one copy, if and only if no step of the
run takes the deadline exit with a task in hand. -/
theorem tasks_conserved_iff {history : List (State τ × Action τ)} {s : State τ}
    (run : Run (system τ) history s) :
    (Conserved s ∧ ∀ entry ∈ history, Conserved entry.1) ↔
      ∀ entry ∈ history, drops entry.1 entry.2 = false := by
  apply run.always_iff (fun s a => drops s a = false) Conserved Conserved
  · rintro _ ⟨now, rfl⟩
    exact conserved_initial now
  · intro s conserved
    exact conserved
  · intro s a t conserved kept taken
    exact conserved_preserved (step_some taken) kept conserved
  · intro s a t conserved lost taken
    exact drop_loses (step_some taken) (by simpa using lost) conserved

def post (task : τ) (call : Nat) : List (Action τ) :=
  [.enqueue task, .fetchAdd call, .lock call, .unlock call, .notifyOne call]

def loopTurn : List (Action τ) :=
  [.js 0, .js 0, .js 0, .js 0]

theorem executed_task_conserved :
    ∃ (history : List (State Unit × Action Unit)) (s : State Unit),
      Run (system Unit) history s ∧ s.executed = [0] ∧ Conserved s := by
  obtain ⟨history, s, run, checked⟩ := (system Unit).exists_run ⟨0, rfl⟩ (post () 0 ++ loopTurn)
    (fun history s => s.executed == [0] && history.all fun entry => !drops entry.1 entry.2)
    (by decide +kernel)
  simp only [Bool.and_eq_true, beq_iff_eq, List.all_eq_true, Bool.not_eq_true'] at checked
  exact ⟨history, s, run, checked.1, ((tasks_conserved_iff run).mpr checked.2).1⟩

theorem posted_task_dropped :
    ∃ s : State Unit, Reachable (system Unit) s ∧ HasStage s.posts 0 .returned ∧
      s.copies 0 = 0 := by
  obtain ⟨history, s, run, checked⟩ := (system Unit).exists_run ⟨0, rfl⟩
    (post () 0 ++ [.setDeadline 0, .js 0, .js 0])
    (fun _ s => s.posts == [⟨(), .returned⟩] && s.copies 0 == 0) (by decide +kernel)
  simp only [Bool.and_eq_true, beq_iff_eq] at checked
  exact ⟨s, run.reachable, ⟨⟨(), .returned⟩, by simp [checked.1], rfl⟩, checked.2⟩

end BreezeJs.EventLoop
