import BreezeJs.EventLoop.Shutdown
import BreezeJs.EventLoop.Wakeup

set_option autoImplicit false

namespace BreezeJs.EventLoop

open Transition

variable {τ : Type}

def loopAction : Action τ → Prop
  | .fetchAdd _ | .lock _ | .unlock _ | .notifyOne _ | .js _ => True
  | _ => False

def clockAction : Action τ → Prop
  | .tick => True
  | _ => False

-- A notification may send the JS thread back by three steps.
def State.postsLeft (s : State τ) : Nat :=
  7 * inStage s.posts .enqueued + 6 * inStage s.posts .counted + 5 * inStage s.posts .locked +
    4 * inStage s.posts .unlocked

def LoopPc.stepsLeft : LoopPc → Nat
  | .tryDequeue | .exited => 0
  | .runTask _ | .unlockMutex => 1
  | .fetchSub _ => 2
  | .testDeadline _ => 3
  | .blocked => 8
  | .enterWait => 9
  | .evalPredicate => 10
  | .lockMutex | .relock => 11
  | .exitTest => 12

def State.stepsLeft (s : State τ) : Nat :=
  20 * s.taskQueue.length + s.postsLeft + s.pc.stepsLeft

-- Without a deadline nothing is dropped, and the JS thread does not leave.
structure Open (s : State τ) : Prop where
  coherent : Coherent s
  parked : Parked s
  unset : s.shutdownDeadline = none
  conserved : Conserved s
  running : s.pc ≠ .exited

def AllExecuted (s : State τ) : Prop :=
  s.taskQueue = [] ∧ s.pc.task = none

section Steps

variable {s t : State τ} {a : Action τ}

theorem not_passed (unset : s.shutdownDeadline = none) : s.deadlinePassed = false := by
  simp only [State.deadlinePassed, unset]

theorem not_drops (unset : s.shutdownDeadline = none) : drops s a = false := by
  rw [← Bool.not_eq_true, drops_iff]
  rintro ⟨_, _, _, _, passed⟩
  simp [not_passed unset] at passed

theorem unset_before (taken : Step s a t) (unset : t.shutdownDeadline = none) :
    s.shutdownDeadline = none := by
  cases taken <;> simp_all

theorem running_preserved (taken : Step s a t) (unset : s.shutdownDeadline = none)
    (running : s.pc ≠ .exited) : t.pc ≠ .exited := by
  cases taken with
  | notifyOne | notifyAll => cases pc : s.pc <;> simp_all [LoopPc.notified]
  | _ => simp_all

theorem open_preserved (taken : Step s a t) (unset : t.shutdownDeadline = none)
    (before : Open s) : Open t where
  coherent := coherent_preserved taken before.coherent
  parked := parked_preserved taken before.coherent before.parked
  unset := unset
  conserved := conserved_preserved taken (not_drops before.unset) before.conserved
  running := running_preserved taken before.unset before.running

theorem notified_stepsLeft (pc : LoopPc) : pc.notified.stepsLeft ≤ pc.stepsLeft + 3 := by
  cases pc <;> simp [LoopPc.notified, LoopPc.stepsLeft]

theorem postsLeft_advance {call : Nat} {p : Post τ} (current : s.posts[call]? = some p)
    {target : PostStage} (next : p.stage = .enqueued ∧ target = .counted ∨
      p.stage = .counted ∧ target = .locked ∨ p.stage = .locked ∧ target = .unlocked ∨
      p.stage = .unlocked ∧ target = .returned) (u : State τ)
    (posts : u.posts = setStage s.posts call p target) :
    u.postsLeft + (if target = .returned then 4 else 1) = s.postsLeft := by
  have enqueued := inStage_setStage current target .enqueued
  have counted := inStage_setStage current target .counted
  have locked := inStage_setStage current target .locked
  have unlocked := inStage_setStage current target .unlocked
  simp only [State.postsLeft, posts]
  rcases next with ⟨stage, rfl⟩ | ⟨stage, rfl⟩ | ⟨stage, rfl⟩ | ⟨stage, rfl⟩ <;>
    · simp only [stage, reduceCtorEq, if_true, if_false] at enqueued counted locked unlocked ⊢
      omega

theorem stepsLeft_decreases (taken : Step s a t) (acts : loopAction a) (before : Open s)
    (unfinished : ¬ AllExecuted s) : t.stepsLeft < s.stepsLeft := by
  have unset := before.unset
  cases taken with
  | fetchAdd call p current stage =>
      have moved := postsLeft_advance current (.inl ⟨stage, rfl⟩)
        { s with
          posts := setStage s.posts call p .counted
          taskQueueSize := (s.taskQueueSize + 1) % sizeRange } rfl
      simp only [State.stepsLeft, reduceCtorEq, if_false] at moved ⊢
      omega
  | lock call p current stage _ =>
      have moved := postsLeft_advance current (.inr (.inl ⟨stage, rfl⟩))
        { s with posts := setStage s.posts call p .locked, cvMutex := some (.post call) } rfl
      simp only [State.stepsLeft, reduceCtorEq, if_false] at moved ⊢
      omega
  | unlock call p current stage =>
      have moved := postsLeft_advance current (.inr (.inr (.inl ⟨stage, rfl⟩)))
        { s with posts := setStage s.posts call p .unlocked, cvMutex := none } rfl
      simp only [State.stepsLeft, reduceCtorEq, if_false] at moved ⊢
      omega
  | notifyOne call p current stage =>
      have moved := postsLeft_advance current (.inr (.inr (.inr ⟨stage, rfl⟩)))
        { s with posts := setStage s.posts call p .returned, pc := s.pc.notified } rfl
      have woken := notified_stepsLeft s.pc
      simp only [State.stepsLeft, if_true] at moved ⊢
      omega
  | dequeueEmpty choice pc empty => exact absurd ⟨empty, by rw [pc]; rfl⟩ unfinished
  | dequeue choice task pc found =>
      have inside := (List.getElem?_eq_some_iff.mp found).1
      simp only [State.stepsLeft, State.postsLeft, pc, LoopPc.stepsLeft, List.length_eraseIdx,
        inside, if_true]
      omega
  | drop choice task pc passed => simp [not_passed unset] at passed
  | leave choice pc set _ => simp [unset] at set
  | acquire choice pc _ =>
      rcases pc with pc | pc <;>
        simp [State.stepsLeft, State.postsLeft, pc, LoopPc.stepsLeft]
  | _ => simp_all [State.stepsLeft, State.postsLeft, LoopPc.stepsLeft, loopAction]

end Steps

section Enabled

variable {s : State τ}

theorem lock_step_enabled (coherent : Coherent s) (outside : s.pc.holdsMutex = false)
    {owner : Owner} (held : s.cvMutex = some owner) :
    ∃ call t, step s (.unlock call) = some t := by
  cases owner with
  | jsThread =>
      have holds := coherent.jsMutex.mpr held
      simp [outside] at holds
  | post call =>
      obtain ⟨p, current, locked⟩ := (coherent.postMutex call).mp held
      exact ⟨call, _, by simp [step, advance, current, locked]; rfl⟩

theorem ongoing_of_blocked (before : Open s) (blocked : s.pc = .blocked)
    (waiting : s.taskQueue ≠ []) :
    ∃ (call : Nat) (p : Post τ), s.posts[call]? = some p ∧ p.stage ≠ .returned := by
  by_contra none
  push Not at none
  have kept : s.Kept := by
    cases before.parked.kept with
    | inl kept => exact kept
    | inr draining => exact absurd blocked draining.2.2
  have quiet : inStages PostStage.ongoing s.posts = 0 := by
    simp only [inStages, List.countP_eq_zero]
    intro p member
    obtain ⟨call, current⟩ := List.getElem?_of_mem member
    simp [PostStage.ongoing, none call p current]
  have counter := counter_of_kept before.coherent kept
  have size := before.parked.waiting blocked
  have room := before.coherent.room
  have queued := List.length_pos_iff.mpr waiting
  rw [ongoing_eq] at quiet
  simp only [blocked, LoopPc.countedDown, LoopPc.held, LoopPc.task, Option.isSome_none,
    Bool.false_eq_true, if_false] at counter
  unfold sizeRange at counter
  unfold maxTasks at room
  omega

theorem post_enabled (before : Open s) (outside : s.pc.holdsMutex = false) {call : Nat}
    {p : Post τ} (current : s.posts[call]? = some p) (going : p.stage ≠ .returned) :
    ∃ a t, loopAction a ∧ step s a = some t := by
  cases stage : p.stage with
  | enqueued => exact ⟨.fetchAdd call, _, trivial, by simp [step, advance, current, stage]; rfl⟩
  | counted =>
      cases mutex : s.cvMutex with
      | none => exact ⟨.lock call, _, trivial, by simp [step, advance, current, stage, mutex]; rfl⟩
      | some owner =>
          obtain ⟨other, t, taken⟩ := lock_step_enabled before.coherent outside mutex
          exact ⟨.unlock other, t, trivial, taken⟩
  | locked => exact ⟨.unlock call, _, trivial, by simp [step, advance, current, stage]; rfl⟩
  | unlocked => exact ⟨.notifyOne call, _, trivial, by simp [step, advance, current, stage]; rfl⟩
  | returned => exact absurd stage going

theorem loop_enabled (before : Open s) (unfinished : ¬ AllExecuted s) :
    ∃ a t, loopAction a ∧ step s a = some t := by
  by_cases blocked : s.pc = .blocked
  · have waiting : s.taskQueue ≠ [] := by
      intro empty
      exact unfinished ⟨empty, by rw [blocked]; rfl⟩
    obtain ⟨call, p, current, going⟩ := ongoing_of_blocked before blocked waiting
    exact post_enabled before (by rw [blocked]; rfl) current going
  · by_cases free : s.pc.holdsMutex = false → s.cvMutex = none
    · obtain ⟨t, taken⟩ := loopStep_enabled blocked before.running free
      exact ⟨.js 0, t, trivial, taken⟩
    · push Not at free
      obtain ⟨owner, held⟩ := Option.ne_none_iff_exists'.mp free.2
      obtain ⟨call, t, taken⟩ := lock_step_enabled before.coherent free.1 held
      exact ⟨.unlock call, t, trivial, taken⟩

end Enabled

theorem open_reachable {s : State τ} (reached : Reachable (system τ) s)
    (unset : s.shutdownDeadline = none) : Open s := by
  have opened := reached.invariant (fun s => s.shutdownDeadline = none → Open s)
    (by
      rintro _ ⟨now, rfl⟩ _
      exact ⟨coherent_initial now, parked_initial now, rfl, conserved_initial now,
        by simp [initial]⟩)
    (fun s a t held taken later =>
      open_preserved (step_some taken) later (held (unset_before (step_some taken) later)))
  exact opened unset

theorem executed_once {s : State τ} (before : Open s) (done : AllExecuted s) :
    ∀ call < s.posts.length, s.executed.count call = 1 := by
  intro call known
  have copies := before.conserved call
  simpa [State.copies, done.1, done.2, known] using copies

theorem loop_frame {s t : State τ} {a : Action τ} (taken : Step s a t)
    (acts : loopAction a ∨ clockAction a) :
    t.shutdownDeadline = s.shutdownDeadline ∧ t.posts.length = s.posts.length := by
  cases taken <;> simp_all [loopAction, clockAction]

/-- Until a shutdown begins, and while nobody posts, every posted task is bound to be executed, and
only once. -/
theorem execution_inevitable {s : State τ} (reached : Reachable (system τ) s)
    (unset : s.shutdownDeadline = none) :
    Inevitable (system τ) loopAction clockAction
      (fun t => ∀ call < s.posts.length, t.executed.count call = 1) s := by
  apply inevitable_of_rank (fun t => Open t ∧ t.posts.length = s.posts.length) State.stepsLeft
    _ _ _ ⟨open_reachable reached unset, rfl⟩
  · intro t a u before waits taken
    have next := step_some taken
    have frame := loop_frame next (.inr waits)
    refine ⟨⟨open_preserved next (frame.1.trans before.1.unset) before.1,
      frame.2.trans before.2⟩, ?_⟩
    cases next with
    | tick => exact ⟨le_refl _, id⟩
    | _ => exact absurd waits id
  · intro t before unfinished
    apply loop_enabled before.1
    intro done
    exact unfinished (before.2 ▸ executed_once before.1 done)
  · intro t a u before unfinished acts taken
    have next := step_some taken
    have frame := loop_frame next (.inl acts)
    refine ⟨⟨open_preserved next (frame.1.trans before.1.unset) before.1,
      frame.2.trans before.2⟩, stepsLeft_decreases next acts before.1 ?_⟩
    intro done
    exact unfinished (before.2 ▸ executed_once before.1 done)

theorem execution_inevitable_when_parked :
    ∃ s : State Unit, Reachable (system Unit) s ∧ s.pc = .blocked ∧ s.taskQueue = [0] ∧
      Inevitable (system Unit) loopAction clockAction
        (fun t => ∀ call < s.posts.length, t.executed.count call = 1) s := by
  obtain ⟨history, s, run, checked⟩ := (system Unit).exists_run ⟨0, rfl⟩
    (parkTurn ++ [.js 0, .enqueue (), .fetchAdd 0])
    (fun _ s => s.pc == .blocked && s.taskQueue == [0] && s.shutdownDeadline == none)
    (by decide +kernel)
  simp only [Bool.and_eq_true, beq_iff_eq] at checked
  exact ⟨s, run.reachable, checked.1.1, checked.1.2,
    execution_inevitable run.reachable checked.2⟩

end BreezeJs.EventLoop
