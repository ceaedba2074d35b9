import BreezeJs.EventLoop.Conservation

set_option autoImplicit false

namespace BreezeJs.StaleTask

open Transition

inductive Kind where
  -- `JS_EnqueueJob`.
  | job
  -- The completion of a wrapped `Lazy`.
  | lazyCompletion
  -- `Value::~Value` away from the JS thread.
  | valueFree
  -- `Value::await`.
  | awaitPoll
deriving DecidableEq, Repr

structure Task where
  kind : Kind
  ctx : Nat
deriving DecidableEq, Repr

-- Where `reset_runtime` stands after its `join()`.
inductive ResetPc where
  | running
  | deadlineCleared
  | contextMade
deriving DecidableEq, Repr

structure State where
  loop : EventLoop.State Task
  js : Nat
  locked : List Nat
  reset : ResetPc
deriving DecidableEq, Repr

inductive Action where
  | loop (a : EventLoop.Action Task)
  | lockContext (ctx : Nat)
  | unlockContext (ctx : Nat)
  | clearDeadline
  | assignContext
  | startLoop
deriving DecidableEq, Repr

def initial (now : Nat) : State :=
  { loop := EventLoop.initial now
    js := 0
    locked := []
    reset := .running }

def State.alive (s : State) (ctx : Nat) : Bool :=
  s.js == ctx || s.locked.contains ctx

def State.mayPost (s : State) (task : Task) : Bool :=
  match task.kind with
  -- The engine only runs in a context that exists.
  | .job => s.alive task.ctx
  | .lazyCompletion | .valueFree => s.locked.contains task.ctx
  -- `Context::get(ctx)` is called without a check.
  | .awaitPoll => true

def step (s : State) : Action → Option State
  | .loop (.enqueue task) =>
      if s.mayPost task then
        (EventLoop.step s.loop (.enqueue task)).map fun loop => { s with loop := loop }
      else none
  | .loop a => (EventLoop.step s.loop a).map fun loop => { s with loop := loop }
  | .lockContext ctx => if s.alive ctx then some { s with locked := ctx :: s.locked } else none
  | .unlockContext ctx =>
      if s.locked.contains ctx then some { s with locked := s.locked.erase ctx } else none
  | .clearDeadline =>
      if s.loop.stop = .joined ∧ s.reset = .running then
        some { s with
          loop := { s.loop with shutdownDeadline := none }
          reset := .deadlineCleared }
      else none
  | .assignContext =>
      if s.reset = .deadlineCleared then some { s with js := s.js + 1, reset := .contextMade }
      else none
  | .startLoop =>
      if s.reset = .contextMade then
        some { s with
          loop := { s.loop with pc := .tryDequeue, stop := .idle }
          reset := .running }
      else none

def system : System State Action :=
  { init := fun s => ∃ now, s = initial now
    step := step }

def held (loop : EventLoop.State Task) (call : Nat) : Prop :=
  call ∈ loop.taskQueue ∨ loop.pc.task = some call

def taskOf (loop : EventLoop.State Task) (call : Nat) : Option Task :=
  (loop.posts[call]?).map EventLoop.Post.task

def capturedOn (loop : EventLoop.State Task) (ctx call : Nat) : Bool :=
  (taskOf loop call).any fun task => task.ctx == ctx

def pendingOn (loop : EventLoop.State Task) (ctx : Nat) : Bool :=
  loop.taskQueue.any (capturedOn loop ctx) || loop.pc.task.any (capturedOn loop ctx)

-- The step ends the last strong reference to a context that a pending task has captured, or posts
-- a task for a context that is already gone.
def orphans (s : State) : Action → Bool
  | .loop (.enqueue task) => !s.alive task.ctx
  | .unlockContext ctx => s.js != ctx && s.locked.count ctx == 1 && pendingOn s.loop ctx
  | .assignContext => !s.locked.contains s.js && pendingOn s.loop s.js
  | _ => false

def stale (s : State) : Action → Bool
  | .loop (.js _) =>
      match s.loop.pc with
      | .runTask call => (taskOf s.loop call).any fun task => !s.alive task.ctx
      | _ => false
  | _ => false

def Backed (s : State) : Prop :=
  ∀ call task, held s.loop call → taskOf s.loop call = some task → s.alive task.ctx = true

theorem pendingOn_of_held {loop : EventLoop.State Task} {call : Nat} {task : Task}
    (here : held loop call) (captured : taskOf loop call = some task) :
    pendingOn loop task.ctx = true := by
  have mine : capturedOn loop task.ctx call = true := by simp [capturedOn, captured]
  cases here with
  | inl queued =>
      have some := List.any_eq_true.mpr ⟨call, queued, mine⟩
      simp [pendingOn, some]
  | inr current => simp [pendingOn, current, mine]

theorem tasks_setStage {posts : List (EventLoop.Post Task)} {call : Nat}
    {p : EventLoop.Post Task} (current : posts[call]? = some p) (stage : EventLoop.PostStage)
    (other : Nat) :
    ((EventLoop.setStage posts call p stage)[other]?).map EventLoop.Post.task =
      (posts[other]?).map EventLoop.Post.task := by
  rw [EventLoop.getElem?_setStage current]
  by_cases same : other = call
  · simp [same, current]
  · simp [same]

section Loop

variable {loop later : EventLoop.State Task} {a : EventLoop.Action Task}

theorem task_origin (taken : EventLoop.Step loop a later) {call : Nat} {task : Task}
    (captured : taskOf later call = some task) :
    taskOf loop call = some task ∨ (call = loop.posts.length ∧ a = .enqueue task) := by
  simp only [taskOf] at captured ⊢
  cases taken with
  | enqueue new _ =>
      rw [List.getElem?_append] at captured
      split_ifs at captured with old
      · exact .inl captured
      · have last : call - loop.posts.length = 0 := by
          by_contra beyond
          have missing : [EventLoop.Post.mk new .enqueued][call - loop.posts.length]? = none :=
            List.getElem?_eq_none (by simp only [List.length_singleton]; omega)
          simp [missing] at captured
        simp only [last, List.getElem?_cons_zero, Option.map_some, Option.some.injEq] at captured
        exact .inr ⟨by omega, by rw [captured]⟩
  | fetchAdd other p current _ => exact .inl (by rwa [tasks_setStage current] at captured)
  | lock other p current _ _ => exact .inl (by rwa [tasks_setStage current] at captured)
  | unlock other p current _ => exact .inl (by rwa [tasks_setStage current] at captured)
  | notifyOne other p current _ => exact .inl (by rwa [tasks_setStage current] at captured)
  | _ => exact .inl captured

theorem held_origin (taken : EventLoop.Step loop a later) {call : Nat} (here : held later call) :
    held loop call ∨ call = loop.posts.length := by
  simp only [held] at here ⊢
  cases taken with
  | enqueue new _ =>
      rcases here with queued | current
      · rcases List.mem_append.mp queued with old | last
        · exact .inl (.inl old)
        · exact .inr (List.mem_singleton.mp last)
      · exact .inl (.inr current)
  | dequeue choice task pc found =>
      rcases here with queued | current
      · exact .inl (.inl (List.mem_of_mem_eraseIdx queued))
      · simp only [EventLoop.LoopPc.task, Option.some.injEq] at current
        exact .inl (.inl (current ▸ List.mem_of_getElem? found))
  | notifyOne | notifyAll => simpa using Or.inl here
  | _ => simp_all [EventLoop.LoopPc.task]

end Loop

theorem alive_iff {s : State} {ctx : Nat} : s.alive ctx = true ↔ s.js = ctx ∨ ctx ∈ s.locked := by
  simp only [State.alive, Bool.or_eq_true, beq_iff_eq, List.contains_iff_mem]

section Preservation

variable {s t : State} {a : Action}

theorem backed_loop {act : EventLoop.Action Task} {later : EventLoop.State Task}
    (taken : EventLoop.Step s.loop act later) (spared : orphans s (.loop act) = false)
    (backed : Backed s) : Backed { s with loop := later } := by
  intro call task here captured
  rcases task_origin taken captured with old | ⟨_, rfl⟩
  · rcases held_origin taken here with before | last
    · exact backed call task before old
    · simp [taskOf, last] at old
  · have posted : s.alive task.ctx = true := by simpa [orphans] using spared
    exact posted

theorem backed_unlock {ctx : Nat} (spared : orphans s (.unlockContext ctx) = false)
    (backed : Backed s) : Backed { s with locked := s.locked.erase ctx } := by
  intro call task here captured
  have before := alive_iff.mp (backed call task here captured)
  apply alive_iff.mpr
  by_cases current : s.js = task.ctx
  · exact .inl current
  · have member := before.resolve_left current
    right
    by_cases same : task.ctx = ctx
    · have pending := pendingOn_of_held here captured
      simp only [orphans, ← same, pending, Bool.and_true, Bool.and_eq_false_iff, bne_eq_false_iff_eq,
        beq_eq_false_iff_ne, ne_eq] at spared
      have shared := spared.resolve_left current
      have counted := List.count_pos_iff.mpr member
      rw [← same]
      apply List.count_pos_iff.mp
      rw [List.count_erase_self]
      omega
    · exact (List.mem_erase_of_ne same).mpr member

theorem backed_assign (spared : orphans s .assignContext = false) (backed : Backed s) :
    Backed { s with js := s.js + 1, reset := .contextMade } := by
  intro call task here captured
  have before := alive_iff.mp (backed call task here captured)
  apply alive_iff.mpr
  by_cases current : s.js = task.ctx
  · have pending := pendingOn_of_held here captured
    simp only [orphans, current, pending, Bool.and_true, Bool.not_eq_false',
      List.contains_iff_mem] at spared
    exact .inr spared
  · exact .inr (before.resolve_left current)

theorem backed_preserved (taken : step s a = some t) (spared : orphans s a = false)
    (backed : Backed s) : Backed t := by
  cases a with
  | loop act =>
      have moved : ∃ later, EventLoop.step s.loop act = some later ∧ { s with loop := later } = t := by
        cases act with
        | enqueue task =>
            simp only [step] at taken
            split_ifs at taken
            exact Option.map_eq_some_iff.mp taken
        | _ => exact Option.map_eq_some_iff.mp taken
      obtain ⟨later, moved, rfl⟩ := moved
      exact backed_loop (EventLoop.step_some moved) spared backed
  | lockContext ctx =>
      simp only [step] at taken
      split_ifs at taken
      cases taken
      intro call task here captured
      have before := alive_iff.mp (backed call task here captured)
      exact alive_iff.mpr (before.imp_right (List.mem_cons_of_mem ctx))
  | unlockContext ctx =>
      simp only [step] at taken
      split_ifs at taken
      cases taken
      exact backed_unlock spared backed
  | clearDeadline =>
      simp only [step] at taken
      split_ifs at taken
      cases taken
      exact backed
  | assignContext =>
      simp only [step] at taken
      split_ifs at taken
      cases taken
      exact backed_assign spared backed
  | startLoop =>
      simp only [step] at taken
      split_ifs at taken
      cases taken
      intro call task here captured
      refine backed call task (.inl ?_) captured
      simpa [held, EventLoop.LoopPc.task] using here

end Preservation

theorem backed_initial (now : Nat) : Backed (initial now) := by
  intro call task _ captured
  simp [initial, EventLoop.initial, taskOf] at captured

theorem not_stale_of_backed {s : State} {a : Action} (backed : Backed s) : stale s a = false := by
  cases a with
  | loop act =>
      cases act with
      | js choice =>
          cases pc : s.loop.pc with
          | runTask call =>
              cases captured : taskOf s.loop call with
              | none => simp [stale, pc, captured]
              | some task =>
                  have alive := backed call task (.inr (by rw [pc]; rfl)) captured
                  simp [stale, pc, captured, alive]
          | _ => simp [stale, pc]
      | _ => rfl
  | _ => rfl

/-- If no context goes away while a pending task has captured it, and no task is posted for one that
is gone, the loop never runs a task whose context is gone. -/
theorem no_stale_task {history : List (State × Action)} {s : State}
    (run : Run system history s)
    (steps : ∀ entry ∈ history, orphans entry.1 entry.2 = false) :
    ∀ entry ∈ history, stale entry.1 entry.2 = false := by
  have backed := run.always_invariant (fun s a => orphans s a = false) Backed
    (by
      rintro _ ⟨now, rfl⟩
      exact backed_initial now)
    (fun s a t backed spared taken => backed_preserved taken spared backed) steps
  intro entry member
  exact not_stale_of_backed (backed.2 entry member)

def stopLoop : List Action :=
  [.loop (.setDeadline 0), .loop (.js 0), .loop (.js 0), .loop .notifyAll, .loop .join]

def restart : List Action :=
  [.clearDeadline, .assignContext, .startLoop]

def postAndRun (task : Task) (call : Nat) : List Action :=
  (EventLoop.post task call ++ EventLoop.loopTurn).map .loop

theorem no_stale_task_across_reset :
    ∃ (history : List (State × Action)) (s : State),
      Run system history s ∧ s.js = 1 ∧ s.loop.executed = [0, 1] ∧
        ∀ entry ∈ history, stale entry.1 entry.2 = false := by
  obtain ⟨history, s, run, checked⟩ := system.exists_run ⟨0, rfl⟩
    (postAndRun ⟨.job, 0⟩ 0 ++ stopLoop ++ restart ++ postAndRun ⟨.job, 1⟩ 1)
    (fun history s => s.js == 1 && s.loop.executed == [0, 1] &&
      history.all fun entry => !orphans entry.1 entry.2) (by decide +kernel)
  simp only [Bool.and_eq_true, beq_iff_eq, List.all_eq_true, Bool.not_eq_true'] at checked
  exact ⟨history, s, run, checked.1.1, checked.1.2, no_stale_task run checked.2⟩

theorem stale_task_run :
    ∃ (history : List (State × Action)) (s : State),
      Run system history s ∧ ∃ entry ∈ history, stale entry.1 entry.2 = true := by
  obtain ⟨history, s, run, checked⟩ := system.exists_run ⟨0, rfl⟩
    (stopLoop ++ [.lockContext 0] ++ (EventLoop.post ⟨.lazyCompletion, 0⟩ 0).map .loop ++
      [.unlockContext 0] ++ restart ++ EventLoop.loopTurn.map .loop)
    (fun history _ => history.any fun entry => stale entry.1 entry.2) (by decide +kernel)
  exact ⟨history, s, run, List.any_eq_true.mp checked⟩

end BreezeJs.StaleTask
