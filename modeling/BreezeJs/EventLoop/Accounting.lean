import BreezeJs.EventLoop.Steps
import BreezeJs.Library.Counting

set_option autoImplicit false

namespace BreezeJs.EventLoop

open Transition

variable {τ : Type}

def LoopPc.task : LoopPc → Option Nat
  | .testDeadline task | .fetchSub task | .runTask task => some task
  | _ => none

def LoopPc.held (pc : LoopPc) : Nat :=
  if pc.task.isSome then 1 else 0

def LoopPc.countedDown : LoopPc → Nat
  | .runTask _ => 1
  | _ => 0

def LoopPc.holdsMutex : LoopPc → Bool
  | .evalPredicate | .enterWait | .unlockMutex => true
  | _ => false

@[simp] theorem notified_task (pc : LoopPc) : pc.notified.task = pc.task := by
  cases pc <;> rfl

@[simp] theorem notified_held (pc : LoopPc) : pc.notified.held = pc.held := by
  cases pc <;> rfl

@[simp] theorem notified_countedDown (pc : LoopPc) : pc.notified.countedDown = pc.countedDown := by
  cases pc <;> rfl

@[simp] theorem notified_holdsMutex (pc : LoopPc) : pc.notified.holdsMutex = pc.holdsMutex := by
  cases pc <;> rfl

theorem notified_eq_iff (pc other : LoopPc) (notWoken : other ≠ .relock) :
    pc.notified = other ↔ pc = other ∧ pc ≠ .blocked := by
  cases pc <;> cases other <;> simp_all [LoopPc.notified]

def inStage (posts : List (Post τ)) (stage : PostStage) : Nat :=
  posts.countP fun p => p.stage = stage

theorem sizeRange_pos : 0 < sizeRange := by
  simp only [sizeRange]
  omega

theorem deadlineSet_of_passed {s : State τ} (passed : s.deadlinePassed = true) :
    s.shutdownDeadline.isSome = true := by
  unfold State.deadlinePassed at passed
  split at passed <;> simp_all

section Posts

variable {posts : List (Post τ)} {call : Nat} {p : Post τ}

@[simp] theorem length_setStage (stage : PostStage) :
    (setStage posts call p stage).length = posts.length := by
  simp [setStage]

theorem inStage_enqueued (posts : List (Post τ)) (task : τ) :
    inStage (posts ++ [⟨task, .enqueued⟩]) .enqueued = inStage posts .enqueued + 1 := by
  simp [inStage]

theorem inStage_setStage (current : posts[call]? = some p) (target stage : PostStage) :
    inStage (setStage posts call p target) stage + (if p.stage = stage then 1 else 0) =
      inStage posts stage + (if target = stage then 1 else 0) := by
  have counted := Counting.countP_set_add (p := fun q : Post τ => decide (q.stage = stage))
    { p with stage := target } current
  simpa [inStage, setStage] using counted

theorem getElem?_setStage (current : posts[call]? = some p) (stage : PostStage) (other : Nat) :
    (setStage posts call p stage)[other]? =
      if other = call then some { p with stage := stage } else posts[other]? :=
  Counting.getElem?_set_of_some current { p with stage := stage } other

def HasStage (posts : List (Post τ)) (call : Nat) (stage : PostStage) : Prop :=
  ∃ p, posts[call]? = some p ∧ p.stage = stage

theorem inStage_pos {stage : PostStage} (some : HasStage posts call stage) :
    0 < inStage posts stage := by
  obtain ⟨q, found, here⟩ := some
  exact List.countP_pos_iff.mpr ⟨q, List.mem_of_getElem? found, by simpa using here⟩

theorem hasStage_setStage (current : posts[call]? = some p) (target : PostStage) (other : Nat)
    (stage : PostStage) :
    HasStage (setStage posts call p target) other stage ↔
      if other = call then target = stage else HasStage posts other stage := by
  simp only [HasStage]
  rw [getElem?_setStage current]
  split <;> simp

theorem hasStage_unaffected (current : posts[call]? = some p) {target stage : PostStage}
    (source : p.stage ≠ stage) (away : target ≠ stage) (other : Nat) :
    HasStage (setStage posts call p target) other stage ↔ HasStage posts other stage := by
  rw [hasStage_setStage current]
  by_cases same : other = call
  · subst same
    simp [HasStage, current, source, away]
  · simp [same]

theorem hasStage_append (posts : List (Post τ)) (new : Post τ) (other : Nat) (stage : PostStage) :
    HasStage (posts ++ [new]) other stage ↔
      HasStage posts other stage ∨ (other = posts.length ∧ new.stage = stage) := by
  simp only [HasStage]
  rcases Nat.lt_trichotomy other posts.length with earlier | last | later
  · simp [List.getElem?_append_left earlier, Nat.ne_of_lt earlier]
  · subst last
    simp
  · have beyond : (posts ++ [new])[other]? = none := by
      apply List.getElem?_eq_none
      simp only [List.length_append, List.length_singleton]
      omega
    simp [beyond, List.getElem?_eq_none (Nat.le_of_lt later), Nat.ne_of_gt later]

end Posts

structure Coherent (s : State τ) : Prop where
  size : s.taskQueueSize < sizeRange
  room : s.taskQueue.length < maxTasks
  known : ∀ call ∈ s.taskQueue, call < s.posts.length
  stop : s.stop = .idle ↔ s.shutdownDeadline = none
  jsMutex : s.pc.holdsMutex = true ↔ s.cvMutex = some .jsThread
  postMutex : ∀ call, s.cvMutex = some (.post call) ↔ HasStage s.posts call .locked
  counter :
    (s.taskQueueSize + inStage s.posts .enqueued + s.executed.length + s.pc.countedDown) % sizeRange =
      s.posts.length % sizeRange

theorem coherent_initial (now : Nat) : Coherent (initial now : State τ) where
  size := by simp only [initial, sizeRange]; omega
  room := by simp only [initial, List.length_nil, maxTasks]; omega
  known := by simp [initial]
  stop := by simp [initial]
  jsMutex := by simp [initial, LoopPc.holdsMutex]
  postMutex := by simp [initial, HasStage]
  counter := by simp [initial, inStage, LoopPc.countedDown]

section Preservation

variable {s t : State τ} {a : Action τ}

theorem size_preserved (taken : Step s a t) (size : s.taskQueueSize < sizeRange) :
    t.taskQueueSize < sizeRange := by
  cases taken with
  | fetchAdd | fetchSub => exact Nat.mod_lt _ sizeRange_pos
  | _ => exact size

theorem room_preserved (taken : Step s a t) (room : s.taskQueue.length < maxTasks) :
    t.taskQueue.length < maxTasks := by
  cases taken with
  | enqueue task free => simpa using free
  | dequeue choice task _ _ =>
      exact Nat.lt_of_le_of_lt (List.eraseIdx_sublist s.taskQueue choice).length_le room
  | _ => exact room

theorem known_preserved (taken : Step s a t) (known : ∀ call ∈ s.taskQueue, call < s.posts.length) :
    ∀ call ∈ t.taskQueue, call < t.posts.length := by
  intro call queued
  cases taken with
  | enqueue task _ =>
      rw [List.length_append, List.length_singleton]
      rcases List.mem_append.mp queued with old | new
      · exact Nat.lt_succ_of_lt (known call old)
      · rw [List.mem_singleton.mp new]
        exact Nat.lt_succ_self _
  | dequeue choice task _ _ => exact known call (List.mem_of_mem_eraseIdx queued)
  | fetchAdd | lock | unlock | notifyOne => simpa using known call queued
  | _ => exact known call queued

theorem stop_preserved (taken : Step s a t)
    (stop : s.stop = .idle ↔ s.shutdownDeadline = none) :
    t.stop = .idle ↔ t.shutdownDeadline = none := by
  cases taken <;> simp_all

theorem jsMutex_preserved (taken : Step s a t) (coherent : Coherent s) :
    t.pc.holdsMutex = true ↔ t.cvMutex = some .jsThread := by
  have js := coherent.jsMutex
  cases taken with
  | lock call p current stage free => simp_all
  | unlock call p current stage =>
      have owner := (coherent.postMutex call).mpr ⟨p, current, stage⟩
      simp_all
  | notifyOne call p _ _ => simpa using js
  | notifyAll _ => simpa using js
  | _ => simp_all [LoopPc.holdsMutex]

theorem postMutex_preserved (taken : Step s a t) (coherent : Coherent s) (call : Nat) :
    t.cvMutex = some (.post call) ↔ HasStage t.posts call .locked := by
  have js := coherent.jsMutex
  have owned := coherent.postMutex
  cases taken with
  | enqueue task _ => simpa [hasStage_append] using owned call
  | fetchAdd other p current stage =>
      rw [hasStage_unaffected current (by simp [stage]) (by simp)]
      exact owned call
  | lock other p current stage free =>
      have unowned := owned call
      simp only [free, reduceCtorEq, false_iff] at unowned
      rw [hasStage_setStage current]
      by_cases same : call = other
      · simp [same]
      · simp [same, Ne.symm same, unowned]
  | unlock other p current stage =>
      have owner := (owned other).mpr ⟨p, current, stage⟩
      have others := owned call
      rw [hasStage_setStage current]
      by_cases same : call = other
      · simp [same]
      · simp only [owner, Option.some.injEq, Owner.post.injEq, Ne.symm same, false_iff] at others
        simp [same, others]
  | notifyOne other p current stage =>
      rw [hasStage_unaffected current (by simp [stage]) (by simp)]
      exact owned call
  | acquire choice pc free =>
      have unowned := owned call
      simp_all
  | enterWait choice pc =>
      have held := js.mp (by rw [pc]; rfl)
      have unowned := owned call
      simp_all
  | unlockMutex choice pc =>
      have held := js.mp (by rw [pc]; rfl)
      have unowned := owned call
      simp_all
  | _ => exact owned call

theorem counter_preserved (taken : Step s a t) (coherent : Coherent s) :
    (t.taskQueueSize + inStage t.posts .enqueued + t.executed.length + t.pc.countedDown) %
        sizeRange = t.posts.length % sizeRange := by
  have counter := coherent.counter
  have size := coherent.size
  simp only [sizeRange] at counter size ⊢
  cases taken with
  | enqueue task _ =>
      simp only [inStage_enqueued, List.length_append, List.length_singleton]
      omega
  | fetchAdd call p current stage =>
      have moved := inStage_setStage current .counted .enqueued
      simp only [stage, if_true, reduceCtorEq, if_false] at moved
      simp only [length_setStage, sizeRange]
      omega
  | lock call p current stage _ =>
      have moved := inStage_setStage current .locked .enqueued
      simp_all
  | unlock call p current stage =>
      have moved := inStage_setStage current .unlocked .enqueued
      simp_all
  | notifyOne call p current stage =>
      have moved := inStage_setStage current .returned .enqueued
      simp_all
  | fetchSub choice task pc =>
      simp only [pc, LoopPc.countedDown, sizeRange] at counter ⊢
      omega
  | runTask choice task pc =>
      simp only [pc, LoopPc.countedDown, List.length_append, List.length_singleton] at counter ⊢
      omega
  | acquire choice pc _ => rcases pc with pc | pc <;> simpa [pc, LoopPc.countedDown] using counter
  | notifyAll _ => simpa using counter
  | _ => simp_all [LoopPc.countedDown]

theorem coherent_preserved (taken : Step s a t) (coherent : Coherent s) : Coherent t where
  size := size_preserved taken coherent.size
  room := room_preserved taken coherent.room
  known := known_preserved taken coherent.known
  stop := stop_preserved taken coherent.stop
  jsMutex := jsMutex_preserved taken coherent
  postMutex := postMutex_preserved taken coherent
  counter := counter_preserved taken coherent

end Preservation

theorem coherent_reachable {s : State τ} (reached : Reachable (system τ) s) : Coherent s := by
  apply reached.invariant Coherent
  · rintro _ ⟨now, rfl⟩
    exact coherent_initial now
  · intro s a t coherent taken
    exact coherent_preserved (step_some taken) coherent

theorem always_preserved (allowed : State τ → Action τ → Prop) (property : State τ → Prop)
    (starts : ∀ now, property (initial now))
    (preserved : ∀ s a t, Step s a t → Coherent s → allowed s a → property s → property t)
    {history : List (State τ × Action τ)} {s : State τ} (run : Run (system τ) history s)
    (steps : ∀ entry ∈ history, allowed entry.1 entry.2) :
    property s ∧ ∀ entry ∈ history, property entry.1 := by
  have holds := run.always_invariant allowed (fun s => Coherent s ∧ property s)
    (by
      rintro _ ⟨now, rfl⟩
      exact ⟨coherent_initial now, starts now⟩)
    (fun s a t held permitted taken =>
      ⟨coherent_preserved (step_some taken) held.1,
        preserved s a t (step_some taken) held.1 permitted held.2⟩) steps
  exact ⟨holds.1.2, fun entry member => (holds.2 entry member).2⟩

end BreezeJs.EventLoop
