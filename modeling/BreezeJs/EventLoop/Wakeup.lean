import BreezeJs.EventLoop.Counter

set_option autoImplicit false

namespace BreezeJs.EventLoop

open Transition

variable {τ : Type}

-- The stopping thread waits in `join()` for a JS thread that nothing will wake.
def SignalLost (s : State τ) : Prop :=
  s.shutdownDeadline.isSome ∧ s.stop = .joining ∧ s.pc = .blocked

-- `notify_all` falls between the false predicate and the block.
def signalsInWindow (s : State τ) : Action τ → Bool
  | .notifyAll => decide (s.pc = .enterWait)
  | _ => false

def Signalled (s : State τ) : Prop :=
  s.stop = .joining ∨ s.stop = .joined → s.pc ≠ .enterWait ∧ s.pc ≠ .blocked

theorem signalled_preserved {s t : State τ} {a : Action τ} (taken : Step s a t)
    (coherent : Coherent s) (outside : signalsInWindow s a = false) (signalled : Signalled s) :
    Signalled t := by
  have stop := coherent.stop
  simp only [Signalled] at signalled ⊢
  intro joining
  cases taken with
  | notifyOne call p _ _ =>
      have before := signalled joining
      cases pc : s.pc <;> simp_all [LoopPc.notified]
  | notifyAll armed =>
      simp only [signalsInWindow, decide_eq_false_iff_not] at outside
      cases pc : s.pc <;> simp_all [LoopPc.notified]
  | _ => simp_all

theorem shutdown_signal_kept {history : List (State τ × Action τ)} {s : State τ}
    (run : Run (system τ) history s)
    (steps : ∀ entry ∈ history, signalsInWindow entry.1 entry.2 = false) : ¬ SignalLost s := by
  have signalled := always_preserved (fun s a => signalsInWindow s a = false) Signalled
    (fun now => by simp [Signalled, initial])
    (fun s a t taken coherent outside signalled =>
      signalled_preserved taken coherent outside signalled) run steps
  rintro ⟨_, joining, blocked⟩
  exact (signalled.1 (.inl joining)).2 blocked

def parkTurn : List (Action τ) :=
  [.js 0, .js 0, .js 0, .js 0]

theorem shutdown_signal_kept_when_parked :
    ∃ (history : List (State Unit × Action Unit)) (s : State Unit),
      Run (system Unit) history s ∧ s.stop = .joining ∧ ¬ SignalLost s := by
  obtain ⟨history, s, run, checked⟩ := (system Unit).exists_run ⟨0, rfl⟩
    (parkTurn ++ [.js 0, .setDeadline 0, .notifyAll])
    (fun history s => s.stop == .joining &&
      history.all fun entry => !signalsInWindow entry.1 entry.2) (by decide +kernel)
  simp only [Bool.and_eq_true, beq_iff_eq, List.all_eq_true, Bool.not_eq_true'] at checked
  exact ⟨history, s, run, checked.1, shutdown_signal_kept run checked.2⟩

theorem shutdown_signal_lost : ∃ s : State Unit, Reachable (system Unit) s ∧ SignalLost s := by
  obtain ⟨history, s, run, checked⟩ := (system Unit).exists_run ⟨0, rfl⟩
    (parkTurn ++ [.setDeadline 0, .notifyAll, .js 0])
    (fun _ s => s.shutdownDeadline.isSome && s.stop == .joining && s.pc == .blocked)
    (by decide +kernel)
  simp only [Bool.and_eq_true, beq_iff_eq] at checked
  exact ⟨s, run.reachable, checked.1.1, checked.1.2, checked.2⟩

def LoopPc.swept : LoopPc → Bool
  | .exitTest | .lockMutex | .evalPredicate | .enterWait | .blocked | .relock | .unlockMutex => true
  | _ => false

def QueuedIn (stages : PostStage → Prop) (queue : List Nat) (posts : List (Post τ)) : Prop :=
  ∀ call ∈ queue, ∀ p, posts[call]? = some p → stages p.stage

@[simp] theorem notified_swept (pc : LoopPc) : pc.notified.swept = pc.swept := by
  cases pc <;> rfl

structure Swept (s : State τ) : Prop where
  sized : Sized s
  uncounted : s.pc.swept = true → ∀ call, HasStage s.posts call .enqueued → call ∈ s.taskQueue
  -- `cv_mutex` is held, so no post that counted since the predicate can have got past its lock.
  entering : s.pc = .enterWait →
    QueuedIn (fun stage => stage = .enqueued ∨ stage = .counted) s.taskQueue s.posts
  waiting : s.pc = .blocked → QueuedIn (fun stage => stage ≠ .returned) s.taskQueue s.posts

def Draining (s : State τ) : Prop :=
  s.shutdownDeadline.isSome ∧ s.pc ≠ .enterWait ∧ s.pc ≠ .blocked

theorem queuedIn_enqueue {stages : PostStage → Prop} {queue : List Nat} {posts : List (Post τ)}
    (queued : QueuedIn stages queue posts) (known : ∀ call ∈ queue, call < posts.length)
    (new : stages .enqueued) (task : τ) :
    QueuedIn stages (queue ++ [posts.length]) (posts ++ [⟨task, .enqueued⟩]) := by
  intro call member p current
  rcases List.mem_append.mp member with old | last
  · rw [List.getElem?_append_left (known call old)] at current
    exact queued call old p current
  · rw [List.mem_singleton.mp last, List.getElem?_concat_length] at current
    cases current
    exact new

theorem queuedIn_setStage {stages : PostStage → Prop} {queue : List Nat} {posts : List (Post τ)}
    {call : Nat} {p : Post τ} (queued : QueuedIn stages queue posts)
    (current : posts[call]? = some p) {target : PostStage} (moved : stages p.stage → stages target) :
    QueuedIn stages queue (setStage posts call p target) := by
  intro other member q found
  rw [getElem?_setStage current] at found
  by_cases same : other = call
  · simp only [same, if_true] at found
    cases found
    exact moved (queued call (same ▸ member) p current)
  · simp only [same, if_false] at found
    exact queued other member q found

section Preservation

variable {s t : State τ} {a : Action τ}

theorem draining_preserved (taken : Step s a t) (draining : Draining s) : Draining t := by
  simp only [Draining] at draining ⊢
  cases taken with
  | notifyOne | notifyAll => cases pc : s.pc <;> simp_all [LoopPc.notified]
  | _ => simp_all

theorem draining_of_drop (taken : Step s a t) (lost : drops s a = true) : Draining t := by
  obtain ⟨choice, task, rfl, pc, passed⟩ := drops_iff.mp lost
  have set := deadlineSet_of_passed passed
  simp only [Draining]
  cases taken <;> simp_all

theorem uncounted_preserved (taken : Step s a t) (spared : drops s a = false) (swept : Swept s)
    (between : t.pc.swept = true) (call : Nat) (uncounted : HasStage t.posts call .enqueued) :
    call ∈ t.taskQueue := by
  have before := swept.uncounted
  cases taken with
  | enqueue task _ =>
      rw [hasStage_append] at uncounted
      rcases uncounted with old | ⟨new, _⟩
      · exact List.mem_append_left _ (before between call old)
      · simp [new]
  | fetchAdd other p current stage =>
      rw [hasStage_setStage current] at uncounted
      by_cases same : call = other
      · simp [same] at uncounted
      · simp only [same, if_false] at uncounted
        exact before between call uncounted
  | lock other p current stage _ =>
      rw [hasStage_unaffected current (by simp [stage]) (by simp)] at uncounted
      exact before between call uncounted
  | unlock other p current stage =>
      rw [hasStage_unaffected current (by simp [stage]) (by simp)] at uncounted
      exact before between call uncounted
  | notifyOne other p current stage =>
      rw [hasStage_unaffected current (by simp [stage]) (by simp)] at uncounted
      exact before (by simpa using between) call uncounted
  | notifyAll _ => exact before (by simpa using between) call uncounted
  | dequeueEmpty choice pc empty =>
      have sized := swept.sized
      have present : 0 < inStage s.posts .enqueued := inStage_pos uncounted
      simp only [Sized, pc, empty, LoopPc.held, LoopPc.task, List.length_nil, Option.isSome_none,
        Bool.false_eq_true, if_false] at sized
      omega
  | drop choice task pc passed => simp [drops, pc, passed] at spared
  | acquire choice pc _ =>
      refine before ?_ call uncounted
      rcases pc with pc | pc <;> simp [pc, LoopPc.swept]
  | _ => simp_all [LoopPc.swept]

theorem entering_preserved (taken : Step s a t) (coherent : Coherent s) (swept : Swept s)
    (pc : t.pc = .enterWait) :
    QueuedIn (fun stage => stage = .enqueued ∨ stage = .counted) t.taskQueue t.posts := by
  have before := swept.entering
  cases taken with
  | enqueue task _ => exact queuedIn_enqueue (before pc) coherent.known (.inl rfl) task
  | fetchAdd call p current _ => exact queuedIn_setStage (before pc) current (fun _ => .inr rfl)
  | lock call p current _ free =>
      have held := coherent.jsMutex.mp (by simp only at pc; rw [pc]; rfl)
      simp [free] at held
  | unlock call p current stage => exact queuedIn_setStage (before pc) current (by simp [stage])
  | notifyOne call p current stage =>
      have here := ((notified_eq_iff s.pc .enterWait (by simp)).mp pc).1
      exact queuedIn_setStage (before here) current (by simp [stage])
  | notifyAll _ => exact before ((notified_eq_iff s.pc .enterWait (by simp)).mp pc).1
  | predicateFalse choice here zero _ =>
      intro call queued p current
      by_contra past
      have fewer : inStage s.posts .enqueued < s.taskQueue.length := by
        refine Counting.countP_lt_length_of_positions (fun other q found uncounted => ?_) queued
          (fun q found => ?_)
        · exact swept.uncounted (by rw [here]; rfl) other ⟨q, found, by simpa using uncounted⟩
        · rw [current] at found
          cases found
          simp_all
      have sized := swept.sized
      simp only [Sized, here, zero, LoopPc.countedDown, LoopPc.held, LoopPc.task,
        Option.isSome_none, Bool.false_eq_true, if_false] at sized
      omega
  | _ => simp_all

theorem waiting_preserved (taken : Step s a t) (coherent : Coherent s) (swept : Swept s)
    (pc : t.pc = .blocked) : QueuedIn (fun stage => stage ≠ .returned) t.taskQueue t.posts := by
  have before := swept.waiting
  cases taken with
  | enqueue task _ => exact queuedIn_enqueue (before pc) coherent.known (by simp) task
  | fetchAdd call p current _ => exact queuedIn_setStage (before pc) current (by simp)
  | lock call p current _ _ => exact queuedIn_setStage (before pc) current (by simp)
  | unlock call p current _ => exact queuedIn_setStage (before pc) current (by simp)
  | notifyOne | notifyAll =>
      have same := (notified_eq_iff s.pc .blocked (by simp)).mp pc
      exact absurd same.1 same.2
  | enterWait choice here =>
      intro call queued p current returned
      have early := swept.entering here call queued p current
      simp [returned] at early
  | _ => simp_all

theorem swept_preserved (taken : Step s a t) (coherent : Coherent s) (spared : drops s a = false)
    (behind : overtakes s a = false) (swept : Swept s) : Swept t where
  sized := sized_preserved taken coherent.room spared behind swept.sized
  uncounted := uncounted_preserved taken spared swept
  entering := entering_preserved taken coherent swept
  waiting := waiting_preserved taken coherent swept

end Preservation

theorem swept_initial (now : Nat) : Swept (initial now : State τ) where
  sized := sized_initial now
  uncounted := by simp [initial, LoopPc.swept]
  entering := by simp [initial]
  waiting := by simp [initial]

/-- As long as no task is counted down before it is counted, no task of a returned `post` is in the
queue while the JS thread is blocked. -/
theorem post_wakeup_kept {history : List (State τ × Action τ)} {s : State τ}
    (run : Run (system τ) history s)
    (steps : ∀ entry ∈ history, overtakes entry.1 entry.2 = false) (blocked : s.pc = .blocked)
    {call : Nat} (queued : call ∈ s.taskQueue) : ¬ HasStage s.posts call .returned := by
  have holds := always_preserved (fun s a => overtakes s a = false)
    (fun s => Swept s ∨ Draining s) (fun now => .inl (swept_initial now))
    (fun s a t taken coherent behind held => by
      cases held with
      | inr draining => exact .inr (draining_preserved taken draining)
      | inl swept =>
          by_cases spared : drops s a = false
          · exact .inl (swept_preserved taken coherent spared behind swept)
          · exact .inr (draining_of_drop taken (by simpa using spared))) run steps
  cases holds.1 with
  | inr draining => exact absurd blocked draining.2.2
  | inl swept =>
      rintro ⟨p, current, returned⟩
      exact swept.waiting blocked call queued p current returned

theorem post_wakeup_kept_when_parked :
    ∃ (history : List (State Unit × Action Unit)) (s : State Unit),
      Run (system Unit) history s ∧ s.pc = .blocked ∧ s.taskQueue = [0] ∧
        ¬ HasStage s.posts 0 .returned := by
  obtain ⟨history, s, run, checked⟩ := (system Unit).exists_run ⟨0, rfl⟩
    (parkTurn ++ [.js 0, .enqueue (), .fetchAdd 0])
    (fun history s => s.pc == .blocked && s.taskQueue == [0] &&
      history.all fun entry => !overtakes entry.1 entry.2) (by decide +kernel)
  simp only [Bool.and_eq_true, beq_iff_eq, List.all_eq_true, Bool.not_eq_true'] at checked
  obtain ⟨⟨blocked, queue⟩, steps⟩ := checked
  exact ⟨history, s, run, blocked, queue,
    post_wakeup_kept run steps blocked (by simp [queue])⟩

def overtakenPost : List (Action Unit) :=
  .enqueue () :: loopTurn ++ [.js 0, .js 0] ++ post () 1 ++ [.js 0, .js 0, .js 0]

theorem post_wakeup_lost :
    ∃ s : State Unit, Reachable (system Unit) s ∧ s.pc = .blocked ∧ s.shutdownDeadline = none ∧
      1 ∈ s.taskQueue ∧ HasStage s.posts 1 .returned := by
  obtain ⟨history, s, run, checked⟩ := (system Unit).exists_run ⟨0, rfl⟩ overtakenPost
    (fun _ s => s.pc == .blocked && s.shutdownDeadline == none && s.taskQueue == [1] &&
      s.posts == [⟨(), .enqueued⟩, ⟨(), .returned⟩]) (by decide +kernel)
  simp only [Bool.and_eq_true, beq_iff_eq] at checked
  obtain ⟨⟨⟨blocked, deadline⟩, queue⟩, posts⟩ := checked
  exact ⟨s, run.reachable, blocked, deadline, by simp [queue], ⟨(), .returned⟩, by simp [posts], rfl⟩

def inStages (stages : PostStage → Bool) (posts : List (Post τ)) : Nat :=
  posts.countP fun p => stages p.stage

def PostStage.notifying : PostStage → Bool
  | .counted | .locked | .unlocked => true
  | .enqueued | .returned => false

def PostStage.ongoing (stage : PostStage) : Bool :=
  stage != .returned

theorem inStages_setStage {posts : List (Post τ)} {call : Nat} {p : Post τ}
    (current : posts[call]? = some p) (stages : PostStage → Bool) (target : PostStage) :
    inStages stages (setStage posts call p target) + (if stages p.stage then 1 else 0) =
      inStages stages posts + (if stages target then 1 else 0) :=
  Counting.countP_set_add (p := fun q : Post τ => stages q.stage) { p with stage := target } current

theorem ongoing_eq (posts : List (Post τ)) :
    inStages PostStage.ongoing posts =
      inStage posts .enqueued + inStages PostStage.notifying posts := by
  simp only [inStages, inStage]
  induction posts with
  | nil => rfl
  | cons p rest ih =>
      simp only [List.countP_cons, ih]
      cases p.stage <;> simp [PostStage.ongoing, PostStage.notifying] <;> omega

theorem counted_le_notifying (posts : List (Post τ)) :
    inStage posts .counted ≤ inStages PostStage.notifying posts := by
  apply List.countP_mono_left
  intro p _ counted
  simp only [decide_eq_true_eq] at counted
  simp [counted, PostStage.notifying]

def State.Kept (s : State τ) : Prop :=
  s.taskQueue.length + s.pc.held + s.executed.length = s.posts.length

structure Parked (s : State τ) : Prop where
  kept : s.Kept ∨ Draining s
  entering : s.pc = .enterWait → s.taskQueueSize ≤ inStage s.posts .counted
  waiting : s.pc = .blocked → s.taskQueueSize ≤ inStages PostStage.notifying s.posts

theorem parked_initial (now : Nat) : Parked (initial now : State τ) where
  kept := .inl (by simp [initial, State.Kept, LoopPc.held, LoopPc.task])
  entering := by simp [initial]
  waiting := by simp [initial]

section Preservation

variable {s t : State τ} {a : Action τ}

theorem kept_preserved (taken : Step s a t) (spared : drops s a = false) (kept : s.Kept) :
    t.Kept := by
  simp only [State.Kept] at kept ⊢
  cases taken with
  | enqueue task _ =>
      simp only [List.length_append, List.length_singleton]
      omega
  | dequeue choice task pc found =>
      have inside := (List.getElem?_eq_some_iff.mp found).1
      simp only [pc, LoopPc.held, LoopPc.task, List.length_eraseIdx, inside, if_true] at kept ⊢
      simp only [Option.isSome_none, Option.isSome_some, Bool.false_eq_true, if_false,
        if_true] at kept ⊢
      omega
  | drop choice task pc passed => simp [drops, pc, passed] at spared
  | runTask choice task pc =>
      simp only [pc, LoopPc.held, LoopPc.task, List.length_append, List.length_singleton] at kept ⊢
      simp only [Option.isSome_none, Option.isSome_some, Bool.false_eq_true, if_false,
        if_true] at kept ⊢
      omega
  | notifyOne => simpa using kept
  | notifyAll => simpa using kept
  | acquire choice pc _ =>
      rcases pc with pc | pc <;> simpa [pc, LoopPc.held, LoopPc.task] using kept
  | _ => simp_all [LoopPc.held, LoopPc.task]

theorem kept_or_draining (taken : Step s a t) (kept : s.Kept ∨ Draining s) :
    t.Kept ∨ Draining t := by
  cases kept with
  | inr draining => exact .inr (draining_preserved taken draining)
  | inl kept =>
      by_cases spared : drops s a = false
      · exact .inl (kept_preserved taken spared kept)
      · exact .inr (draining_of_drop taken (by simpa using spared))

theorem parked_entering_preserved (taken : Step s a t) (coherent : Coherent s) (parked : Parked s)
    (pc : t.pc = .enterWait) : t.taskQueueSize ≤ inStage t.posts .counted := by
  have entering := parked.entering
  cases taken with
  | enqueue task _ => simpa [inStage] using entering pc
  | fetchAdd call p current stage =>
      have moved := inStage_setStage current .counted .counted
      simp only [stage, reduceCtorEq, if_false, if_true] at moved
      have before := entering pc
      have wrapped := Nat.mod_le (s.taskQueueSize + 1) sizeRange
      simp only
      omega
  | lock call p current stage free =>
      have held := coherent.jsMutex.mp (by simp only at pc; rw [pc]; rfl)
      simp [free] at held
  | unlock call p current stage =>
      have moved := inStage_setStage current .unlocked .counted
      simp_all
  | notifyOne call p current stage =>
      have moved := inStage_setStage current .returned .counted
      have same := (notified_eq_iff s.pc .enterWait (by simp)).mp pc
      simp_all
  | notifyAll _ => exact entering ((notified_eq_iff s.pc .enterWait (by simp)).mp pc).1
  | predicateFalse choice _ zero _ => simp [zero]
  | _ => simp_all

theorem parked_waiting_preserved (taken : Step s a t) (parked : Parked s)
    (pc : t.pc = .blocked) : t.taskQueueSize ≤ inStages PostStage.notifying t.posts := by
  have waiting := parked.waiting
  cases taken with
  | enqueue task _ => simpa [inStages, PostStage.notifying] using waiting pc
  | fetchAdd call p current stage =>
      have moved := inStages_setStage current PostStage.notifying .counted
      simp only [stage, PostStage.notifying, Bool.false_eq_true, if_false, if_true] at moved
      have before := waiting pc
      have wrapped := Nat.mod_le (s.taskQueueSize + 1) sizeRange
      simp only
      omega
  | lock call p current stage free =>
      have moved := inStages_setStage current PostStage.notifying .locked
      simp_all [PostStage.notifying]
  | unlock call p current stage =>
      have moved := inStages_setStage current PostStage.notifying .unlocked
      simp_all [PostStage.notifying]
  | notifyOne | notifyAll =>
      have same := (notified_eq_iff s.pc .blocked (by simp)).mp pc
      exact absurd same.1 same.2
  | enterWait choice before =>
      exact (parked.entering before).trans (counted_le_notifying s.posts)
  | _ => simp_all

theorem parked_preserved (taken : Step s a t) (coherent : Coherent s) (parked : Parked s) :
    Parked t where
  kept := kept_or_draining taken parked.kept
  entering := parked_entering_preserved taken coherent parked
  waiting := parked_waiting_preserved taken parked

end Preservation

theorem parked_reachable {s : State τ} (reached : Reachable (system τ) s) : Parked s := by
  obtain ⟨history, run⟩ := reached
  have parked := always_preserved (fun _ _ => True) Parked parked_initial
    (fun s a t taken coherent _ parked => parked_preserved taken coherent parked) run
    (fun _ _ => trivial)
  exact parked.1

theorem counter_of_kept {s : State τ} (coherent : Coherent s) (kept : s.Kept) :
    (s.taskQueueSize + inStage s.posts .enqueued + s.pc.countedDown) % sizeRange =
      (s.taskQueue.length + s.pc.held) % sizeRange := by
  have counter := coherent.counter
  unfold State.Kept at kept
  simp only [sizeRange] at counter ⊢
  omega

theorem blocked_awaits_ongoing_post {s : State τ} (reached : Reachable (system τ) s)
    (blocked : s.pc = .blocked) {call : Nat} (queued : call ∈ s.taskQueue)
    (returned : HasStage s.posts call .returned) :
    ∃ other p, s.posts[other]? = some p ∧ p.stage ≠ .returned ∧ other ∉ s.taskQueue := by
  by_contra none
  push Not at none
  have coherent := coherent_reachable reached
  have parked := parked_reachable reached
  have kept : s.Kept := by
    cases parked.kept with
    | inl kept => exact kept
    | inr draining => exact absurd blocked draining.2.2
  have fewer : inStages PostStage.ongoing s.posts < s.taskQueue.length := by
    refine Counting.countP_lt_length_of_positions (fun i p current open_ => ?_) queued
      (fun p current => ?_)
    · exact none i p current (by simpa [PostStage.ongoing] using open_)
    · obtain ⟨q, found, stage⟩ := returned
      rw [found] at current
      cases current
      simp [stage, PostStage.ongoing]
  have counter := counter_of_kept coherent kept
  have waiting := parked.waiting blocked
  have room := coherent.room
  rw [ongoing_eq] at fewer
  simp only [blocked, LoopPc.countedDown, LoopPc.held, LoopPc.task, Option.isSome_none,
    Bool.false_eq_true, if_false] at counter
  unfold sizeRange at counter
  unfold maxTasks at room
  omega

end BreezeJs.EventLoop
