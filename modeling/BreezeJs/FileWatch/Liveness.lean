import BreezeJs.FileWatch.Delivery

set_option autoImplicit false

namespace BreezeJs.FileWatch

open Infra Transition

variable {pass : Bytes → Bool} {s t : State} {a : Action}

theorem fits_one (event : InotifyEvent) : fits [event] = true := by
  have short := event.short
  rw [nameSpace] at short
  rw [fits, decide_eq_true_eq, List.flatMap_singleton, length_encode, eventSize, bufferSize]
  omega

theorem watch_enabled (pass : Bytes → Bool) (running : s.watch ≠ .exited)
    (readable : s.watch = .reading → s.unread ≠ [])
    (free : ∀ parsed, s.watch = .locking parsed → s.mutex = none) :
    ∃ t, step pass s (.watch 1) = some t := by
  simp only [step, State.watchStep]
  cases pc : s.watch with
  | exited => exact absurd pc running
  | test =>
      simp only
      split_ifs <;> simp
  | reading =>
      cases unread : s.unread with
      | nil => exact absurd unread (readable pc)
      | cons event rest => simp [fits_one]
  | locking parsed => simp [free parsed pc]
  | _ => simp

theorem callback_enabled (pass : Bytes → Bool) (running : s.callback.isExited = false)
    (awake : s.callback ≠ .blocked)
    (free : s.callback = .locking ∨ s.callback = .relocking → s.mutex = none) :
    ∃ t, step pass s (.callback .returned) = some t := by
  simp only [step, State.callbackStep]
  cases pc : s.callback with
  | exited abandoned => simp [pc, CallbackPc.isExited] at running
  | blocked => exact absurd pc awake
  | test =>
      simp only
      split_ifs <;> simp
  | locking => simp [free (.inl pc)]
  | relocking => simp [free (.inr pc)]
  | delivering batch => cases batch <;> simp
  | _ => simp

def threadAction : Action → Prop
  | .watch _ | .callback .returned | .callback .threwException => True
  | _ => False

theorem holder_enabled (coherent : Coherent s) (held : s.mutex ≠ none) :
    ∃ a t, threadAction a ∧ step pass s a = some t := by
  cases owner : s.mutex with
  | none => exact absurd owner held
  | some holder =>
      cases holder with
      | watch =>
          have locked := coherent.watchMutex.mp owner
          obtain ⟨t, taken⟩ := watch_enabled (s := s) pass
            (by intro pc; simp [pc, WatchPc.locked] at locked)
            (by intro pc; simp [pc, WatchPc.locked] at locked)
            (by intro parsed pc; simp [pc, WatchPc.locked] at locked)
          exact ⟨.watch 1, t, trivial, taken⟩
      | callback =>
          have locked := coherent.callbackMutex.mp owner
          obtain ⟨t, taken⟩ := callback_enabled (s := s) pass
            (by cases pc : s.callback <;> simp_all [CallbackPc.locked, CallbackPc.isExited])
            (by intro pc; simp [pc, CallbackPc.locked] at locked)
            (by rintro (pc | pc) <;> simp [pc, CallbackPc.locked] at locked)
          exact ⟨.callback .returned, t, trivial, taken⟩

theorem watch_progress (coherent : Coherent s) (running : s.watch ≠ .exited)
    (readable : s.watch = .reading → s.unread ≠ []) :
    ∃ a t, threadAction a ∧ step pass s a = some t := by
  by_cases free : s.mutex = none
  · obtain ⟨t, taken⟩ := watch_enabled pass running readable fun _ _ => free
    exact ⟨.watch 1, t, trivial, taken⟩
  · exact holder_enabled coherent free

theorem callback_progress (coherent : Coherent s) (running : s.callback.isExited = false)
    (awake : s.callback ≠ .blocked) : ∃ a t, threadAction a ∧ step pass s a = some t := by
  by_cases free : s.mutex = none
  · obtain ⟨t, taken⟩ := callback_enabled pass running awake fun _ => free
    exact ⟨.callback .returned, t, trivial, taken⟩
  · exact holder_enabled coherent free

def WatchPc.stage : WatchPc → Nat
  | .reading | .exited => 0
  | .test => 1
  | .notifying => 5
  | .inserting _ => 6
  | .locking _ => 7

def CallbackPc.stage : CallbackPc → Nat
  | .blocked | .exited _ => 0
  | .entering | .swapping => 1
  | .predicate => 2
  | .relocking | .checking => 3
  | .locking => 4
  | .test => 5
  | .delivering _ => 6

def State.distance (s : State) : Nat :=
  20 * s.unread.length + 10 * (s.watch.held.length + s.information.length) +
    s.callback.held.length + s.watch.stage + s.callback.stage

theorem length_notices_le (pass : Bytes → Bool) (events : List InotifyEvent) :
    (notices pass events).length ≤ events.length :=
  List.length_filterMap_le _ _

theorem notified_stage_le (pc : CallbackPc) : pc.notified.stage ≤ pc.stage + 3 := by
  cases pc <;> simp [CallbackPc.notified, CallbackPc.stage]

theorem distance_decreases (taken : Step pass s a t) (acts : threadAction a)
    (coherent : Coherent s) (clear : s.destory = false) : t.distance < s.distance := by
  simp only [State.distance]
  cases taken with
  | read count pc some =>
      have fewer := length_notices_le pass (s.unread.take count)
      have parts := congrArg List.length (List.take_append_drop count s.unread)
      have positive := List.length_pos_iff.mpr some
      rw [List.length_append] at parts
      simp only [pc, WatchPc.held, WatchPc.stage, List.length_nil]
      omega
  | notifyAll count pc =>
      have raised := notified_stage_le s.callback
      simp only [pc, WatchPc.held, WatchPc.stage, notified_held, List.length_nil]
      omega
  | swap outcome pc =>
      have full := (coherent.swapping pc).resolve_right (by simp [clear])
      have positive := List.length_pos_iff.mpr full
      simp only [pc, CallbackPc.held, CallbackPc.stage, List.length_nil]
      omega
  | _ => simp_all [threadAction, WatchPc.held, WatchPc.stage, CallbackPc.held, CallbackPc.stage] <;>
        omega

structure Quiet (pass : Bytes → Bool) (told : List Notice) (s : State) : Prop where
  coherent : Coherent s
  conserved : Conserved pass s
  idle : s.owner = .idle
  running : s.callback.isExited = false
  queued : notices pass s.queued = told

theorem quiet_preserved {told : List Notice} (taken : Step pass s a t) (acts : threadAction a)
    (quiet : Quiet pass told s) : Quiet pass told t := by
  have idle := quiet.idle
  have running := quiet.running
  have queued := quiet.queued
  have clear : s.destory = false := by
    have flagged := quiet.coherent.flagged
    simpa [idle] using flagged
  refine ⟨coherent_preserved taken quiet.coherent, conserved_preserved taken quiet.conserved,
    ?_, ?_, ?_⟩
  · cases taken <;> simp_all [threadAction]
  · cases taken with
    | notifyAll => simpa only [notified_isExited] using running
    | _ => simp_all [threadAction, CallbackPc.isExited]
  · cases taken <;> simp_all [threadAction]

theorem quiet_enabled {told : List Notice} (quiet : Quiet pass told s)
    (missing : s.delivered ≠ told) : ∃ a t, threadAction a ∧ step pass s a = some t := by
  have coherent := quiet.coherent
  by_cases blocked : s.callback = .blocked
  · refine watch_progress coherent ?_ ?_
    · intro left
      have flagged := coherent.flagged.mp (coherent.watchLeft left)
      exact flagged quiet.idle
    · intro reading unread
      have emptied := (coherent.blocked blocked).resolve_right (by simp [reading])
      have conserved := quiet.conserved
      simp only [Conserved, State.pending, blocked, emptied, reading, unread, CallbackPc.held,
        CallbackPc.abandoned, WatchPc.held, notices_nil, List.append_nil] at conserved
      exact missing (conserved.trans quiet.queued)
  · exact callback_progress coherent quiet.running blocked

/-- Once nothing more happens in the directory, everything the kernel has told is delivered, as long
as the callback throws nothing but `std::exception`s. -/
theorem delivery_inevitable (reached : Reachable (system pass) s) (idle : s.owner = .idle)
    (running : s.callback.isExited = false) :
    Inevitable (system pass) threadAction (fun _ => False)
      (fun t => t.delivered = notices pass s.queued) s := by
  have quiet : Quiet pass (notices pass s.queued) s :=
    ⟨coherent_reachable reached, conserved_reachable reached, idle, running, rfl⟩
  apply inevitable_of_rank (Quiet pass (notices pass s.queued)) State.distance _ _ _ quiet
  · intro _ _ _ _ passive
    exact passive.elim
  · intro u quiet missing
    exact quiet_enabled quiet missing
  · intro u a v quiet _ acts taken
    have next := step_some taken
    have flagged := quiet.coherent.flagged
    exact ⟨quiet_preserved next acts quiet,
      distance_decreases next acts quiet.coherent (by simpa [quiet.idle] using flagged)⟩

def parkThreads : List Action :=
  .watch 0 :: List.replicate 5 (.callback .returned)

theorem delivery_inevitable_after_create :
    ∃ s, Reachable (system regexAll) s ∧ s.callback = .blocked ∧
      Inevitable (system regexAll) threadAction (fun _ => False)
        (fun t => t.delivered = [(text "a.js", .added)]) s := by
  obtain ⟨history, s, run, checked⟩ := (system regexAll).exists_run rfl
    (parkThreads ++ [.happen created])
    (fun _ s => s.callback == .blocked && s.owner == .idle &&
      notices regexAll s.queued == [(text "a.js", .added)]) (by decide +kernel)
  simp only [Bool.and_eq_true, beq_iff_eq] at checked
  obtain ⟨⟨blocked, idle⟩, told⟩ := checked
  refine ⟨s, run.reachable, blocked, ?_⟩
  rw [← told]
  exact delivery_inevitable run.reachable idle (by rw [blocked]; rfl)

end BreezeJs.FileWatch
