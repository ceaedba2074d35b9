import BreezeJs.FileWatch.Steps

set_option autoImplicit false

namespace BreezeJs.FileWatch

open Infra Transition

variable {pass : Bytes → Bool}

def WatchPc.held : WatchPc → List Notice
  | .locking parsed | .inserting parsed => parsed
  | _ => []

def CallbackPc.held : CallbackPc → List Notice
  | .delivering batch => batch
  | _ => []

def CallbackPc.abandoned : CallbackPc → List Notice
  | .exited abandoned => abandoned
  | _ => []

@[simp] theorem notified_held (pc : CallbackPc) : pc.notified.held = pc.held := by
  cases pc <;> rfl

@[simp] theorem notified_abandoned (pc : CallbackPc) : pc.notified.abandoned = pc.abandoned := by
  cases pc <;> rfl

def State.pending (pass : Bytes → Bool) (s : State) : List Notice :=
  s.callback.held ++ s.information ++ s.watch.held ++ notices pass s.unread

def Conserved (pass : Bytes → Bool) (s : State) : Prop :=
  s.delivered ++ s.callback.abandoned ++ s.pending pass = notices pass s.queued

theorem conserved_queue {s : State} (event : InotifyEvent) (conserved : Conserved pass s) :
    Conserved pass (s.queue event) := by
  simp only [Conserved, State.pending, State.queue, notices_append] at conserved ⊢
  rw [← conserved]
  simp only [List.append_assoc]

theorem conserved_of_moved {s t : State} (queued : t.queued = s.queued)
    (moved : t.delivered ++ t.callback.abandoned ++ t.pending pass =
      s.delivered ++ s.callback.abandoned ++ s.pending pass)
    (conserved : Conserved pass s) : Conserved pass t := by
  rw [Conserved, queued, moved]
  exact conserved

theorem conserved_preserved {s t : State} {a : Action} (taken : Step pass s a t)
    (conserved : Conserved pass s) : Conserved pass t := by
  cases taken with
  | happen event _ => exact conserved_queue event conserved
  | vanish _ => exact conserved_queue ignored conserved
  | remove _ _ => exact conserved_queue ignored conserved
  | read count pc _ =>
      refine conserved_of_moved (s := s) rfl ?_ conserved
      have parts : notices pass s.unread =
          notices pass (s.unread.take count) ++ notices pass (s.unread.drop count) := by
        rw [← notices_append, List.take_append_drop]
      simp only [State.pending, pc, WatchPc.held, parts, List.append_assoc, List.nil_append]
  | insert count parsed pc =>
      refine conserved_of_moved (s := s) rfl ?_ conserved
      simp only [State.pending, pc, WatchPc.held, List.append_assoc, List.nil_append]
  | swap outcome pc =>
      refine conserved_of_moved (s := s) rfl ?_ conserved
      simp only [State.pending, pc, CallbackPc.held, CallbackPc.abandoned, List.append_assoc,
        List.nil_append]
  | deliver outcome file rest pc _ =>
      refine conserved_of_moved (s := s) rfl ?_ conserved
      simp only [State.pending, pc, CallbackPc.held, CallbackPc.abandoned, List.append_assoc,
        List.cons_append, List.nil_append]
  | throw file rest pc =>
      refine conserved_of_moved (s := s) rfl ?_ conserved
      simp only [State.pending, pc, CallbackPc.held, CallbackPc.abandoned, List.append_assoc,
        List.cons_append, List.nil_append]
  | notifyAll count pc =>
      refine conserved_of_moved (s := s) rfl ?_ conserved
      simp only [State.pending, pc, WatchPc.held, notified_held, notified_abandoned]
  | signal _ =>
      refine conserved_of_moved (s := s) rfl ?_ conserved
      simp only [State.pending, notified_held, notified_abandoned]
  | _ =>
      refine conserved_of_moved (s := s) rfl ?_ conserved
      simp_all [State.pending, WatchPc.held, CallbackPc.held, CallbackPc.abandoned]

theorem conserved_reachable {s : State} (reached : Reachable (system pass) s) :
    Conserved pass s := by
  apply reached.invariant (Conserved pass)
  · rintro _ rfl
    rfl
  · intro s a t conserved taken
    exact conserved_preserved (step_some taken) conserved

theorem abandoned_preserved {s t : State} {a : Action} (taken : Step pass s a t)
    (caught : a ≠ .callback .threwOther) (whole : s.callback.abandoned = []) :
    t.callback.abandoned = [] := by
  cases taken with
  | throw file rest pc => exact absurd rfl caught
  | notifyAll | signal => exact (notified_abandoned s.callback).trans whole
  | _ => simp_all [CallbackPc.abandoned, State.queue]

theorem delivered_in_order {history : List (State × Action)} {s : State}
    (run : Run (system pass) history s) :
    s.delivered ++ s.callback.abandoned ++ s.pending pass = notices pass s.queued ∧
      ((∀ entry ∈ history, entry.2 ≠ .callback .threwOther) → s.callback.abandoned = []) := by
  refine ⟨conserved_reachable run.reachable, fun caught => ?_⟩
  apply run.invariant (fun _ a => a ≠ .callback .threwOther) (fun s => s.callback.abandoned = [])
    _ _ caught
  · rintro _ rfl
    rfl
  · intro s a t whole caught taken
    exact abandoned_preserved (step_some taken) caught whole

def created : InotifyEvent where
  wd := 1
  mask := inCreate
  cookie := 0
  name := text "a.js" ++ [0]
  short := by decide
  terminated := by decide

theorem delivered_in_order_after_create :
    ∃ history s, Run (system regexAll) history s ∧ s.delivered = [(text "a.js", .added)] ∧
      s.delivered ++ s.callback.abandoned ++ s.pending regexAll = notices regexAll s.queued ∧
      s.callback.abandoned = [] := by
  obtain ⟨history, s, run, checked⟩ := (system regexAll).exists_run rfl
    (.happen created :: List.replicate 4 (.watch 1) ++ List.replicate 5 (.callback .returned))
    (fun history s => s.delivered == [(text "a.js", .added)] &&
      history.all fun entry => entry.2 != .callback .threwOther) (by decide +kernel)
  rw [Bool.and_eq_true, beq_iff_eq, List.all_eq_true] at checked
  have conserved := delivered_in_order run
  exact ⟨history, s, run, checked.1, conserved.1,
    conserved.2 fun entry member => by simpa using checked.2 entry member⟩

def WatchPc.locked : WatchPc → Bool
  | .inserting _ => true
  | _ => false

def CallbackPc.locked : CallbackPc → Bool
  | .checking | .predicate | .entering | .swapping => true
  | _ => false

@[simp] theorem notified_locked (pc : CallbackPc) : pc.notified.locked = pc.locked := by
  cases pc <;> rfl

@[simp] theorem notified_isExited (pc : CallbackPc) : pc.notified.isExited = pc.isExited := by
  cases pc <;> rfl

@[simp] theorem notified_eq_swapping (pc : CallbackPc) :
    pc.notified = .swapping ↔ pc = .swapping := by
  cases pc <;> simp [CallbackPc.notified]

@[simp] theorem notified_eq_entering (pc : CallbackPc) :
    pc.notified = .entering ↔ pc = .entering := by
  cases pc <;> simp [CallbackPc.notified]

@[simp] theorem notified_ne_blocked (pc : CallbackPc) : pc.notified ≠ .blocked := by
  cases pc <;> simp [CallbackPc.notified]

structure Coherent (s : State) : Prop where
  watchMutex : s.mutex = some .watch ↔ s.watch.locked = true
  callbackMutex : s.mutex = some .callback ↔ s.callback.locked = true
  flagged : s.destory = true ↔ s.owner ≠ .idle
  watched : s.watched = true → s.owner = .idle ∨ s.owner = .flagged
  watchLeft : s.watch = .exited → s.destory = true
  watchJoined : s.owner = .joiningCallback ∨ s.owner = .destroyed → s.watch = .exited
  callbackJoined : s.owner = .destroyed → s.callback.isExited = true
  swapping : s.callback = .swapping → s.information ≠ [] ∨ s.destory = true
  entering : s.callback = .entering → s.information = []
  blocked : s.callback = .blocked → s.information = [] ∨ s.watch = .notifying

theorem coherent_initial : Coherent initial where
  watchMutex := by simp [initial, WatchPc.locked]
  callbackMutex := by simp [initial, CallbackPc.locked]
  flagged := by simp [initial]
  watched := by simp [initial]
  watchLeft := by simp [initial]
  watchJoined := by simp [initial]
  callbackJoined := by simp [initial]
  swapping := by simp [initial]
  entering := by simp [initial]
  blocked := by simp [initial]

section Coherence

variable {s t : State} {a : Action}

theorem exclusive (coherent : Coherent s) {parsed : List Notice}
    (watch : s.watch = .inserting parsed) : s.callback.locked = false := by
  have held : s.mutex = some .watch := coherent.watchMutex.mpr (by rw [watch]; rfl)
  by_contra other
  have both := coherent.callbackMutex.mpr (by simpa using other)
  simp [held] at both

theorem watchMutex_preserved (taken : Step pass s a t) (coherent : Coherent s) :
    t.mutex = some .watch ↔ t.watch.locked = true := by
  have before := coherent.watchMutex
  have other := coherent.callbackMutex
  cases taken <;> simp_all [State.queue, WatchPc.locked, CallbackPc.locked]

theorem callbackMutex_preserved (taken : Step pass s a t) (coherent : Coherent s) :
    t.mutex = some .callback ↔ t.callback.locked = true := by
  have before := coherent.callbackMutex
  have other := coherent.watchMutex
  cases taken with
  | notifyAll | signal => simpa only [notified_locked] using before
  | _ => simp_all [State.queue, WatchPc.locked, CallbackPc.locked]

theorem flagged_preserved (taken : Step pass s a t) (coherent : Coherent s) :
    t.destory = true ↔ t.owner ≠ .idle := by
  have before := coherent.flagged
  cases taken <;> simp_all [State.queue]

theorem watched_preserved (taken : Step pass s a t) (coherent : Coherent s) :
    t.watched = true → t.owner = .idle ∨ t.owner = .flagged := by
  have before := coherent.watched
  cases taken <;> simp_all [State.queue]

theorem watchLeft_preserved (taken : Step pass s a t) (coherent : Coherent s) :
    t.watch = .exited → t.destory = true := by
  have before := coherent.watchLeft
  cases taken <;> simp_all [State.queue]

theorem watchJoined_preserved (taken : Step pass s a t) (coherent : Coherent s) :
    t.owner = .joiningCallback ∨ t.owner = .destroyed → t.watch = .exited := by
  have before := coherent.watchJoined
  cases taken <;> simp_all [State.queue]

theorem callbackJoined_preserved (taken : Step pass s a t) (coherent : Coherent s) :
    t.owner = .destroyed → t.callback.isExited = true := by
  have before := coherent.callbackJoined
  cases taken with
  | notifyAll => simpa only [notified_isExited] using before
  | _ => simp_all [State.queue, CallbackPc.isExited]

theorem swapping_preserved (taken : Step pass s a t) (coherent : Coherent s) :
    t.callback = .swapping → t.information ≠ [] ∨ t.destory = true := by
  have before := coherent.swapping
  cases taken with
  | insert count parsed watch =>
      intro here
      change s.callback = .swapping at here
      have excluded := exclusive coherent watch
      rw [here] at excluded
      cases excluded
  | _ => simp_all [State.queue]

theorem entering_preserved (taken : Step pass s a t) (coherent : Coherent s) :
    t.callback = .entering → t.information = [] := by
  have before := coherent.entering
  cases taken with
  | insert count parsed watch =>
      intro here
      change s.callback = .entering at here
      have excluded := exclusive coherent watch
      rw [here] at excluded
      cases excluded
  | _ => simp_all [State.queue]

theorem blocked_preserved (taken : Step pass s a t) (coherent : Coherent s) :
    t.callback = .blocked → t.information = [] ∨ t.watch = .notifying := by
  have before := coherent.blocked
  have entering := coherent.entering
  cases taken <;> simp_all [State.queue]

theorem coherent_preserved (taken : Step pass s a t) (coherent : Coherent s) : Coherent t where
  watchMutex := watchMutex_preserved taken coherent
  callbackMutex := callbackMutex_preserved taken coherent
  flagged := flagged_preserved taken coherent
  watched := watched_preserved taken coherent
  watchLeft := watchLeft_preserved taken coherent
  watchJoined := watchJoined_preserved taken coherent
  callbackJoined := callbackJoined_preserved taken coherent
  swapping := swapping_preserved taken coherent
  entering := entering_preserved taken coherent
  blocked := blocked_preserved taken coherent

end Coherence

theorem coherent_reachable {s : State} (reached : Reachable (system pass) s) : Coherent s := by
  apply reached.invariant Coherent
  · rintro _ rfl
    exact coherent_initial
  · intro s a t coherent taken
    exact coherent_preserved (step_some taken) coherent

end BreezeJs.FileWatch
